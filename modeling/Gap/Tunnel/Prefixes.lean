import Gap.Lib.Bits
import Gap.Tunnel.Packet

namespace Gap.Tunnel

/-!
# The routing table and the assignments file

`prefixes[512]`, indexed by descriptor, with the three loops over it and `parse_prefixes`.  A
loop that stops at its first match is `Fin.find?`.

* `SocketPrefix`, `Prefixes` — the table.
* `findPd`, `findLl` — the entry a packet from TUN is sent to.
* `parsePrefixes` — the reload of the delegated blocks, as far as it stays inside `line[]`.
* `Reloaded` — all that a reload can do to the table; `parsePrefixes_reloaded`.
* `delegations`, `lastBlock` — what the assignments file delegates.
* `foldl_assign_first`, `foldl_assign_of_not` — the reload, entry by entry: the first entry with an
  address gets the block given last to it.
-/

/-- `struct socket_prefix`. -/
structure SocketPrefix where
  addrPd : In6Addr
  /-- 0 if not set. -/
  plenPd : ℕ
  addrLl : In6Addr
  /-- 0 if not set, 128 if valid. -/
  plenLl : ℕ

/-- `prefixes[512]`. -/
abbrev Prefixes := Fin 512 → SocketPrefix

/-- An entry of the zeroed table. -/
def SocketPrefix.zero : SocketPrefix := ⟨fun _ => 0, 0, fun _ => 0, 0⟩

/-- `plen_ll = 0; plen_pd = 0`: the addresses stay. -/
def SocketPrefix.clear (p : SocketPrefix) : SocketPrefix := { p with plenLl := 0, plenPd := 0 }

/-! ### Lookups -/

/-- The test of the delegated-block loops: the first 62 bits agree. -/
def SocketPrefix.matchesPd (p : SocketPrefix) (dst : In6Addr) : Bool :=
  p.plenPd != 0 && dst.agree p.addrPd 0 7 && (dst 7 &&& 0xfc) == (p.addrPd 7 &&& 0xfc)

/-- The test of the link-local loop: the last 64 bits agree. -/
def SocketPrefix.matchesLl (p : SocketPrefix) (dst : In6Addr) : Bool :=
  p.plenLl != 0 && dst.agree p.addrLl 8 8

/-- The entry whose delegated block holds the destination. -/
def findPd (prefixes : Prefixes) (dst : In6Addr) : Option (Fin 512) :=
  Fin.find? fun j => (prefixes j).matchesPd dst

/-- The entry whose link-local address is the destination's. -/
def findLl (prefixes : Prefixes) (dst : In6Addr) : Option (Fin 512) :=
  Fin.find? fun j => (prefixes j).matchesLl dst

/-! ### `parse_prefixes` -/

/-- `'\n'`. -/
def newline : UInt8 := 10

/-- `' '`. -/
def blank : UInt8 := 32

/-- `'0'`, the digit. -/
def digitZero : UInt8 := 48

/-- The lines successive `fgets (line, 512, prefix_file)` calls return before the one that sets
    the end-of-file indicator; `line` is the line read so far. -/
def fgetsLines : List UInt8 → List UInt8 → List (List UInt8)
  | _, [] => []
  | line, c :: rest =>
    -- the terminating `'\0'` takes one of the 512 bytes
    if c = newline ∨ line.length = 510 then (line ++ [c]) :: fgetsLines [] rest
    else fgetsLines (line ++ [c]) rest

/-- The C string that starts at `i`. -/
def cString (line : Buf 512) (i : ℕ) : List UInt8 :=
  ((line.front 512).drop i).takeWhile fun c => c != 0

/-- `*(ptr - k) = c`, for the bytes that are in the array. -/
def storeBack (line : Buf 512) (ptr k : ℕ) (c : UInt8) : Buf 512 :=
  if k ≤ ptr then line.copy (ptr - k) [c] else line

/-- The variables of one pass over a line. -/
structure LineVars where
  line : Buf 512
  ptr2 : ℕ
  passes : ℕ
  localAddr : In6Addr
  block : In6Addr

/-- The values of `local` and `block` at the start of a pass. -/
structure Indeterminate where
  localAddr : In6Addr
  block : In6Addr

/-- The scan of a line with `left` bytes of the array to go, and whether it found a match; without
    a result once a digit is stored in front of the array.  `fgets` has put a `'\0'` into the
    array, so the scan does not leave it at the other end. -/
def scanLine (inetPton : List UInt8 → Option In6Addr) : ℕ → LineVars → Option (Bool × LineVars)
  | 0, v => some (false, v)
  | left + 1, v =>
    let ptr := 511 - left
    let c := v.line ⟨511 - left, by omega⟩
    if c = 0 then some (false, v)
    else if v.passes = 0 then
      -- `inet_pton` leaves its result alone when it fails
      if c = blank then
        let line := storeBack v.line ptr 0 0
        scanLine inetPton left { v with
          line
          ptr2 := ptr + 1
          localAddr := (inetPton (cString line 0)).getD v.localAddr
          passes := v.passes + 1 }
      else scanLine inetPton left v
    else if c = newline then
      -- with fewer than three bytes in front of it, `ptr - 3` is not in the array
      if ptr < 3 then none
      else
        let line := [1, 2, 3].foldl (fun line k => storeBack line ptr k digitZero)
          (storeBack v.line ptr 0 0)
        some (true, { v with line, block := (inetPton (cString line v.ptr2)).getD v.block })
    else scanLine inetPton left v

/-- The match loop: the first entry with this link-local address gets the block. -/
def assign (prefixes : Prefixes) (localAddr block : In6Addr) : Prefixes :=
  match Fin.find? fun j =>
      (prefixes j).plenLl != 0 && (prefixes j).addrLl.agree localAddr 0 16 with
  | none => prefixes
  | some j => Function.update prefixes j { prefixes j with addrPd := block, plenPd := 62 }

/-- The variables at the start of the scan. -/
def LineVars.start (ind : Indeterminate) (line : Buf 512) : LineVars :=
  { line, ptr2 := 0, passes := 0, localAddr := ind.localAddr, block := ind.block }

/-- One pass of the outer loop of `parse_prefixes`. -/
def parseLine (inetPton : List UInt8 → Option In6Addr) (ind : Indeterminate) (line : List UInt8)
    (prefixes : Prefixes) : Option Prefixes :=
  (scanLine inetPton 512 (.start ind (Buf.copy (fun _ => 0) 0 line))).map fun r =>
    if r.1 then assign prefixes r.2.localAddr r.2.block else prefixes

/-- `parse_prefixes` on a file that could be opened; `ind` gives the indeterminate values of
    each pass.  There is no result if a digit is stored in front of `line[]`. -/
def parsePrefixes (inetPton : List UInt8 → Option In6Addr) (ind : ℕ → Indeterminate)
    (contents : List UInt8) (prefixes : Prefixes) : Option Prefixes :=
  (fgetsLines [] contents).zipIdx.foldlM (fun t lk => parseLine inetPton (ind lk.2) lk.1 t) prefixes

/-! ### What a reload can do -/

/-- A reload keeps what was learned, and gives blocks only to entries that have learned. -/
structure Reloaded (t t' : Prefixes) : Prop where
  plenLl : ∀ j, (t' j).plenLl = (t j).plenLl
  addrLl : ∀ j, (t' j).addrLl = (t j).addrLl
  plenPd : ∀ j, (t' j).plenPd ≠ 0 → (t j).plenPd ≠ 0 ∨ (t j).plenLl ≠ 0

theorem Reloaded.refl (t : Prefixes) : Reloaded t t :=
  ⟨fun _ => rfl, fun _ => rfl, fun _ h => .inl h⟩

theorem Reloaded.trans {t t' t'' : Prefixes} (h : Reloaded t t') (h' : Reloaded t' t'') :
    Reloaded t t'' where
  plenLl j := (h'.plenLl j).trans (h.plenLl j)
  addrLl j := (h'.addrLl j).trans (h.addrLl j)
  plenPd j hj := by
    rcases h'.plenPd j hj with hpd | hll
    · exact h.plenPd j hpd
    · exact .inr (by rwa [← h.plenLl j])

/-- **The match loop** writes to an entry that has learned this address, if to any. -/
theorem assign_cases (t : Prefixes) (localAddr block : In6Addr) :
    assign t localAddr block = t ∨ ∃ j, (t j).plenLl ≠ 0 ∧ (t j).addrLl = localAddr ∧
      assign t localAddr block = Function.update t j { t j with addrPd := block, plenPd := 62 } := by
  unfold assign
  cases hfind : Fin.find? fun j => (t j).plenLl != 0 && (t j).addrLl.agree localAddr 0 16 with
  | none => exact .inl rfl
  | some j =>
    have hmatch := Fin.eq_true_of_find?_eq_some hfind
    rw [Bool.and_eq_true, bne_iff_ne] at hmatch
    exact .inr ⟨j, hmatch.1, In6Addr.agree_all.mp hmatch.2, rfl⟩

theorem assign_reloaded (t : Prefixes) (localAddr block : In6Addr) :
    Reloaded t (assign t localAddr block) := by
  rcases assign_cases t localAddr block with hsame | ⟨j, hll, -, hwrite⟩
  · rw [hsame]
    exact Reloaded.refl t
  · rw [hwrite]
    refine ⟨fun k => ?_, fun k => ?_, fun k hk => ?_⟩
    · by_cases hkj : k = j
      · subst hkj; rw [Function.update_self]
      · rw [Function.update_of_ne hkj]
    · by_cases hkj : k = j
      · subst hkj; rw [Function.update_self]
      · rw [Function.update_of_ne hkj]
    · by_cases hkj : k = j
      · subst hkj; exact .inr hll
      · rw [Function.update_of_ne hkj] at hk; exact .inl hk

theorem foldl_assign_reloaded (t : Prefixes) (ds : List (In6Addr × In6Addr)) :
    Reloaded t (ds.foldl (fun t d => assign t d.1 d.2) t) :=
  List.foldlRecOn (motive := fun t' => Reloaded t t') _ _ (Reloaded.refl t)
    fun t' h d _ => h.trans (assign_reloaded t' d.1 d.2)

/-! ### What the file delegates -/

/-- The first 62 bits agree. -/
def covers (block dst : In6Addr) : Bool :=
  dst.agree block 0 7 && (dst 7 &&& 0xfc) == (block 7 &&& 0xfc)

/-- In bits. -/
theorem covers_iff (block dst : In6Addr) : covers block dst = true ↔ Buf.SameBits 62 block dst := by
  have hmask := mask_eq_iff (m := 0xfc) (r := 6) (by decide) (by decide)
  rw [show 62 = 8 * 7 + 6 from rfl, Buf.sameBits_add_iff (by decide) (by decide), covers,
    Bool.and_eq_true, beq_iff_eq, hmask, In6Addr.agree, decide_eq_true_eq]
  refine and_congr ⟨fun h i hi => (h i (Nat.zero_le _) hi).symm, fun h i _ hi => (h i hi).symm⟩ ?_
  exact forall₂_congr fun _ _ => eq_comm

theorem SocketPrefix.matchesPd_eq (p : SocketPrefix) (dst : In6Addr) :
    p.matchesPd dst = (p.plenPd != 0 && covers p.addrPd dst) := Bool.and_assoc _ _ _

/-- The address and the block of a line, if the pass gets as far as the match loop. -/
def delegation (inetPton : List UInt8 → Option In6Addr) (ind : Indeterminate) (line : List UInt8) :
    Option (In6Addr × In6Addr) :=
  (scanLine inetPton 512 (.start ind (Buf.copy (fun _ => 0) 0 line))).bind fun r =>
    if r.1 then some (r.2.localAddr, r.2.block) else none

/-- The addresses and blocks of the file. -/
def delegations (inetPton : List UInt8 → Option In6Addr) (ind : ℕ → Indeterminate)
    (contents : List UInt8) : List (In6Addr × In6Addr) :=
  (fgetsLines [] contents).zipIdx.filterMap fun lk => delegation inetPton (ind lk.2) lk.1

/-- The block given last to an address. -/
def lastBlock (addr : In6Addr) (ds : List (In6Addr × In6Addr)) : Option In6Addr :=
  ds.foldl (fun b d => if d.1 = addr then some d.2 else b) none

/-- A pass over a line is the match loop for what it finds. -/
theorem eq_of_parseLine {inetPton : List UInt8 → Option In6Addr} {ind : Indeterminate}
    {line : List UInt8} {t t' : Prefixes} (h : parseLine inetPton ind line t = some t') :
    t' = match delegation inetPton ind line with
      | some d => assign t d.1 d.2
      | none => t := by
  obtain ⟨r, hscan, rfl⟩ := Option.map_eq_some_iff.mp h
  rw [delegation, hscan, Option.bind_some]
  by_cases hfound : r.1 = true
  · simp only [hfound, if_true]
  · simp only [hfound, Bool.false_eq_true, if_false]

/-- The passes over these lines are the match loop for what they find. -/
theorem eq_of_foldlM_parseLine {inetPton : List UInt8 → Option In6Addr} {ind : ℕ → Indeterminate}
    {lines : List (List UInt8 × ℕ)} {t t' : Prefixes}
    (h : lines.foldlM (fun t lk => parseLine inetPton (ind lk.2) lk.1 t) t = some t') :
    t' = (lines.filterMap fun lk => delegation inetPton (ind lk.2) lk.1).foldl
      (fun t d => assign t d.1 d.2) t := by
  induction lines generalizing t with
  | nil =>
    rw [List.foldlM_nil] at h
    cases h
    rfl
  | cons lk lines ih =>
    rw [List.foldlM_cons] at h
    obtain ⟨t₁, hline, hrest⟩ := Option.bind_eq_some_iff.mp h
    rw [ih hrest, eq_of_parseLine hline, List.filterMap_cons]
    cases delegation inetPton (ind lk.2) lk.1 with
    | none => rfl
    | some d => rw [List.foldl_cons]

/-- **A reload** that stays inside `line[]` is the match loop for each delegation of the file. -/
theorem eq_of_parsePrefixes {inetPton : List UInt8 → Option In6Addr} {ind : ℕ → Indeterminate}
    {contents : List UInt8} {t t' : Prefixes}
    (h : parsePrefixes inetPton ind contents t = some t') :
    t' = (delegations inetPton ind contents).foldl (fun t d => assign t d.1 d.2) t :=
  eq_of_foldlM_parseLine h

/-- So it keeps what was learned, whatever is in the file. -/
theorem parsePrefixes_reloaded {inetPton : List UInt8 → Option In6Addr} {ind : ℕ → Indeterminate}
    {contents : List UInt8} {t t' : Prefixes}
    (h : parsePrefixes inetPton ind contents t = some t') : Reloaded t t' := by
  rw [eq_of_parsePrefixes h]
  exact foldl_assign_reloaded t _

/-- A loop that can stop at one entry only. -/
theorem find?_eq_some_of_sole {n : ℕ} {p : Fin n → Bool} {j : Fin n} (hj : p j = true)
    (hsole : ∀ k, p k = true → k = j) : Fin.find? p = some j := by
  rw [Fin.find?_eq_some_iff]
  refine ⟨hj, fun k hk => ?_⟩
  by_contra hpk
  rw [Bool.not_eq_false] at hpk
  exact absurd (hsole k hpk) (Fin.ne_of_lt hk)

/-- Entry `j` is the first one that has learned its address. -/
structure First (t : Prefixes) (j : Fin 512) : Prop where
  plenLl : (t j).plenLl ≠ 0
  first : ∀ k < j, (t k).plenLl ≠ 0 → (t k).addrLl ≠ (t j).addrLl

/-- A reload leaves the addresses as they are. -/
theorem first_reloaded {t t' : Prefixes} (h : Reloaded t t') {j : Fin 512} :
    First t' j ↔ First t j := by
  constructor
  · rintro ⟨hll, hfirst⟩
    simp only [h.plenLl, h.addrLl] at hll hfirst
    exact ⟨hll, hfirst⟩
  · rintro ⟨hll, hfirst⟩
    refine ⟨?_, ?_⟩
    · rw [h.plenLl]
      exact hll
    · simp only [h.plenLl, h.addrLl]
      exact hfirst

/-- The match loop stops at the first entry with the address. -/
theorem find_assign_iff (t : Prefixes) (localAddr : In6Addr) (j : Fin 512) :
    Fin.find? (fun k => (t k).plenLl != 0 && (t k).addrLl.agree localAddr 0 16) = some j ↔
      First t j ∧ (t j).addrLl = localAddr := by
  rw [Fin.find?_eq_some_iff]
  simp only [Bool.eq_false_iff, Bool.and_eq_true, bne_iff_ne, In6Addr.agree_all, ne_eq]
  constructor
  · rintro ⟨⟨hll, rfl⟩, hbefore⟩
    exact ⟨⟨hll, fun k hk hllk ha => hbefore k hk ⟨hllk, ha⟩⟩, rfl⟩
  · rintro ⟨⟨hll, hfirst⟩, rfl⟩
    exact ⟨⟨hll, rfl⟩, fun k hk hmatch => hfirst k hk hmatch.1 hmatch.2⟩

theorem assign_first {t : Prefixes} {j : Fin 512} (h : First t j) (block : In6Addr) :
    assign t (t j).addrLl block j = { t j with addrPd := block, plenPd := 62 } := by
  unfold assign
  rw [(find_assign_iff t _ j).mpr ⟨h, rfl⟩]
  exact Function.update_self ..

/-- Any other entry is left alone. -/
theorem assign_of_not {t : Prefixes} {j : Fin 512} {localAddr : In6Addr}
    (h : ¬ (First t j ∧ (t j).addrLl = localAddr)) (block : In6Addr) :
    assign t localAddr block j = t j := by
  unfold assign
  cases hfind : Fin.find? fun k => (t k).plenLl != 0 && (t k).addrLl.agree localAddr 0 16 with
  | none => rfl
  | some k =>
    have hne : j ≠ k := by
      rintro rfl
      exact h ((find_assign_iff t localAddr j).mp hfind)
    exact Function.update_of_ne hne ..

/-- **The reload of an entry.**  The first entry with an address gets the block given last to it. -/
theorem foldl_assign_first {t : Prefixes} {j : Fin 512} (h : First t j)
    (ds : List (In6Addr × In6Addr)) :
    ds.foldl (fun t d => assign t d.1 d.2) t j = match lastBlock (t j).addrLl ds with
      | some block => { t j with addrPd := block, plenPd := 62 }
      | none => t j := by
  -- from the back: the last line decides, since it overwrites what those before it gave
  induction ds using List.reverseRecOn with
  | nil => rfl
  | append_singleton ds d ih =>
    have hr := foldl_assign_reloaded t ds
    simp only [List.foldl_append, List.foldl_cons, List.foldl_nil, lastBlock] at ih ⊢
    set t' := ds.foldl (fun t d => assign t d.1 d.2) t with ht'
    by_cases hd : d.1 = (t j).addrLl
    · rw [if_pos hd, hd, ← hr.addrLl j, assign_first ((first_reloaded hr).mpr h), ih]
      generalize List.foldl _ none ds = last
      cases last <;> rfl
    · rw [if_neg hd, assign_of_not (by rw [hr.addrLl]; exact fun he => hd he.2.symm), ih]

/-- Any other entry is left alone. -/
theorem foldl_assign_of_not {t : Prefixes} {j : Fin 512} (h : ¬ First t j)
    (ds : List (In6Addr × In6Addr)) : ds.foldl (fun t d => assign t d.1 d.2) t j = t j := by
  induction ds using List.reverseRecOn with
  | nil => rfl
  | append_singleton ds d ih =>
    have hr := foldl_assign_reloaded t ds
    rw [List.foldl_append, List.foldl_cons, List.foldl_nil,
      assign_of_not (fun hj => h ((first_reloaded hr).mp hj.1)), ih]

/-- The block given last is given by some line. -/
theorem mem_of_lastBlock {addr block : In6Addr} {ds : List (In6Addr × In6Addr)}
    (h : lastBlock addr ds = some block) : (addr, block) ∈ ds := by
  induction ds using List.reverseRecOn with
  | nil => cases h
  | append_singleton ds d ih =>
    rw [lastBlock, List.foldl_append, List.foldl_cons, List.foldl_nil] at h
    by_cases hd : d.1 = addr
    · rw [if_pos hd, Option.some.injEq] at h
      rw [← hd, ← h]
      exact List.mem_append_right _ (List.mem_singleton_self d)
    · rw [if_neg hd] at h
      exact List.mem_append_left _ (ih h)

/-- What a lookup makes of the entry. -/
theorem matchesPd_foldl_first {t : Prefixes} {j : Fin 512} (h : First t j) (dst : In6Addr)
    (ds : List (In6Addr × In6Addr)) :
    (ds.foldl (fun t d => assign t d.1 d.2) t j).matchesPd dst =
      match lastBlock (t j).addrLl ds with
      | some block => covers block dst
      | none => (t j).matchesPd dst := by
  rw [foldl_assign_first h]
  cases lastBlock (t j).addrLl ds with
  | none => rfl
  | some block => rw [SocketPrefix.matchesPd_eq]; rfl

/-- Entry `j` is the only one that has learned its address. -/
structure Sole (t : Prefixes) (j : Fin 512) : Prop where
  plenLl : (t j).plenLl ≠ 0
  sole : ∀ k, (t k).plenLl ≠ 0 → (t k).addrLl = (t j).addrLl → k = j

theorem Sole.first {t : Prefixes} {j : Fin 512} (h : Sole t j) : First t j :=
  ⟨h.plenLl, fun k hk hll ha => hk.ne (h.sole k hll ha)⟩

/-- **The reload of a sole entry.**  Any other entry gets only what is given to another address. -/
theorem matchesPd_foldl_other {t : Prefixes} {j k : Fin 512} (h : Sole t j) (hkj : k ≠ j)
    {dst : In6Addr} {ds : List (In6Addr × In6Addr)}
    (hk : (ds.foldl (fun t d => assign t d.1 d.2) t k).matchesPd dst = true) :
    (t k).matchesPd dst = true ∨ ∃ d ∈ ds, d.1 ≠ (t j).addrLl ∧ covers d.2 dst = true := by
  by_cases hfirst : First t k
  · rw [matchesPd_foldl_first hfirst] at hk
    cases hlast : lastBlock (t k).addrLl ds with
    | none =>
      rw [hlast] at hk
      exact .inl hk
    | some block =>
      rw [hlast] at hk
      -- an entry with the address of `j` would be `j`
      exact .inr ⟨_, mem_of_lastBlock hlast, fun ha => hkj (h.sole k hfirst.plenLl ha), hk⟩
  · rw [foldl_assign_of_not hfirst] at hk
    exact .inl hk

end Gap.Tunnel
