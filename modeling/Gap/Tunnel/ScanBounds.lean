import Gap.Tunnel.Termination

namespace Gap.Tunnel

/-!
# Accesses of the line scanner

The bytes of `line[512]` that `parse_prefixes` reads and overwrites while it scans a line.  The `'\0'`
of `fgets` bounds the reads; the three digits in front of the newline are stored without a look at
where the second text starts.

* `Access`, `passAccesses` — what one pass of the inner loop accesses; `passAccesses_frame` — it
  changes nothing else.
* `scanAccesses`, `lineAccesses_eq` — the accesses of a whole scan, for any line.
* `InLine`, `inLine_iff` — when the digits are stored in the second text.
* `scan_bounds` — over every file.
-/

/-! ### Accesses -/

/-- An access to `line`, with its index. -/
inductive Access
  | read (i : ℤ)
  /-- `*ptr = '\0'`. -/
  | cut (i : ℤ)
  /-- `*(ptr - k) = '0'`. -/
  | stamp (i : ℤ)
  deriving DecidableEq

/-- The index. -/
def Access.index : Access → ℤ
  | .read i => i
  | .cut i => i
  | .stamp i => i

/-- `k` bytes are read, from `i` on. -/
def readsFrom (i k : ℕ) : List Access := (List.range' i k).map fun p : ℕ => .read p

/-- The string at `i` is read, with its `'\0'`. -/
def stringReads (line : Buf 512) (i : ℕ) : List Access := readsFrom i ((cString line i).length + 1)

/-- The accesses of one pass of the inner loop, `inet_pton` included; those at the newline are listed
    also where a digit is stored in front of the array. -/
def passAccesses (ptr : ℕ) (v : LineVars) : List Access :=
  if h : ptr < 512 then
    let c := v.line ⟨ptr, h⟩
    if c = 0 then [.read ptr]
    else if v.passes = 0 then
      if c = blank then [.read ptr, .cut ptr] ++ stringReads (storeBack v.line ptr 0 0) 0
      else [.read ptr]
    else if c = newline then
      [.read ptr, .cut ptr, .stamp (ptr - 1), .stamp (ptr - 2), .stamp (ptr - 3)] ++
        stringReads (stampLine v.line ptr) v.ptr2
    else [.read ptr]
  else [.read ptr]

section

variable (inetPton : List UInt8 → Option In6Addr)

/-- The accesses of up to so many passes. -/
def scanAccesses : ℕ → ℕ × LineVars → List Access
  | 0, _ => []
  | n + 1, s =>
    passAccesses s.1 s.2 ++
      match scanPass inetPton s with
      | some (.next s') => scanAccesses n s'
      | _ => []

/-- The accesses while a line is scanned, in the array that `fgets` has left; the scan ends within
    513 passes. -/
def lineAccesses (ind : Indeterminate) (stale : Buf 512) (line : List UInt8) : List Access :=
  scanAccesses inetPton 513 (0, .start ind (stale.copy 0 (line ++ [0])))

variable {inetPton}

/-- **A pass** changes only the bytes it overwrites. -/
theorem passAccesses_frame {ptr : ℕ} {v : LineVars} {i : Fin 512}
    (hcut : .cut i ∉ passAccesses ptr v) (hstamp : .stamp i ∉ passAccesses ptr v) :
    (∀ s', scanPass inetPton (ptr, v) = some (.next s') → s'.2.line i = v.line i) ∧
      ∀ r, scanPass inetPton (ptr, v) = some (.leave r) → r.2.line i = v.line i := by
  by_cases hptr : ptr < 512
  · simp only [scanPass, passAccesses, dif_pos hptr] at hcut hstamp ⊢
    by_cases hzero : v.line ⟨ptr, hptr⟩ = 0
    · rw [if_pos hzero]
      refine ⟨fun s' hs => (by cases hs), fun r hr => ?_⟩
      cases hr
      rfl
    rw [if_neg hzero] at hcut hstamp ⊢
    by_cases hpasses : v.passes = 0
    · rw [if_pos hpasses] at hcut hstamp ⊢
      by_cases hblank : v.line ⟨ptr, hptr⟩ = blank
      · rw [if_pos hblank] at hcut ⊢
        refine ⟨fun s' hs => ?_, fun r hr => by cases hr⟩
        cases hs
        have hne : i.val ≠ ptr := by
          rintro rfl
          exact hcut (by simp)
        simp only [storeBack_apply]
        exact if_neg hne
      · rw [if_neg hblank]
        refine ⟨fun s' hs => ?_, fun r hr => by cases hr⟩
        cases hs
        rfl
    · rw [if_neg hpasses] at hcut hstamp ⊢
      by_cases hnewline : v.line ⟨ptr, hptr⟩ = newline
      · rw [if_pos hnewline] at hcut hstamp ⊢
        by_cases hshort : ptr < 3
        · rw [if_pos hshort]
          exact ⟨fun s' hs => (by cases hs), fun r hr => by cases hr⟩
        rw [if_neg hshort]
        refine ⟨fun s' hs => (by cases hs), fun r hr => ?_⟩
        cases hr
        have hne : i.val ≠ ptr := by
          rintro rfl
          exact hcut (by simp)
        have hfar : ¬ (i.val < ptr ∧ ptr ≤ i.val + 3) := by
          rintro ⟨hlt, hle⟩
          simp only [List.mem_append, List.mem_cons, Access.stamp.injEq, not_or] at hstamp
          omega
        simp only [stampLine_apply]
        rw [if_neg hne, if_neg hfar]
      · rw [if_neg hnewline]
        refine ⟨fun s' hs => ?_, fun r hr => by cases hr⟩
        cases hs
        rfl
  · simp only [scanPass, dif_neg hptr]
    exact ⟨fun s' hs => (by cases hs), fun r hr => by cases hr⟩

/-! ### A whole scan -/

theorem readsFrom_succ (i k : ℕ) : readsFrom i (k + 1) = .read i :: readsFrom (i + 1) k := by
  simp [readsFrom, List.range'_succ]

theorem readsFrom_append (i j k : ℕ) :
    readsFrom i j ++ readsFrom (i + j) k = readsFrom i (j + k) := by
  rw [readsFrom, readsFrom, ← List.map_append, List.range'_append_1, readsFrom]

/-- A character that is not looked for is read. -/
theorem scanAccesses_skip (n : ℕ) (v : LineVars) {i : ℕ} (hi : i < 512)
    (hzero : v.line ⟨i, hi⟩ ≠ 0) (hnot : v.line ⟨i, hi⟩ ≠ if v.passes = 0 then blank else newline) :
    scanAccesses inetPton (n + 1) (i, v) = .read i :: scanAccesses inetPton n (i + 1, v) := by
  by_cases hpasses : v.passes = 0
  · rw [if_pos hpasses] at hnot
    simp [scanAccesses, passAccesses, scanPass, hi, hzero, hpasses, hnot]
  · rw [if_neg hpasses] at hnot
    simp [scanAccesses, passAccesses, scanPass, hi, hzero, hpasses, hnot]

/-- So is a text without the character that is looked for. -/
theorem scanAccesses_over (n : ℕ) (v : LineVars) {i : ℕ} {text : List UInt8}
    (hlen : i + text.length ≤ 512)
    (hbyte : ∀ k (h : k < text.length) (hk : i + k < 512), v.line ⟨i + k, hk⟩ = text[k])
    (hne : ∀ c ∈ text, c ≠ 0) (hnot : (if v.passes = 0 then blank else newline) ∉ text) :
    scanAccesses inetPton (n + text.length) (i, v)
      = readsFrom i text.length ++ scanAccesses inetPton n (i + text.length, v) := by
  induction text generalizing i with
  | nil => rfl
  | cons c text ih =>
    rw [List.length_cons] at hlen
    have hc : v.line ⟨i, by omega⟩ = c := hbyte 0 (Nat.zero_lt_succ _) (by omega)
    rw [List.mem_cons, not_or] at hnot
    have hrest := ih (i := i + 1) (by omega)
      (fun k hk hk' => by
        have hb := hbyte (k + 1) (by simpa using hk) (by omega)
        simpa [show i + 1 + k = i + (k + 1) by omega] using hb)
      (fun d hd => hne d (List.mem_cons_of_mem _ hd)) hnot.2
    rw [List.length_cons, ← Nat.add_assoc, scanAccesses_skip (n + text.length) v (by omega)
      (by rw [hc]; exact hne c List.mem_cons_self) (by rw [hc]; exact fun h => hnot.1 h.symm), hrest,
      readsFrom_succ, List.cons_append, show i + 1 + text.length = i + (text.length + 1) by omega]

/-- A `'\0'` ends the scan. -/
theorem scanAccesses_end (n : ℕ) (v : LineVars) {i : ℕ} (hi : i < 512)
    (hzero : v.line ⟨i, hi⟩ = 0) : scanAccesses inetPton (n + 1) (i, v) = [.read i] := by
  simp [scanAccesses, passAccesses, scanPass, hi, hzero]

/-- A whole text without the character that is looked for. -/
theorem scanAccesses_text (n : ℕ) (v : LineVars) {i : ℕ} {text : List UInt8}
    (h : TextAt v.line i text) (hnot : (if v.passes = 0 then blank else newline) ∉ text) :
    scanAccesses inetPton (n + 1 + text.length) (i, v) = readsFrom i (text.length + 1) := by
  have hlen := h.length_lt
  rw [scanAccesses_over (n + 1) v hlen.le (fun k hk _ => h.byte k hk) h.ne hnot,
    scanAccesses_end n v h.length_lt h.terminated, ← readsFrom_append]
  rfl

/-- The text up to the character that is looked for. -/
theorem scanAccesses_front (n : ℕ) (v : LineVars) {i : ℕ} {front rest : List UInt8} {c : UInt8}
    (h : TextAt v.line i (front ++ c :: rest))
    (hnot : (if v.passes = 0 then blank else newline) ∉ front) :
    scanAccesses inetPton (n + front.length) (i, v)
      = readsFrom i front.length ++ scanAccesses inetPton n (i + front.length, v) := by
  have hlen := h.length_lt
  rw [List.length_append, List.length_cons] at hlen
  refine scanAccesses_over n v (by omega) (fun k hk _ => ?_)
    (fun d hd => h.ne d (List.mem_append_left _ hd)) hnot
  rw [h.byte k (by simp; omega), List.getElem_append_left hk]

/-- The blank. -/
theorem scanAccesses_blank (n : ℕ) (v : LineVars) {i : ℕ} (hi : i < 512) (hpasses : v.passes = 0)
    (hblank : v.line ⟨i, hi⟩ = blank) :
    scanAccesses inetPton (n + 1) (i, v) =
      [.read i, .cut i] ++ stringReads (v.line.copy i [0]) 0 ++
        scanAccesses inetPton n (i + 1, { v with
          line := v.line.copy i [0]
          ptr2 := i + 1
          localAddr := (inetPton (cString (v.line.copy i [0]) 0)).getD v.localAddr
          passes := v.passes + 1 }) := by
  have hzero : v.line ⟨i, hi⟩ ≠ 0 := by rw [hblank]; decide
  have hne : blank ≠ 0 := by decide
  simp [scanAccesses, passAccesses, scanPass, hi, hpasses, hblank, hne, storeBack]

/-- The newline. -/
theorem scanAccesses_stamp (n : ℕ) (v : LineVars) {i : ℕ} (hi : i < 512) (hpasses : v.passes ≠ 0)
    (hnewline : v.line ⟨i, hi⟩ = newline) :
    scanAccesses inetPton (n + 1) (i, v) =
      [.read i, .cut i, .stamp (i - 1), .stamp (i - 2), .stamp (i - 3)] ++
        stringReads (stampLine v.line i) v.ptr2 := by
  have hne : newline ≠ 0 := by decide
  simp [scanAccesses, passAccesses, scanPass, hi, hpasses, hnewline, hne]

end

/-- The accesses behind the blank, for a second text that starts at `i`. -/
def blockAccesses (i : ℕ) (rest : List UInt8) : List Access :=
  match cutAt newline rest with
  | none => readsFrom i (rest.length + 1)
  | some (blockText, _) =>
    let ptr : ℤ := ↑(i + blockText.length)
    readsFrom i blockText.length ++
      ([.read ptr, .cut ptr, .stamp (ptr - 1), .stamp (ptr - 2), .stamp (ptr - 3)] ++
        readsFrom i (blockText.length + 1))

/-- The accesses of the scan of a text. -/
def textAccesses (text : List UInt8) : List Access :=
  match cutAt blank text with
  | none => readsFrom 0 (text.length + 1)
  | some (addrText, rest) =>
    readsFrom 0 addrText.length ++ ([.read addrText.length, .cut addrText.length] ++
      readsFrom 0 (addrText.length + 1) ++ blockAccesses (addrText.length + 1) rest)

section

variable (inetPton : List UInt8 → Option In6Addr)

/-- The scan of the second text. -/
theorem scanAccesses_block (n : ℕ) (v : LineVars) {i : ℕ} {rest : List UInt8}
    (h : TextAt v.line i rest) (hpasses : v.passes ≠ 0) (hptr2 : v.ptr2 = i) :
    scanAccesses inetPton (n + 1 + rest.length) (i, v) = blockAccesses i rest := by
  unfold blockAccesses
  cases hblock : cutAt newline rest with
  | none =>
    exact scanAccesses_text n v h (by rw [if_neg hpasses]; exact cutAt_eq_none hblock)
  | some q =>
    obtain ⟨blockText, more⟩ := q
    obtain ⟨rfl, hnot⟩ := cutAt_eq_some hblock
    have hlen := h.length_lt
    rw [List.length_append, List.length_cons] at hlen
    have hfuel : n + 1 + (blockText ++ newline :: more).length
        = n + more.length + 1 + 1 + blockText.length := by simp; omega
    rw [hfuel, scanAccesses_front _ v h (by rwa [if_neg hpasses]),
      scanAccesses_stamp _ v (by omega) hpasses (h.mid (by omega)), stringReads, hptr2,
      cString_stampLine h, length_rewritten]

/-- **The scan of any line.**  Whatever was in the array before, and whatever is indeterminate. -/
theorem lineAccesses_eq (ind : Indeterminate) (stale : Buf 512) {line : List UInt8}
    (h : line.length ≤ 511) :
    lineAccesses inetPton ind stale line = textAccesses (lineText line) := by
  have htext := textAt_fgets stale h
  unfold lineAccesses textAccesses
  generalize stale.copy 0 (line ++ [0]) = buf at htext
  generalize lineText line = text at htext
  cases haddr : cutAt blank text with
  | none =>
    have hlen := htext.length_lt
    obtain ⟨n, hn⟩ : ∃ n, 513 = n + 1 + text.length := ⟨512 - text.length, by omega⟩
    rw [hn]
    exact scanAccesses_text n (.start ind buf) htext (cutAt_eq_none haddr)
  | some p =>
    obtain ⟨addrText, rest⟩ := p
    obtain ⟨rfl, hnot⟩ := cutAt_eq_some haddr
    have hlen := htext.length_lt
    rw [List.length_append, List.length_cons] at hlen
    obtain ⟨n, hn⟩ : ∃ n, 513 = n + 1 + rest.length + 1 + addrText.length :=
      ⟨511 - (addrText.length + rest.length), by omega⟩
    have hblank := htext.mid (by omega)
    have hcut := htext.front.cString
    have hrest := htext.rest
    simp only [Nat.zero_add] at hblank hcut hrest
    rw [hn, scanAccesses_front _ (.start ind buf) htext hnot]
    simp only [Nat.zero_add]
    rw [scanAccesses_blank _ (.start ind buf) (by omega) rfl hblank,
      stringReads]
    simp only [LineVars.start, hcut]
    -- the second text is in the array as the blank has left it
    exact (List.append_right_inj _).mpr ((List.append_right_inj _).mpr
      (scanAccesses_block inetPton n _ hrest (Nat.succ_ne_zero 0) rfl))

end

/-! ### Where the accesses are -/

theorem mem_readsFrom {i k : ℕ} {a : Access} :
    a ∈ readsFrom i k ↔ ∃ p, i ≤ p ∧ p < i + k ∧ a = .read p := by
  simp only [readsFrom, List.mem_map, List.mem_range'_1]
  constructor
  · rintro ⟨p, ⟨hle, hlt⟩, rfl⟩
    exact ⟨p, hle, hlt, rfl⟩
  · rintro ⟨p, hle, hlt, rfl⟩
    exact ⟨p, ⟨hle, hlt⟩, rfl⟩

/-- The scan stays inside the line: every access is inside `line[0..511]`, and the digits are stored
    in the second text. -/
structure InLine (line : List UInt8) (accesses : List Access) : Prop where
  inside : ∀ a ∈ accesses, 0 ≤ a.index ∧ a.index < 512
  second : ∀ i : ℤ, .stamp i ∈ accesses → ∃ addrText blockText,
    tokens line = some (addrText, blockText) ∧ addrText.length + 1 ≤ i ∧
      i < addrText.length + 1 + blockText.length

/-- The second text, if there is one, has three characters. -/
def RoomForDigits (line : List UInt8) : Prop :=
  ∀ addrText blockText, tokens line = some (addrText, blockText) → 3 ≤ blockText.length

/-- The stores of digits. -/
theorem stamp_mem_iff {line : List UInt8} {j : ℤ} : .stamp j ∈ textAccesses (lineText line) ↔
    ∃ addrText blockText, tokens line = some (addrText, blockText) ∧
      (addrText.length + 1 + blockText.length - 3 : ℤ) ≤ j ∧
      j < addrText.length + 1 + blockText.length := by
  unfold textAccesses tokens
  cases cutAt blank (lineText line) with
  | none => simp [mem_readsFrom]
  | some p =>
    obtain ⟨addrText, rest⟩ := p
    simp only [blockAccesses, Option.bind_some]
    cases cutAt newline rest with
    | none => simp [mem_readsFrom]
    | some q =>
      obtain ⟨blockText, more⟩ := q
      simp only [List.mem_append, mem_readsFrom, List.mem_cons, List.not_mem_nil,
        Access.stamp.injEq, reduceCtorEq, and_false, exists_false, false_or, or_false,
        Option.map_some, Option.some.injEq, Prod.mk.injEq]
      constructor
      · intro hj
        refine ⟨addrText, blockText, ⟨rfl, rfl⟩, ?_⟩
        omega
      · rintro ⟨_, _, ⟨rfl, rfl⟩, hle, hlt⟩
        omega

/-- All other accesses are in the text, or its `'\0'`. -/
theorem index_of_mem {text : List UInt8} {a : Access} (h : a ∈ textAccesses text)
    (hstamp : ∀ j, a ≠ .stamp j) : 0 ≤ a.index ∧ a.index ≤ text.length := by
  have hreads : ∀ {i k : ℕ}, a ∈ readsFrom i k → i + k ≤ text.length + 1 →
      0 ≤ a.index ∧ a.index ≤ text.length := by
    intro i k hmem hle
    obtain ⟨p, -, hlt, rfl⟩ := mem_readsFrom.mp hmem
    simp only [Access.index]
    omega
  unfold textAccesses at h
  cases haddr : cutAt blank text with
  | none =>
    rw [haddr] at h
    exact hreads h (by omega)
  | some p =>
    obtain ⟨addrText, rest⟩ := p
    rw [haddr] at h
    obtain ⟨hsplit, -⟩ := cutAt_eq_some haddr
    have hlen := congrArg List.length hsplit
    rw [List.length_append, List.length_cons] at hlen
    simp only [List.mem_append, List.mem_cons, List.not_mem_nil, or_false] at h
    rcases h with h | ((rfl | rfl) | h) | h
    · exact hreads h (by omega)
    · simp only [Access.index]
      omega
    · simp only [Access.index]
      omega
    · exact hreads h (by omega)
    · unfold blockAccesses at h
      cases hblock : cutAt newline rest with
      | none =>
        rw [hblock] at h
        exact hreads h (by omega)
      | some q =>
        obtain ⟨blockText, more⟩ := q
        rw [hblock] at h
        obtain ⟨hsplit', -⟩ := cutAt_eq_some hblock
        have hlen' := congrArg List.length hsplit'
        rw [List.length_append, List.length_cons] at hlen'
        simp only [List.mem_append, List.mem_cons, List.not_mem_nil, or_false] at h
        rcases h with h | (rfl | rfl | rfl | rfl | rfl) | h
        · exact hreads h (by omega)
        · simp only [Access.index]
          omega
        · simp only [Access.index]
          omega
        · exact absurd rfl (hstamp _)
        · exact absurd rfl (hstamp _)
        · exact absurd rfl (hstamp _)
        · exact hreads h (by omega)

theorem length_tokens {line addrText blockText : List UInt8}
    (h : tokens line = some (addrText, blockText)) :
    addrText.length + 1 + blockText.length < (lineText line).length := by
  obtain ⟨p, haddr, hrest⟩ := Option.bind_eq_some_iff.mp h
  obtain ⟨q, hblock, heq⟩ := Option.map_eq_some_iff.mp hrest
  obtain ⟨rfl, rfl⟩ := Prod.mk.inj heq
  have hlen := congrArg List.length (cutAt_eq_some haddr).1
  have hlen' := congrArg List.length (cutAt_eq_some hblock).1
  rw [List.length_append, List.length_cons] at hlen hlen'
  omega

/-- **One line.** -/
theorem inLine_iff (inetPton : List UInt8 → Option In6Addr) (ind : Indeterminate)
    (stale : Buf 512) {line : List UInt8} (h : line.length ≤ 511) :
    InLine line (lineAccesses inetPton ind stale line) ↔ RoomForDigits line := by
  rw [lineAccesses_eq inetPton ind stale h]
  have htext : (lineText line).length ≤ line.length := (List.takeWhile_prefix _).length_le
  constructor
  · intro hin addrText blockText htokens
    -- the first of the three digits
    obtain ⟨addrText', blockText', htokens', hle, -⟩ := hin.second
      (addrText.length + 1 + blockText.length - 3)
      (stamp_mem_iff.mpr ⟨addrText, blockText, htokens, le_rfl, by omega⟩)
    obtain ⟨rfl, rfl⟩ := Prod.mk.inj (Option.some.inj (htokens.symm.trans htokens'))
    omega
  · intro hroom
    have hsecond : ∀ j : ℤ, .stamp j ∈ textAccesses (lineText line) → ∃ addrText blockText,
        tokens line = some (addrText, blockText) ∧ addrText.length + 1 ≤ j ∧
          j < addrText.length + 1 + blockText.length := by
      intro j hj
      obtain ⟨addrText, blockText, htokens, hle, hlt⟩ := stamp_mem_iff.mp hj
      have hthree := hroom addrText blockText htokens
      exact ⟨addrText, blockText, htokens, by omega, hlt⟩
    refine ⟨fun a ha => ?_, hsecond⟩
    by_cases hstamp : ∃ j, a = .stamp j
    · obtain ⟨j, rfl⟩ := hstamp
      obtain ⟨addrText, blockText, htokens, hle, hlt⟩ := hsecond j ha
      have hlen := length_tokens htokens
      simp only [Access.index]
      omega
    · obtain ⟨hnonneg, hle⟩ := index_of_mem ha fun j hj => hstamp ⟨j, hj⟩
      omega

/-- **The line scanner stays inside the line.**  For every file, whatever is in the array before a
    line is read and whatever is indeterminate: every character that is read or overwritten during
    the scan of a line that `fgets` returns lies inside `line[0..511]`, and the three digits are
    stored in the second text, exactly if in every line with a newline behind its first blank there
    are three characters between the two. -/
theorem scan_bounds (inetPton : List UInt8 → Option In6Addr) (env : ℕ → PassEnv)
    (contents : List UInt8) :
    (∀ k line, (fgetsLines [] contents)[k]? = some line →
        InLine line (lineAccesses inetPton (env k).ind (env k).stale line)) ↔
      ∀ line ∈ fgetsLines [] contents, RoomForDigits line := by
  have hlen : ∀ line ∈ fgetsLines [] contents, line.length ≤ 511 := fun line hline =>
    ((fgetsLines_spec List.not_mem_nil (Nat.zero_le _) contents).1 line hline).length_le
  constructor
  · intro h line hline
    obtain ⟨k, hk⟩ := List.mem_iff_getElem?.mp hline
    exact (inLine_iff inetPton _ _ (hlen line hline)).mp (h k line hk)
  · intro h k line hk
    have hline := List.mem_of_getElem? hk
    exact (inLine_iff inetPton _ _ (hlen line hline)).mpr (h line hline)

/-- A file of one line, `" \n"`: the digits are stored at the blank and in front of the array. -/
theorem scan_bounds_blank_line :
    fgetsLines [] [blank, newline] = [[blank, newline]] ∧
      .stamp (-2) ∈ lineAccesses inetPton6 zeroEnv.ind zeroEnv.stale [blank, newline] ∧
      .stamp (-1) ∈ lineAccesses inetPton6 zeroEnv.ind zeroEnv.stale [blank, newline] ∧
      .stamp 0 ∈ lineAccesses inetPton6 zeroEnv.ind zeroEnv.stale [blank, newline] ∧
      ¬ InLine [blank, newline] (lineAccesses inetPton6 zeroEnv.ind zeroEnv.stale [blank, newline]) := by
  have hlen : [blank, newline].length ≤ 511 := by simp
  rw [lineAccesses_eq inetPton6 zeroEnv.ind zeroEnv.stale hlen]
  have hfirst : .stamp (-2) ∈ textAccesses (lineText [blank, newline]) := by decide
  refine ⟨by decide, hfirst, by decide, by decide, fun h => ?_⟩
  exact absurd (h.inside _ hfirst).1 (by decide)

end Gap.Tunnel
