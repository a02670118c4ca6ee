import Gap.Tunnel.AssignmentsFile
import Gap.Tunnel.Routing
import Mathlib.Data.List.Pairwise

namespace Gap.Tunnel

/-!
# The lengths of delegated prefixes

A line `LL B/P` delegates the block `B/P` to the client with the address `LL`, and the struct has
a field for its length.  The parser does not look at `P`; it stores 62, and the lookups compare
62 bits.

* `Lies` — a destination lies in a block that the file assigns to an address.
* `heldBlock`, `Holds` — the block an entry holds after the load, compared on 62 bits.
* `matchesPd_load` — the entries a lookup after the load can stop at.
* `Honoured`, `PlenFits` — packets go where the file says, and the lengths for which they do.
* `delegated_lengths` — the two are equivalent, for every file and every destination.
-/

/-! ### The first match -/

/-- A loop over a table stops where at most one entry should be found exactly if this entry matches,
    and no entry matches wrongly in front of it, or without it. -/
theorem find?_iff_of_sole {n : ℕ} {p : Fin n → Bool} {q : Fin n → Prop}
    (hsole : ∀ j k, q j → q k → j = k) :
    (∀ j, Fin.find? p = some j ↔ q j) ↔
      (∀ j, q j → p j = true) ∧ ∀ j, p j = true → ¬ q j → ∃ k < j, q k := by
  constructor
  · intro h
    refine ⟨fun j hj => Fin.eq_true_of_find?_eq_some ((h j).mpr hj), fun j hj hnot => ?_⟩
    -- some entry is found, not behind `j`, and it is the right one
    cases hfind : Fin.find? p with
    | none => rw [Fin.find?_eq_none_iff.mp hfind j] at hj; cases hj
    | some k =>
      have hk := (h k).mp hfind
      have hne : k ≠ j := fun he => hnot (he ▸ hk)
      have hle : k ≤ j := by
        by_contra hlt
        rw [(Fin.find?_eq_some_iff.mp hfind).2 j (not_le.mp hlt)] at hj
        cases hj
      exact ⟨k, lt_of_le_of_ne hle hne, hk⟩
  · rintro ⟨hmatch, hfront⟩
    -- what is found is right, since nothing right is in front of it
    have hright : ∀ k, Fin.find? p = some k → q k := by
      intro k hk
      obtain ⟨hpk, hbefore⟩ := Fin.find?_eq_some_iff.mp hk
      by_contra hnot
      obtain ⟨i, hi, hqi⟩ := hfront k hpk hnot
      have hmi := hmatch i hqi
      rw [hbefore i hi] at hmi
      cases hmi
    refine fun j => ⟨hright j, fun hj => ?_⟩
    cases hfind : Fin.find? p with
    | none =>
      have hpj := hmatch j hj
      rw [Fin.find?_eq_none_iff.mp hfind j] at hpj
      cases hpj
    | some k => rw [hsole k j (hright k hfind) hj]

section

variable {inetPton : List UInt8 → Option In6Addr}

/-! ### What a load gives -/

/-- The destination lies in a block that the file assigns to the address: the first `P` bits are
    those of `B`. -/
def Lies (lines : List (Line inetPton)) (addr dst : In6Addr) : Prop :=
  ∃ l ∈ lines, l.addr = addr ∧ Buf.SameBits l.plen l.block dst

instance (lines : List (Line inetPton)) (addr dst : In6Addr) : Decidable (Lies lines addr dst) :=
  inferInstanceAs (Decidable (∃ l ∈ lines, l.addr = addr ∧ Buf.SameBits l.plen l.block dst))

/-- The block an entry holds after the load: that of the last line that names its address, or the
    one it had before. -/
def heldBlock (lines : List (Line inetPton)) (p : SocketPrefix) : Option In6Addr :=
  match lastBlock p.addrLl (lines.map fun l => (l.addr, l.block)) with
  | some block => some block
  | none => if p.plenPd = 0 then none else some p.addrPd

/-- The destination has the first 62 bits of this block. -/
def Holds (lines : List (Line inetPton)) (p : SocketPrefix) (dst : In6Addr) : Prop :=
  match heldBlock lines p with
  | some block => Buf.SameBits 62 block dst
  | none => False

instance (lines : List (Line inetPton)) (p : SocketPrefix) (dst : In6Addr) :
    Decidable (Holds lines p dst) :=
  match h : heldBlock lines p with
  | some block => decidable_of_iff (Buf.SameBits 62 block dst) (by rw [Holds, h])
  | none => isFalse (by rw [Holds, h]; exact id)

theorem holds_iff (lines : List (Line inetPton)) (p : SocketPrefix) (dst : In6Addr) :
    Holds lines p dst ↔
      (match lastBlock p.addrLl (lines.map fun l => (l.addr, l.block)) with
        | some block => covers block dst
        | none => p.matchesPd dst) = true := by
  unfold Holds heldBlock
  cases lastBlock p.addrLl (lines.map fun l => (l.addr, l.block)) with
  | some block => exact (covers_iff block dst).symm
  | none =>
    rw [SocketPrefix.matchesPd_eq]
    by_cases hpd : p.plenPd = 0
    · simp [hpd]
    · simp [hpd, covers_iff]

/-- The table before a load: a block only for a client with an address, and no two clients with
    the same one. -/
structure Distinct (t : Prefixes) : Prop where
  pd : ∀ j, (t j).plenPd ≠ 0 → (t j).plenLl ≠ 0
  addrLl : ∀ j k, (t j).plenLl ≠ 0 → (t k).plenLl ≠ 0 → (t j).addrLl = (t k).addrLl → j = k

theorem Distinct.reloaded {t t' : Prefixes} (h : Distinct t) (hr : Reloaded t t') : Distinct t' where
  pd j hj := by
    rw [hr.plenLl]
    exact (hr.plenPd j hj).elim (h.pd j) id
  addrLl j k hj hk ha := by
    rw [hr.plenLl] at hj hk
    rw [hr.addrLl, hr.addrLl] at ha
    exact h.addrLl j k hj hk ha

theorem Distinct.first {t : Prefixes} (h : Distinct t) {j : Fin 512} (hj : (t j).plenLl ≠ 0) :
    First t j := ⟨hj, fun k hk hllk ha => hk.ne (h.addrLl k j hllk hj ha)⟩

variable (hpton : InetPton inetPton) {t : Prefixes} (ht : Distinct t)
include hpton ht

/-- **After a load**, a lookup can stop at the clients whose block agrees on 62 bits. -/
theorem matchesPd_load {lines : List (Line inetPton)} {ind : ℕ → Indeterminate} {t' : Prefixes}
    (hload : parsePrefixes inetPton ind (fileOf lines) t = some t') (dst : In6Addr) (j : Fin 512) :
    (t' j).matchesPd dst = true ↔ (t j).plenLl ≠ 0 ∧ Holds lines (t j) dst := by
  have hr := parsePrefixes_reloaded hload
  by_cases hj : (t j).plenLl = 0
  · -- an entry without an address has no block, before and after
    refine iff_of_false (fun hmatch => ?_) (fun h => h.1 hj)
    rw [SocketPrefix.matchesPd_eq, Bool.and_eq_true, bne_iff_ne] at hmatch
    exact (hr.plenPd j hmatch.1).elim (fun hpd => ht.pd j hpd hj) fun hll => hll hj
  · rw [parsePrefixes_fileOf hpton, Option.some.injEq] at hload
    rw [← hload, matchesPd_foldl_first (ht.first hj), holds_iff]
    exact (and_iff_right hj).symm

/-- Loading the same file again makes no difference for a lookup. -/
theorem matchesPd_load_load {lines : List (Line inetPton)} {ind ind' : ℕ → Indeterminate}
    {t' t'' : Prefixes} (hload : parsePrefixes inetPton ind (fileOf lines) t = some t')
    (hload' : parsePrefixes inetPton ind' (fileOf lines) t' = some t'') (dst : In6Addr)
    (j : Fin 512) : (t'' j).matchesPd dst = true ↔ (t' j).matchesPd dst = true := by
  have hr := parsePrefixes_reloaded hload
  have hmatch := matchesPd_load hpton ht hload dst j
  rw [holds_iff] at hmatch
  rw [matchesPd_load hpton (ht.reloaded hr) hload', hr.plenLl, holds_iff, hr.addrLl]
  cases hlast : lastBlock (t j).addrLl (lines.map fun l => (l.addr, l.block)) with
  | some block =>
    rw [hlast] at hmatch
    exact hmatch.symm
  | none =>
    -- an entry that no line names keeps its block
    exact and_iff_right_of_imp fun hagain => (hmatch.mp hagain).1

end

/-! ### Where packets go -/

section

variable {inetPton : List UInt8 → Option In6Addr}

/-- A packet goes to the client in whose block its destination lies, and to no one if there is
    none; and nothing else is written. -/
structure Honoured (lines : List (Line inetPton)) (t : Prefixes) (dst : In6Addr)
    (bytes : List UInt8) (e : List ServerObs) : Prop where
  sent : ∀ j : Fin 512, (∃ src file out, .wrote src j.val file out ∈ e) ↔
    (t j).plenLl ≠ 0 ∧ Lies lines (t j).addrLl dst
  whole : ∀ src fd file out, .wrote src fd file out ∈ e → out = bytes

/-- Comparing 62 bits does for comparing `P`: a client in whose block the destination lies holds a
    block with its first 62 bits; and a client that holds such a block, without the destination
    lying in its own, comes behind one in whose block it lies. -/
def PlenFits (lines : List (Line inetPton)) (t : Prefixes) (dst : In6Addr) : Prop :=
  (∀ j, (t j).plenLl ≠ 0 ∧ Lies lines (t j).addrLl dst → Holds lines (t j) dst) ∧
  ∀ j, (t j).plenLl ≠ 0 ∧ Holds lines (t j) dst →
    ¬ ((t j).plenLl ≠ 0 ∧ Lies lines (t j).addrLl dst) →
    ∃ k < j, (t k).plenLl ≠ 0 ∧ Lies lines (t k).addrLl dst

instance (lines : List (Line inetPton)) (t : Prefixes) (dst : In6Addr) :
    Decidable (PlenFits lines t dst) :=
  inferInstanceAs (Decidable (_ ∧ _))

/-- No destination lies in two blocks. -/
def DisjointBlocks (lines : List (Line inetPton)) : Prop :=
  lines.Pairwise fun l l' =>
    ¬ ∃ x : In6Addr, Buf.SameBits l.plen l.block x ∧ Buf.SameBits l'.plen l'.block x

/-- So it lies in the block of one client at most. -/
theorem sole_of_disjointBlocks {lines : List (Line inetPton)} (hdisj : DisjointBlocks lines)
    {t : Prefixes} (ht : Distinct t) {dst : In6Addr} {j k : Fin 512}
    (hj : (t j).plenLl ≠ 0 ∧ Lies lines (t j).addrLl dst)
    (hk : (t k).plenLl ≠ 0 ∧ Lies lines (t k).addrLl dst) : j = k := by
  obtain ⟨hllj, l, hl, haddr, hlies⟩ := hj
  obtain ⟨hllk, l', hl', haddr', hlies'⟩ := hk
  have hline : l = l' := by
    by_contra hne
    have : Std.Symm fun l l' : Line inetPton =>
        ¬ ∃ x : In6Addr, Buf.SameBits l.plen l.block x ∧ Buf.SameBits l'.plen l'.block x :=
      ⟨fun _ _ h ⟨x, hx, hx'⟩ => h ⟨x, hx', hx⟩⟩
    exact hdisj.forall hl hl' hne ⟨dst, hlies, hlies'⟩
  exact ht.addrLl j k hllj hllk (by rw [← haddr, ← haddr', hline])

end

variable {cfg : Config}

/-- A packet is written to the entry found. -/
theorem wrote_iff_forward (s : Server) (fd : ℕ) (file : Option File) (bytes : List UInt8)
    (target : Option (Fin 512)) (j : Fin 512) :
    (∃ src f out, .wrote src j.val f out ∈ .received fd file bytes :: s.forward cfg bytes target) ↔
      target = some j := by
  cases target with
  | none => simp [Server.forward]
  | some k =>
    simp only [Server.forward, List.mem_cons, List.not_mem_nil, or_false, reduceCtorEq, false_or,
      ServerObs.wrote.injEq, Option.some.injEq]
    constructor
    · rintro ⟨_, _, _, -, hj, -⟩
      exact (Fin.ext hj).symm
    · rintro rfl
      exact ⟨_, _, _, rfl, rfl, rfl, rfl⟩

/-- It is written with all its bytes. -/
theorem whole_of_fromTun {s s' : Server} {bytes : List UInt8} {env : ReadEnv} {e : List ServerObs}
    (hle : bytes.length ≤ 4096) (hrun : s.fromTun cfg bytes env = some (s', e)) {src : Option File}
    {fd : ℕ} {file : Option File} {out : List UInt8} (hw : .wrote src fd file out ∈ e) :
    out = bytes := by
  obtain ⟨target, ho, -⟩ := (forwarded_of_fromTun hle hrun).obs
  rw [ho] at hw
  cases target with
  | none => simp [Server.forward] at hw
  | some k =>
    simp only [Server.forward, List.mem_cons, List.not_mem_nil, or_false, reduceCtorEq, false_or,
      ServerObs.wrote.injEq] at hw
    exact hw.2.2.2

/-- A load of a well-formed file stays inside the line. -/
theorem reload_fileOf (hpton : InetPton cfg.inetPton) {lines : List (Line cfg.inetPton)}
    {s : Server} {a : Assignments} (ha : a.contents = fileOf lines) :
    ∃ t, parsePrefixes cfg.inetPton a.ind (fileOf lines) s.prefixes = some t ∧
      (s.reload cfg a).prefixes = t ∧ (s.reload cfg a).pc = s.pc := by
  have hload := parsePrefixes_fileOf hpton lines a.ind s.prefixes
  refine ⟨_, hload, ?_⟩
  rw [← ha] at hload
  rw [reload_of_some hload]
  exact ⟨rfl, rfl⟩

/-- **The packet after a load** goes to the first client whose block agrees on 62 bits. -/
theorem forward_after_load (hpton : InetPton cfg.inetPton) {lines : List (Line cfg.inetPton)}
    {s s' : Server} {a : Assignments} {rest : List EpollEvent} {bytes : List UInt8} {env : ReadEnv}
    {e : List ServerObs} (ht : Distinct s.prefixes) (ha : a.contents = fileOf lines)
    (hfile : ∀ a', env.assignments = some a' → a'.contents = fileOf lines)
    (hpc : (s.reload cfg a).pc = .reading cfg.tunFile rest) (hle : bytes.length ≤ 4096)
    (hrun : (s.reload cfg a).fromTun cfg bytes env = some (s', e))
    (hv : version (env.stale.copy 0 bytes) = 6)
    (h52 : cfg.inSlash52 (daddr (env.stale.copy 0 bytes)) = true) (j : Fin 512) :
    (∃ src file out, .wrote src j.val file out ∈ e) ↔
      findPd (s.reload cfg a).prefixes (daddr (env.stale.copy 0 bytes)) = some j := by
  obtain ⟨t, hload, hprefixes, -⟩ := reload_fileOf hpton (s := s) ha
  have hlookup := lookup52_of_fromTun hpc hle hrun hv h52
  generalize daddr (env.stale.copy 0 bytes) = dst at hlookup ⊢
  cases hlookup with
  | hit k hfind hs ho => rw [ho, wrote_iff_forward, hfind]
  | unreadable hfind ha' hs ho =>
    rw [ho, hfind]
    simp
  | overrun a' hfind ha' hnone hs ho =>
    -- the file has no short line
    rw [hfile a' ha', parsePrefixes_fileOf hpton] at hnone
    cases hnone
  | loaded a' hfind ha' hagain hs ho =>
    rw [hfile a' ha', hprefixes] at hagain
    rw [hprefixes] at hfind ⊢
    -- the second load finds what the first one has found
    have hmiss : findPd s'.prefixes dst = none := by
      rw [findPd, Fin.find?_eq_none_iff] at hfind ⊢
      intro k
      rw [Bool.eq_false_iff]
      intro hmatch
      have hold := hfind k
      rw [(matchesPd_load_load hpton ht hload hagain dst k).mp hmatch] at hold
      cases hold
    rw [ho, wrote_iff_forward, hmiss, hfind]

/-- **Delegated prefix lengths.**  Of every reachable state whose clients have distinct addresses,
    after loading a file of disjoint blocks: a packet from TUN into the /52 goes to the client in
    whose block it lies, and to no one if there is none, exactly if comparing 62 bits does for
    comparing the lengths of the file. -/
theorem delegated_lengths (hpton : InetPton cfg.inetPton) (is : List ServerInput) (s : Server)
    (o : List ServerObs) (hrun : (server cfg).run is = some (s, o))
    (lines : List (Line cfg.inetPton)) (hdisj : DisjointBlocks lines)
    (hdistinct : ∀ j k, (s.prefixes j).plenLl ≠ 0 → (s.prefixes k).plenLl ≠ 0 →
      (s.prefixes j).addrLl = (s.prefixes k).addrLl → j = k)
    (a : Assignments) (ha : a.contents = fileOf lines) (rest : List EpollEvent)
    (bytes : List UInt8) (env : ReadEnv) (s' : Server) (e : List ServerObs)
    (hpc : s.pc = .reading cfg.tunFile rest)
    (hfile : ∀ a', env.assignments = some a' → a'.contents = fileOf lines)
    (hstep : (s.reload cfg a).step cfg (.read (.data bytes) env) = some (s', e))
    (hversion : version (env.stale.copy 0 bytes) = 6)
    (h52 : cfg.inSlash52 (daddr (env.stale.copy 0 bytes)) = true) :
    Honoured lines s.prefixes (daddr (env.stale.copy 0 bytes)) bytes e ↔
      PlenFits lines s.prefixes (daddr (env.stale.copy 0 bytes)) := by
  have ht : Distinct s.prefixes := ⟨(tableOk_of_run is s o hrun).2.pd, hdistinct⟩
  obtain ⟨t, hload, hprefixes, hpc'⟩ := reload_fileOf hpton (s := s) ha
  rw [hpc] at hpc'
  obtain ⟨hle, hfrom⟩ := fromTun_of_step hstep hpc'
  have hwrote := forward_after_load hpton ht ha hfile hpc' hle hfrom hversion h52
  have hwhole : ∀ src fd file out, ServerObs.wrote src fd file out ∈ e → out = bytes :=
    fun _ _ _ _ hw => whole_of_fromTun hle hfrom hw
  rw [hprefixes] at hwrote
  generalize daddr (env.stale.copy 0 bytes) = dst at hwrote ⊢
  have hmatch : ∀ j, (t j).matchesPd dst = true ↔
      (s.prefixes j).plenLl ≠ 0 ∧ Holds lines (s.prefixes j) dst :=
    fun j => matchesPd_load hpton ht hload dst j
  have hfirst := find?_iff_of_sole (p := fun j => (t j).matchesPd dst)
    (q := fun j => (s.prefixes j).plenLl ≠ 0 ∧ Lies lines (s.prefixes j).addrLl dst)
    fun j k hj hk => sole_of_disjointBlocks hdisj ht hj hk
  -- where the packet goes, since its bytes are always its own
  have hsent : Honoured lines s.prefixes dst bytes e ↔ ∀ j : Fin 512, findPd t dst = some j ↔
      (s.prefixes j).plenLl ≠ 0 ∧ Lies lines (s.prefixes j).addrLl dst := by
    constructor
    · intro h j
      rw [← hwrote]
      exact h.sent j
    · intro h
      refine ⟨fun j => ?_, hwhole⟩
      rw [hwrote]
      exact h j
  rw [hsent, findPd, hfirst]
  unfold PlenFits
  simp only [hmatch]
  exact and_congr_left' (forall₂_congr fun j hj => and_iff_right hj.1)

/-! ### One line -/

/-- The bytes of a text. -/
def textOf (s : List Char) : List UInt8 := s.map fun c => UInt8.ofNat c.toNat

/-- "fe80::1" -/
def sampleAddrText : List UInt8 := textOf ['f', 'e', '8', '0', ':', ':', '1']

/-- "2001:db8:0:10::" -/
def sampleBlockText : List UInt8 :=
  textOf ['2', '0', '0', '1', ':', 'd', 'b', '8', ':', '0', ':', '1', '0', ':', ':']

/-- `inet_pton` on these texts, and on the block with zeros behind it. -/
def samplePton (text : List UInt8) : Option In6Addr :=
  if text = sampleAddrText then some (linkLocal 1)
  else if text = sampleBlockText ∨
      text = sampleBlockText ++ [digitZero, digitZero, digitZero] then
    some (addrOf [0x20, 0x01, 0x0d, 0xb8, 0, 0, 0, 0x10])
  else none

theorem inetPton_sample : InetPton samplePton where
  chars text addr h := by
    refine List.all_eq_true.mp ?_
    unfold samplePton at h
    split_ifs at h with haddr hblock
    · subst haddr
      decide
    · rcases hblock with rfl | rfl
      · decide
      · decide
  zeros text addr h hends _ := by
    unfold samplePton at h
    split_ifs at h with haddr hblock
    · subst haddr
      exact absurd hends (by decide)
    · rcases hblock with rfl | rfl
      · rw [← h]
        decide
      · exact absurd hends (by decide)

/-- A server with this `inet_pton`. -/
def Config.delegating : Config := { Config.sample with inetPton := samplePton }

/-- The line "fe80::1 2001:db8:0:10::/P". -/
def sampleLine (plen : ℕ) (h : plen < 100) : Line Config.delegating.inetPton where
  addrText := sampleAddrText
  blockText := sampleBlockText
  addr := linkLocal 1
  block := addrOf [0x20, 0x01, 0x0d, 0xb8, 0, 0, 0, 0x10]
  plen
  addr_eq := by decide
  block_eq := by decide
  ends := by decide
  groups := by decide
  plen_lt := h
  length_le := by decide

/-- The file with this line, opened on `fd`. -/
def sampleFile (fd plen : ℕ) (h : plen < 100) : Assignments :=
  ⟨fd, fileOf [sampleLine plen h], fun _ => ⟨fun _ => 0, fun _ => 0⟩⟩

/-- A client known as `fe80::1` on 7, and a packet from TUN to be read. -/
def atPacket : List ServerInput := oneClient ++ [.epollWait [readable 3]]

/-- A packet for the subnet `2001:db8:0:n::/64`. -/
def packetTo (n : UInt8) : List UInt8 :=
  packetOf (linkLocal 2) (addrOf [0x20, 0x01, 0x0d, 0xb8, 0, 0, 0, n])

/-- What the read of this packet finds, when the file is the same as before. -/
def sampleEnv (plen : ℕ) (h : plen < 100) : ReadEnv := ⟨fun _ => 0, some (sampleFile 8 plen h)⟩

/-- `delegated_lengths` for a /62, and a destination in its second subnet. -/
theorem delegated_lengths_62 :
    ∃ s o s' e, (server Config.delegating).run atPacket = some (s, o) ∧
      (s.reload Config.delegating (sampleFile 6 62 (by decide))).step Config.delegating
        (.read (.data (packetTo 0x11)) (sampleEnv 62 (by decide))) = some (s', e) ∧
      Honoured [sampleLine 62 (by decide)] s.prefixes
        (daddr (Buf.copy (fun _ => 0) 0 (packetTo 0x11))) (packetTo 0x11) e := by
  obtain ⟨s, o, hrun, hpc, hlive, hfits, hstep⟩ :
      ∃ s o, (server Config.delegating).run atPacket = some (s, o) ∧ s.pc = .reading 3 [] ∧
        (∀ j, (s.prefixes j).plenLl ≠ 0 → j = 7) ∧
        PlenFits [sampleLine 62 (by decide)] s.prefixes
          (daddr (Buf.copy (fun _ => 0) 0 (packetTo 0x11))) ∧
        ((s.reload Config.delegating (sampleFile 6 62 (by decide))).step Config.delegating
          (.read (.data (packetTo 0x11)) (sampleEnv 62 (by decide)))).isSome = true :=
    (server Config.delegating).exists_run (by decide +kernel)
  obtain ⟨⟨s', e⟩, hstep⟩ := Option.isSome_iff_exists.mp hstep
  refine ⟨s, o, s', e, hrun, hstep, ?_⟩
  refine (delegated_lengths inetPton_sample _ s o hrun [sampleLine 62 (by decide)]
    (List.pairwise_singleton _ _) (fun j k hj hk _ => (hlive j hj).trans (hlive k hk).symm)
    (sampleFile 6 62 (by decide)) rfl [] (packetTo 0x11) (sampleEnv 62 (by decide)) s' e hpc ?_
    hstep (by decide) (by decide)).mpr hfits
  intro a' ha'
  rw [← Option.some.inj ha']
  rfl

/-- The block of the line is a /60: a packet for its last subnet goes to no one. -/
theorem delegated_length_60_ignored :
    ∃ s o s' e, (server Config.delegating).run atPacket = some (s, o) ∧
      (s.reload Config.delegating (sampleFile 6 60 (by decide))).step Config.delegating
        (.read (.data (packetTo 0x1f)) (sampleEnv 60 (by decide))) = some (s', e) ∧
      (s.prefixes 7).plenLl ≠ 0 ∧ (∀ j, (s.prefixes j).plenLl ≠ 0 → j = 7) ∧
      Lies [sampleLine 60 (by decide)] (s.prefixes 7).addrLl
        (daddr (Buf.copy (fun _ => 0) 0 (packetTo 0x1f))) ∧
      e = [.received 3 (some .tun) (packetTo 0x1f)] ∧
      ¬ Honoured [sampleLine 60 (by decide)] s.prefixes
        (daddr (Buf.copy (fun _ => 0) 0 (packetTo 0x1f))) (packetTo 0x1f) e := by
  obtain ⟨s, o, hrun, hll, hlive, hlies, hstep⟩ :
      ∃ s o, (server Config.delegating).run atPacket = some (s, o) ∧ (s.prefixes 7).plenLl ≠ 0 ∧
        (∀ j, (s.prefixes j).plenLl ≠ 0 → j = 7) ∧
        Lies [sampleLine 60 (by decide)] (s.prefixes 7).addrLl
          (daddr (Buf.copy (fun _ => 0) 0 (packetTo 0x1f))) ∧
        ((s.reload Config.delegating (sampleFile 6 60 (by decide))).step Config.delegating
          (.read (.data (packetTo 0x1f)) (sampleEnv 60 (by decide)))).map Prod.snd
            = some [.received 3 (some .tun) (packetTo 0x1f)] :=
    (server Config.delegating).exists_run (by decide +kernel)
  obtain ⟨⟨s', e⟩, hstep, he⟩ := Option.map_eq_some_iff.mp hstep
  subst he
  refine ⟨s, o, s', _, hrun, hstep, hll, hlive, hlies, rfl, fun h => ?_⟩
  obtain ⟨src, file, out, hwrote⟩ := (h.sent 7).mpr ⟨hll, hlies⟩
  simp at hwrote

end Gap.Tunnel
