import Gap.Tunnel.Steps

namespace Gap.Tunnel

/-!
# The forwarding decision in prefix arithmetic

The server compares addresses byte by byte, with a mask on the byte behind.  Here the same tests
are made on 128-bit numbers: a prefix of length `p` is a quotient by `2 ^ (128 - p)`.

* `In6Addr.top`, `In6Addr.low` — the first and the last bits of an address, as numbers.
* `Delegated`, `Known` — what an entry of the table says about a destination.
* `Destination` — the descriptor a packet belongs to, given the table and what a reload leaves.
* `inSlash52_iff`, `inSlash64_iff`, `matchesPd_iff`, `matchesLl_iff` — the tests of the code.
* `Leaves`, `SentTo` — the table a call of `parse_prefixes` leaves, and the writes of a step.
* `forwarding_decision` — the server writes each packet to its destination, once and whole.
-/

variable {cfg : Config}

/-- The top `p` bits. -/
def In6Addr.top (a : In6Addr) (p : ℕ) : ℕ := Buf.num a / 2 ^ (128 - p)

/-- The low `p` bits. -/
def In6Addr.low (a : In6Addr) (p : ℕ) : ℕ := Buf.num a % 2 ^ p

/-! ### What belongs where -/

/-- Entry `j` has a block with the top 62 bits of the destination. -/
def Delegated (t : Prefixes) (dst : In6Addr) (j : Fin 512) : Prop :=
  (t j).plenPd ≠ 0 ∧ dst.top 62 = (t j).addrPd.top 62

/-- Entry `j` has an address with the low 64 bits of the destination. -/
def Known (t : Prefixes) (dst : In6Addr) (j : Fin 512) : Prop :=
  (t j).plenLl ≠ 0 ∧ dst.low 64 = (t j).addrLl.low 64

/-- The lowest entry with a property, if any has it. -/
structure Lowest (p : Fin 512 → Prop) (o : Option (Fin 512)) : Prop where
  found : ∀ j, o = some j → p j ∧ ∀ k < j, ¬ p k
  missing : o = none → ∀ j, ¬ p j

/-- The descriptor a packet for `dst` belongs to, with the table `t` and the table `t'` that
    `parse_prefixes` leaves. -/
def Destination (cfg : Config) (t t' : Prefixes) (dst : In6Addr) (o : Option (Fin 512)) : Prop :=
  if dst.top 52 = cfg.prefixSlash52.top 52 then
    (o ≠ none ∧ Lowest (Delegated t dst) o) ∨
      ((∀ j, ¬ Delegated t dst j) ∧ Lowest (Delegated t' dst) o)
  else if dst.top 64 = cfg.prefixSlash64.top 64 ∨ dst.top 16 = 0xfe80 then
    Lowest (Known t dst) o
  else o = none

/-- The packet is in the /52, and no entry of the table has its block. -/
def Misses (cfg : Config) (t : Prefixes) (dst : In6Addr) : Prop :=
  dst.top 52 = cfg.prefixSlash52.top 52 ∧ ∀ j, ¬ Delegated t dst j

/-! ### The tests of the code -/

/-- Comparing the first `n` bytes. -/
theorem agree_front_iff {a b : In6Addr} {n : ℕ} (hn : n ≤ 16) :
    a.agree b 0 n = true ↔ a.top (8 * n) = b.top (8 * n) := by
  rw [In6Addr.top, In6Addr.top, ← Buf.sameBits_iff_num (by omega), In6Addr.agree,
    decide_eq_true_eq]
  constructor
  · intro h i hi
    obtain ⟨q, r, hr, rfl⟩ : ∃ q r, r < 8 ∧ i = 8 * q + r :=
      ⟨i / 8, i % 8, Nat.mod_lt _ (by decide), (Nat.div_add_mod i 8).symm⟩
    rw [Buf.bit_of_byte a (by omega) hr, Buf.bit_of_byte b (by omega) hr,
      h ⟨q, by omega⟩ (Nat.zero_le _) (by simp only; omega)]
  · intro h i _ hi
    refine byte_ext fun r hr => ?_
    rw [← Buf.bit_of_byte a i.isLt hr, ← Buf.bit_of_byte b i.isLt hr]
    exact h _ (by omega)

/-- Comparing the first `n` bytes, and the next one under a mask of its first `r` bits. -/
theorem agree_mask_iff {a b : In6Addr} {n r : ℕ} {m : UInt8} (hn : n < 16)
    (hm : ∀ k < 8, byteBit m k = decide (k < r)) (hr : r ≤ 8) :
    (a.agree b 0 n = true ∧ a ⟨n, hn⟩ &&& m = b ⟨n, hn⟩ &&& m) ↔
      a.top (8 * n + r) = b.top (8 * n + r) := by
  rw [In6Addr.top, In6Addr.top, ← Buf.sameBits_iff_num (by omega), Buf.sameBits_add_iff hn hr,
    mask_eq_iff hm hr, In6Addr.agree, decide_eq_true_eq]
  exact and_congr_left fun _ =>
    ⟨fun h i hi => h i (Nat.zero_le _) (by omega), fun h i _ hi => h i (by omega)⟩

/-- Comparing the last eight bytes. -/
theorem agree_back_iff {a b : In6Addr} : a.agree b 8 8 = true ↔ a.low 64 = b.low 64 := by
  have hback := Buf.num_mod_eq_iff (a := a) (b := b) (k := 8) (by decide)
  rw [In6Addr.low, In6Addr.low, show 64 = 8 * 8 from rfl, hback, In6Addr.agree, decide_eq_true_eq]
  exact ⟨fun h i hi => h i hi (by omega), fun h i hi _ => h i hi⟩

/-- The test for the /52. -/
theorem inSlash52_iff (cfg : Config) (dst : In6Addr) :
    cfg.inSlash52 dst = true ↔ dst.top 52 = cfg.prefixSlash52.top 52 := by
  have hmask := agree_mask_iff (a := dst) (b := cfg.prefixSlash52) (n := 6) (r := 4) (m := 0xf0)
    (by decide) (by decide) (by decide)
  rw [Config.inSlash52, Bool.and_eq_true, beq_iff_eq]
  exact hmask

/-- The test for link-local addresses. -/
theorem isLinkLocal_iff (dst : In6Addr) : dst.isLinkLocal = true ↔ dst.top 16 = 0xfe80 := by
  have hfront := agree_front_iff (a := dst) (b := linkLocal 0) (n := 2) (by decide)
  have hfe80 : (linkLocal 0).top (8 * 2) = 0xfe80 := by decide +kernel
  rw [show 16 = 8 * 2 from rfl, ← hfe80, ← hfront, In6Addr.isLinkLocal, Bool.and_eq_true,
    beq_iff_eq, beq_iff_eq, In6Addr.agree, decide_eq_true_eq]
  constructor
  · rintro ⟨h0, h1⟩ i - hi
    obtain hi | hi : i = 0 ∨ i = 1 := by omega
    · rw [hi, h0]
      rfl
    · rw [hi, h1]
      rfl
  · intro h
    exact ⟨h 0 (by decide) (by decide), h 1 (by decide) (by decide)⟩

/-- The test for the /64 and link-local destinations. -/
theorem inSlash64_iff (cfg : Config) (dst : In6Addr) :
    cfg.inSlash64 dst = true ↔
      dst.top 64 = cfg.prefixSlash64.top 64 ∨ dst.top 16 = 0xfe80 := by
  have hfront := agree_front_iff (a := dst) (b := cfg.prefixSlash64) (n := 8) (by decide)
  rw [Config.inSlash64, Bool.or_eq_true, isLinkLocal_iff]
  exact or_congr_left hfront

/-- The test for a delegated block. -/
theorem matchesPd_iff (t : Prefixes) (dst : In6Addr) (j : Fin 512) :
    (t j).matchesPd dst = true ↔ Delegated t dst j := by
  have hmask := agree_mask_iff (a := dst) (b := (t j).addrPd) (n := 7) (r := 6) (m := 0xfc)
    (by decide) (by decide) (by decide)
  rw [SocketPrefix.matchesPd, Bool.and_eq_true, Bool.and_eq_true, bne_iff_ne, beq_iff_eq, and_assoc]
  exact and_congr_right fun _ => hmask

/-- The test for a link-local address. -/
theorem matchesLl_iff (t : Prefixes) (dst : In6Addr) (j : Fin 512) :
    (t j).matchesLl dst = true ↔ Known t dst j := by
  rw [SocketPrefix.matchesLl, Bool.and_eq_true, bne_iff_ne, agree_back_iff]
  rfl

/-- A loop that stops at its first match finds the lowest entry. -/
theorem lowest_find? {p : Fin 512 → Bool} {q : Fin 512 → Prop} (h : ∀ j, p j = true ↔ q j) :
    Lowest q (Fin.find? p) where
  found j hj := by
    refine ⟨(h j).mp (Fin.eq_true_of_find?_eq_some hj), fun k hk hq => ?_⟩
    exact Bool.false_ne_true
      ((Fin.eq_false_of_find?_eq_some_of_lt hj k hk).symm.trans ((h k).mpr hq))
  missing hnone j hq :=
    Bool.false_ne_true ((Fin.eq_false_of_find?_eq_none hnone j).symm.trans ((h j).mpr hq))

/-! ### The decision -/

/-- What the search for a delegated block finds. -/
theorem lowest_findPd (t : Prefixes) (dst : In6Addr) : Lowest (Delegated t dst) (findPd t dst) := by
  unfold findPd
  exact lowest_find? (matchesPd_iff t dst)

/-- What the search for a link-local address finds. -/
theorem lowest_findLl (t : Prefixes) (dst : In6Addr) : Lowest (Known t dst) (findLl t dst) := by
  unfold findLl
  exact lowest_find? (matchesLl_iff t dst)

/-- What the server does with a packet whose destination is `o`: it writes it there, once and with
    all its bytes, or nowhere. -/
structure SentTo (cfg : Config) (s s' : Server) (bytes : List UInt8) (e : List ServerObs)
    (o : Option (Fin 512)) : Prop where
  nowhere : o = none → e = [.received cfg.tunFile (s.fds cfg.tunFile) bytes]
  there : ∀ j, o = some j → e = [.received cfg.tunFile (s.fds cfg.tunFile) bytes,
    .wrote (s'.fds cfg.tunFile) j (s'.fds j) bytes]

/-- `forward` writes so. -/
theorem sentTo_forward (cfg : Config) (s s' : Server) (bytes : List UInt8) (o : Option (Fin 512)) :
    SentTo cfg s s' bytes
      (.received cfg.tunFile (s.fds cfg.tunFile) bytes :: s'.forward cfg bytes o) o where
  nowhere h := by rw [h, Server.forward]
  there j h := by rw [h, Server.forward]

/-- The call of `parse_prefixes` leaves the table `t'`. -/
def Leaves (cfg : Config) (t : Prefixes) (env : ReadEnv) (t' : Prefixes) : Prop :=
  ∃ a, env.assignments = some a ∧ parsePrefixes cfg.inetPton a.ind a.contents t = some t'

/-- A destination in the table does not depend on what a load would leave. -/
theorem destination_of_not_misses {cfg : Config} {t : Prefixes} {dst : In6Addr}
    (h : ¬ Misses cfg t dst) (t' : Prefixes) {o : Option (Fin 512)}
    (ho : if dst.top 52 = cfg.prefixSlash52.top 52 then Lowest (Delegated t dst) o
      else if dst.top 64 = cfg.prefixSlash64.top 64 ∨ dst.top 16 = 0xfe80 then
        Lowest (Known t dst) o
      else o = none) : Destination cfg t t' dst o := by
  unfold Destination
  by_cases htop : dst.top 52 = cfg.prefixSlash52.top 52
  · rw [if_pos htop] at ho ⊢
    refine .inl ⟨fun hnone => ?_, ho⟩
    exact h ⟨htop, ho.missing hnone⟩
  · rw [if_neg htop] at ho ⊢
    exact ho

/-- A packet that the table decides. -/
theorem sentTo_of_not_misses {s s' : Server} {rest : List EpollEvent} {bytes : List UInt8}
    {env : ReadEnv} {e : List ServerObs} (hpc : s.pc = .reading cfg.tunFile rest)
    (hlen : bytes.length ≤ 4096) (hrun : s.fromTun cfg bytes env = some (s', e))
    (hv : version (env.stale.copy 0 bytes) = 6)
    (hmiss : ¬ Misses cfg s.prefixes (daddr (env.stale.copy 0 bytes))) :
    s' = s ∧ ∃ o, (∀ t', Destination cfg s.prefixes t' (daddr (env.stale.copy 0 bytes)) o) ∧
      SentTo cfg s s' bytes e o := by
  have hiff := inSlash52_iff cfg (daddr (env.stale.copy 0 bytes))
  by_cases h52 : cfg.inSlash52 (daddr (env.stale.copy 0 bytes)) = true
  · have hhit : findPd s.prefixes (daddr (env.stale.copy 0 bytes)) ≠ none := fun hnone =>
      hmiss ⟨hiff.mp h52, (lowest_findPd _ _).missing hnone⟩
    cases lookup52_of_fromTun hpc hlen hrun hv h52 with
    | hit j hfind hs' ho =>
      refine ⟨hs', some j, fun t' => ?_, ?_⟩
      · refine destination_of_not_misses hmiss t' ?_
        rw [if_pos (hiff.mp h52), ← hfind]
        exact lowest_findPd _ _
      · rw [ho, hs']
        exact sentTo_forward cfg s s bytes _
    | unreadable hfind => exact absurd hfind hhit
    | overrun a hfind => exact absurd hfind hhit
    | loaded a hfind => exact absurd hfind hhit
  · obtain ⟨hs', ho⟩ := fromTun_of_not52 hlen hrun hv h52
    have hsent := sentTo_forward cfg s s bytes
      (if cfg.inSlash64 (daddr (env.stale.copy 0 bytes)) = true
        then findLl s.prefixes (daddr (env.stale.copy 0 bytes)) else none)
    refine ⟨hs', _, fun t' => ?_, by rw [ho, hs']; exact hsent⟩
    refine destination_of_not_misses hmiss t' ?_
    rw [if_neg (mt hiff.mpr h52)]
    by_cases h64 : cfg.inSlash64 (daddr (env.stale.copy 0 bytes)) = true
    · rw [if_pos ((inSlash64_iff cfg _).mp h64), if_pos h64]
      exact lowest_findLl _ _
    · rw [if_neg (mt (inSlash64_iff cfg _).mpr h64), if_neg h64]

/-- A packet that the server looks the assignments up for. -/
theorem sentTo_of_misses {s s' : Server} {rest : List EpollEvent} {bytes : List UInt8}
    {env : ReadEnv} {e : List ServerObs} (hpc : s.pc = .reading cfg.tunFile rest)
    (hlen : bytes.length ≤ 4096) (hrun : s.fromTun cfg bytes env = some (s', e))
    (hv : version (env.stale.copy 0 bytes) = 6)
    (hmiss : Misses cfg s.prefixes (daddr (env.stale.copy 0 bytes))) :
    (env.assignments = none ∧ s' = { s with pc := .exited } ∧
        e = [.received cfg.tunFile (s.fds cfg.tunFile) bytes]) ∨
      ∃ a, env.assignments = some a ∧ s' = s.reload cfg a ∧
        ∀ t', parsePrefixes cfg.inetPton a.ind a.contents s.prefixes = some t' →
          s'.prefixes = t' ∧
            ∃ o, Destination cfg s.prefixes t' (daddr (env.stale.copy 0 bytes)) o ∧
              SentTo cfg s s' bytes e o := by
  have h52 := (inSlash52_iff cfg (daddr (env.stale.copy 0 bytes))).mpr hmiss.1
  cases lookup52_of_fromTun hpc hlen hrun hv h52 with
  | hit j hfind =>
    have hlow := lowest_findPd s.prefixes (daddr (env.stale.copy 0 bytes))
    exact absurd (hlow.found j hfind).1 (hmiss.2 j)
  | unreadable hfind ha hs' ho => exact .inl ⟨ha, hs', ho⟩
  | overrun a hfind ha hload hs' ho =>
    refine .inr ⟨a, ha, hs', fun t' hload' => ?_⟩
    rw [hload] at hload'
    cases hload'
  | loaded a hfind ha hload hs' ho =>
    refine .inr ⟨a, ha, hs', fun t' hload' => ?_⟩
    have ht : s'.prefixes = t' := Option.some.inj (hload.symm.trans hload')
    refine ⟨ht, findPd s'.prefixes (daddr (env.stale.copy 0 bytes)), ?_, ?_⟩
    · rw [Destination, if_pos hmiss.1, ← ht]
      exact .inr ⟨hmiss.2, lowest_findPd _ _⟩
    · rw [ho]
      exact sentTo_forward cfg s s' bytes _

/-- **The forwarding decision.**  A version-6 packet from the TUN device is written to its
    destination, once and with all its bytes.  Only a packet that misses makes the server call
    `parse_prefixes`, which ends the program if there is no file; the table it leaves is the one in
    which the packet is looked up again. -/
theorem forwarding_decision (cfg : Config) (s s' : Server) (rest : List EpollEvent)
    (bytes : List UInt8) (env : ReadEnv) (e : List ServerObs)
    (hpc : s.pc = .reading cfg.tunFile rest) (hv : version (env.stale.copy 0 bytes) = 6)
    (hs : s.step cfg (.read (.data bytes) env) = some (s', e)) :
    (¬ Misses cfg s.prefixes (daddr (env.stale.copy 0 bytes)) →
      s' = s ∧ ∃ o, (∀ t', Destination cfg s.prefixes t' (daddr (env.stale.copy 0 bytes)) o) ∧
        SentTo cfg s s' bytes e o) ∧
    (Misses cfg s.prefixes (daddr (env.stale.copy 0 bytes)) →
      (env.assignments = none →
        s' = { s with pc := .exited } ∧ e = [.received cfg.tunFile (s.fds cfg.tunFile) bytes]) ∧
      (∀ a, env.assignments = some a → s' = s.reload cfg a) ∧
      ∀ t', Leaves cfg s.prefixes env t' → s'.prefixes = t' ∧
        ∃ o, Destination cfg s.prefixes t' (daddr (env.stale.copy 0 bytes)) o ∧
          SentTo cfg s s' bytes e o) := by
  obtain ⟨hlen, hrun⟩ := fromTun_of_step hs hpc
  refine ⟨sentTo_of_not_misses hpc hlen hrun hv, fun hmiss => ?_⟩
  rcases sentTo_of_misses hpc hlen hrun hv hmiss with ⟨hnone, hexited⟩ | ⟨a, ha, hs', hloaded⟩
  · refine ⟨fun _ => hexited, fun a ha => ?_, fun t' ⟨a, ha, _⟩ => ?_⟩
    all_goals
      rw [hnone] at ha
      cases ha
  · refine ⟨fun hnone => ?_, fun a' ha' => ?_, fun t' ⟨a', ha', hload⟩ => ?_⟩
    · rw [ha] at hnone
      cases hnone
    · rw [hs', Option.some.inj (ha.symm.trans ha')]
    · rw [← Option.some.inj (ha.symm.trans ha')] at hload
      exact hloaded t' hload

/-- The server about to read a packet from TUN, with a client on descriptor 7. -/
def Server.reading7 : Server where
  prefixes := learn (fun _ => SocketPrefix.zero) 7 (linkLocal 1)
  fds := Function.update Config.sample.fds 7 (some (.conn 0))
  nextConn := 1
  pc := .reading 3 []

/-- `forwarding_decision` at a packet for that client, which gets its 40 bytes. -/
theorem forwarding_decision_reading7 :
    ∃ s' e, Server.reading7.step .sample
        (.read (.data (packetOf (linkLocal 2) (linkLocal 1))) ⟨fun _ => 0, none⟩) = some (s', e) ∧
      e = [.received 3 (some .tun) (packetOf (linkLocal 2) (linkLocal 1)),
        .wrote (some .tun) 7 (some (.conn 0)) (packetOf (linkLocal 2) (linkLocal 1))] ∧
      ∃ o, (∀ t', Destination .sample Server.reading7.prefixes t' (linkLocal 1) o) ∧
        SentTo .sample Server.reading7 s' (packetOf (linkLocal 2) (linkLocal 1)) e o := by
  have hdaddr : daddr (Buf.copy (fun _ => 0) 0 (packetOf (linkLocal 2) (linkLocal 1)))
      = linkLocal 1 := by decide +kernel
  have hnot52 : ¬ (linkLocal 1).top 52 = Config.sample.prefixSlash52.top 52 := by decide +kernel
  obtain ⟨⟨s', e⟩, hstep, he⟩ :
      ∃ r ∈ Server.reading7.step .sample
          (.read (.data (packetOf (linkLocal 2) (linkLocal 1))) ⟨fun _ => 0, none⟩),
        r.2 = [.received 3 (some .tun) (packetOf (linkLocal 2) (linkLocal 1)),
          .wrote (some .tun) 7 (some (.conn 0)) (packetOf (linkLocal 2) (linkLocal 1))] :=
    by decide +kernel
  have hdecided := forwarding_decision .sample _ s' [] _ _ e rfl (by decide) hstep
  rw [hdaddr] at hdecided
  exact ⟨s', e, hstep, he, (hdecided.1 fun hmiss => hnot52 hmiss.1).2⟩

end Gap.Tunnel
