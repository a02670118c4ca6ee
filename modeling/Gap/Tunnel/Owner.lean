import Gap.Tunnel.Routing

namespace Gap.Tunnel

/-!
# The owner of a link-local address

A reconnecting client presents the address that its old connection has learned.  The lookups and
the match loop of the reload all stop at the lowest descriptor.

* `learnersOf` — the connections on which an address was learned, in order.
* `Uncontested` — the steps that learn no address another entry has.
* `Owned` — the invariant: entries have distinct addresses, those learned on their connections.
* `current_owner` — in a run of such steps, packets for an address go to its last learner.
* `older_connection_shadows` — without the condition they go to the older connection.
-/

variable {cfg : Config}

/-! ### Learning -/

/-- The descriptors and connections on which `addr` was learned, the oldest first. -/
def learnersOf (addr : In6Addr) (o : List ServerObs) : List (ℕ × ℕ) :=
  o.filterMap fun
    | .learned fd (some (.conn c)) a => if a = addr then some (fd, c) else none
    | _ => none

/-- A learner is in the trace. -/
theorem learned_of_mem {addr : In6Addr} {o : List ServerObs} {fd c : ℕ}
    (h : (fd, c) ∈ learnersOf addr o) : .learned fd (some (.conn c)) addr ∈ o := by
  obtain ⟨ob, hob, hsome⟩ := List.mem_filterMap.mp h
  split at hsome
  · split_ifs at hsome with ha
    obtain ⟨rfl, rfl⟩ := Prod.mk.inj (Option.some.inj hsome)
    rwa [← ha]
  · cases hsome

/-- No entry in use has the last 64 bits of this address. -/
def Unheld (t : Prefixes) (addr : In6Addr) : Prop :=
  ∀ k, (t k).plenLl ≠ 0 → (t k).addrLl.agree addr 8 8 = false

instance (t : Prefixes) (addr : In6Addr) : Decidable (Unheld t addr) := Nat.decidableForallFin _

/-- A step that learns an address only if no entry in use has its last 64 bits. -/
def Uncontested (cfg : Config) (s : Server) (_ : List ServerObs) : ServerInput → Prop
  | .read (.data bytes) env =>
    ∀ fd ∈ s.pc.readingFd, fd ≠ cfg.tunFile →
      ∀ addr ∈ learns s.prefixes fd (env.stale.copy 0 bytes), Unheld s.prefixes addr
  | _ => True

instance (s : Server) (o : List ServerObs) : (i : ServerInput) → Decidable (Uncontested cfg s o i)
  | .read (.data bytes) env =>
    haveI : ∀ fd, Decidable (∀ addr ∈ learns s.prefixes fd (env.stale.copy 0 bytes),
        Unheld s.prefixes addr) := fun _ => Option.decidableForallMem _
    Option.decidableForallMem _
  | .read .again _ => isTrue trivial
  | .read .error _ => isTrue trivial
  | .read .eof _ => isTrue trivial
  | .accept _ => isTrue trivial
  | .epollWait _ => isTrue trivial

/-- Addresses learned are link-local. -/
theorem isLinkLocal_of_learns {t : Prefixes} {fd : ℕ} {buf : Buf 4096} {addr : In6Addr}
    (h : learns t fd buf = some addr) : addr.isLinkLocal = true := by
  obtain ⟨-, -, -, hsource⟩ := learns_eq_some h
  unfold linkLocalSource at hsource
  split_ifs at hsource with hversion hlocal
  rwa [← Option.some.inj hsource]

/-! ### The invariant -/

/-- The entries in use have distinct addresses, and an open connection has the address that was
    learned on it. -/
structure Owned (cfg : Config) (s : Server) (o : List ServerObs) : Prop where
  sane : Sane cfg s
  table : TableOk s
  distinct : ∀ j k, (s.prefixes j).plenLl ≠ 0 → (s.prefixes k).plenLl ≠ 0 →
    (s.prefixes j).addrLl.agree (s.prefixes k).addrLl 8 8 = true → j = k
  learned : ∀ fd c addr, .learned fd (some (.conn c)) addr ∈ o →
    addr.isLinkLocal = true ∧ c < s.nextConn ∧
      ∀ h : fd < 512, s.fds fd = some (.conn c) →
        (s.prefixes ⟨fd, h⟩).plenLl ≠ 0 ∧ (s.prefixes ⟨fd, h⟩).addrLl = addr

theorem owned_init : Owned cfg (Server.init cfg) [] where
  sane := sane_init
  table := tableOk_init
  distinct j k hj := absurd rfl hj
  learned fd c addr h := by cases h

/-- **Step lemma.**  An uncontested step keeps the addresses distinct. -/
theorem owned_step {s s' : Server} {o e : List ServerObs} {i : ServerInput} (h : Owned cfg s o)
    (hC : Uncontested cfg s o i) (hs : s.step cfg i = some (s', e)) : Owned cfg s' (o ++ e) := by
  have hsane := sane_step h.sane hs
  have htable := tableOk_step h.sane h.table hs
  -- what is learned now is learned by an entry that has no address, and no entry has this one
  have hnew : ∀ fd file addr, ServerObs.learned fd file addr ∈ e →
      file = s.fds fd ∧ addr.isLinkLocal = true ∧ (∃ rest, s.pc = .reading fd rest) ∧
        s'.prefixes = learn s.prefixes fd addr ∧ Unheld s.prefixes addr := by
    intro fd file addr hmem
    obtain ⟨hfile, htun, rest, bytes, env, hpc, rfl, hlearns, hs'⟩ := tellsOf_step h.sane hs hmem
    exact ⟨hfile, isLinkLocal_of_learns hlearns, ⟨rest, hpc⟩, hs',
      hC fd (by rw [hpc]; rfl) htun addr hlearns⟩
  refine ⟨hsane, htable, fun j k hj hk ha => ?_, fun fd c addr hmem => ?_⟩
  · obtain ⟨cj, hcj⟩ := htable.conn j (.inr hj)
    obtain ⟨ck, hck⟩ := htable.conn k (.inr hk)
    -- each of the two entries has its address from before, or learns it now
    rcases entry_of_step h.sane hs hcj with ⟨hpj, haj⟩ | ⟨aj, hmj, -, -, haj⟩
    · rw [hpj] at hj
      rcases entry_of_step h.sane hs hck with ⟨hpk, hak⟩ | ⟨ak, hmk, -, -, hak⟩
      · rw [hpk] at hk
        rw [haj, hak] at ha
        exact h.distinct j k hj hk ha
      · rw [haj, hak, (hnew _ _ _ hmk).2.2.2.2 j hj] at ha
        cases ha
    · rcases entry_of_step h.sane hs hck with ⟨hpk, hak⟩ | ⟨ak, hmk, -, -, hak⟩
      · rw [hpk] at hk
        rw [haj, hak, In6Addr.agree_comm, (hnew _ _ _ hmj).2.2.2.2 k hk] at ha
        cases ha
      · -- one step learns on one descriptor
        obtain ⟨restj, hpcj⟩ := (hnew _ _ _ hmj).2.2.1
        obtain ⟨restk, hpck⟩ := (hnew _ _ _ hmk).2.2.1
        rw [hpcj, Pc.reading.injEq] at hpck
        exact Fin.ext hpck.1
  · rcases List.mem_append.mp hmem with hold | hlearned
    · obtain ⟨hlocal, hlt, hentry⟩ := h.learned fd c addr hold
      refine ⟨hlocal, hlt.trans_le (nextConn_of_step h.sane hs), fun hfd hc => ?_⟩
      obtain ⟨hp, ha⟩ := hentry hfd (conn_of_step h.sane hs hc hlt)
      rcases entry_of_step (j := ⟨fd, hfd⟩) h.sane hs hc with ⟨hp', ha'⟩ | ⟨addr', -, hll, -⟩
      · rw [hp', ha']
        exact ⟨hp, ha⟩
      · exact absurd hll hp
    · obtain ⟨hfile, hlocal, -, hs', -⟩ := hnew fd _ addr hlearned
      refine ⟨hlocal, (h.sane.fds.conn_lt fd c hfile.symm).trans_le (nextConn_of_step h.sane hs),
        fun hfd _ => ?_⟩
      have hentry : learn s.prefixes fd addr ⟨fd, hfd⟩ = _ := learn_self s.prefixes ⟨fd, hfd⟩ addr
      rw [hs', hentry]
      exact ⟨by simp, rfl⟩

/-- **Run lemma.**  In every run of uncontested steps the addresses are distinct. -/
theorem owned_of_run (is : List ServerInput) (s : Server) (o : List ServerObs)
    (halong : (server cfg).Along (Uncontested cfg) is) (hrun : (server cfg).run is = some (s, o)) :
    Owned cfg s o :=
  Machine.run_induct_along (P := fun _ s o => Owned cfg s o) owned_init
    (fun _ _ _ _ _ _ _ h hC hs => owned_step h hC hs) is s o halong hrun

/-! ### Packets for an address -/

/-- The packets of an address that entry `j` has: those for the address itself, and those for its
    block, which the entry holds or the assignments file gives to the address. -/
inductive Destined (cfg : Config) (s : Server) (env : ReadEnv) (j : Fin 512) (addr dst : In6Addr) :
    Prop
  /-- To the address, which is not in the /52. -/
  | linkLocal (h52 : cfg.inSlash52 dst = false) (hdst : dst = addr)
  /-- To the block of the entry, and of no other. -/
  | held (h52 : cfg.inSlash52 dst = true) (hself : (s.prefixes j).matchesPd dst = true)
      (hothers : ∀ k, k ≠ j → (s.prefixes k).matchesPd dst = false)
  /-- To no block known, but to the one the file gives to the address, and to no other address; the
      file has no short line. -/
  | assigned {a : Assignments} {block : In6Addr} (h52 : cfg.inSlash52 dst = true)
      (hnone : ∀ k, (s.prefixes k).matchesPd dst = false) (ha : env.assignments = some a)
      (hline : ∀ line ∈ fgetsLines [] a.contents, ¬ Short line)
      (hblock : lastBlock addr (delegations cfg.inetPton a.ind a.contents) = some block)
      (hself : covers block dst = true)
      (hothers : ∀ d ∈ delegations cfg.inetPton a.ind a.contents, d.1 ≠ addr →
        covers d.2 dst = false)

/-- The entry of the last learner is the only one with its address. -/
theorem Owned.sole {s : Server} {o : List ServerObs} (h : Owned cfg s o) {j : Fin 512}
    (hll : (s.prefixes j).plenLl ≠ 0) : Sole s.prefixes j where
  plenLl := hll
  sole k hk ha := h.distinct k j hk hll (by rw [ha]; exact In6Addr.agree_refl _ _ _)

/-- A reload gives the block of the address to its entry, and to no other. -/
theorem findPd_of_assigned {t t' : Prefixes} {j : Fin 512} (h : Sole t j) {dst block : In6Addr}
    {inetPton : List UInt8 → Option In6Addr} {a : Assignments}
    (hnone : ∀ k, (t k).matchesPd dst = false)
    (hblock : lastBlock (t j).addrLl (delegations inetPton a.ind a.contents) = some block)
    (hself : covers block dst = true)
    (hothers : ∀ d ∈ delegations inetPton a.ind a.contents, d.1 ≠ (t j).addrLl →
      covers d.2 dst = false)
    (hload : parsePrefixes inetPton a.ind a.contents t = some t') : findPd t' dst = some j := by
  rw [eq_of_parsePrefixes hload]
  -- after the reload only entry `j` has a block that holds the destination
  refine find?_eq_some_of_sole ?_ fun k hmatch => ?_
  · rw [matchesPd_foldl_first h.first, hblock]
    exact hself
  · by_contra hne
    rcases matchesPd_foldl_other h hne hmatch with hbefore | ⟨d, hd, hne', hcovers⟩
    · rw [hnone k] at hbefore
      cases hbefore
    · rw [hothers d hd hne'] at hcovers
      cases hcovers

/-- **A packet of an address** goes to the entry that has it. -/
theorem forward_of_destined {s s' : Server} {o e : List ServerObs} (h : Owned cfg s o) {j : Fin 512}
    (hll : (s.prefixes j).plenLl ≠ 0) (hlocal : (s.prefixes j).addrLl.isLinkLocal = true)
    {rest : List EpollEvent} {bytes : List UInt8} {env : ReadEnv}
    (hpc : s.pc = .reading cfg.tunFile rest) (hle : bytes.length ≤ 4096)
    (hrun : s.fromTun cfg bytes env = some (s', e))
    (hversion : version (env.stale.copy 0 bytes) = 6)
    (hdst : Destined cfg s env j (s.prefixes j).addrLl (daddr (env.stale.copy 0 bytes))) :
    e = .received cfg.tunFile (s.fds cfg.tunFile) bytes :: s'.forward cfg bytes (some j) := by
  have hlookup := lookup52_of_fromTun hpc hle hrun hversion
  have hnot52 := fromTun_of_not52 hle hrun hversion
  generalize daddr (env.stale.copy 0 bytes) = dst at hdst hlookup hnot52
  cases hdst with
  | linkLocal h52 hdst =>
    have hfind : findLl s.prefixes dst = some j := by
      rw [hdst]
      refine find?_eq_some_of_sole ?_ fun k hk => ?_
      · rw [SocketPrefix.matchesLl, Bool.and_eq_true, bne_iff_ne]
        exact ⟨hll, In6Addr.agree_refl _ _ _⟩
      · rw [SocketPrefix.matchesLl, Bool.and_eq_true, bne_iff_ne] at hk
        exact (h.distinct j k hll hk.1 hk.2).symm
    have h64 : cfg.inSlash64 dst = true := by
      rw [Config.inSlash64, Bool.or_eq_true, hdst]
      exact .inr hlocal
    obtain ⟨hs', he⟩ := hnot52 (by rw [h52]; exact Bool.false_ne_true)
    rw [if_pos h64, hfind] at he
    rw [he, hs']
  | held h52 hself hothers =>
    have hfind : findPd s.prefixes dst = some j := by
      refine find?_eq_some_of_sole hself fun k hk => ?_
      by_contra hne
      rw [hothers k hne] at hk
      cases hk
    cases hlookup h52 with
    | hit k hfind' hs' he =>
      rw [hfind] at hfind'
      rw [he, hs', hfind']
    | unreadable hfind' | overrun a hfind' | loaded a hfind' =>
      rw [hfind] at hfind'
      cases hfind'
  | @assigned a block h52 hnone ha hline hblock hself hothers =>
    have hfind : findPd s.prefixes dst = none := Fin.find?_eq_none_iff.mpr hnone
    cases hlookup h52 with
    | hit k hfind' =>
      rw [hfind] at hfind'
      cases hfind'
    | unreadable hfind' ha' =>
      rw [ha] at ha'
      cases ha'
    | overrun a' hfind' ha' hload =>
      -- the file has no short line
      obtain rfl := Option.some.inj (ha.symm.trans ha')
      obtain ⟨line, hmem, hshort⟩ := (parsePrefixes_eq_none_iff _ _).mp hload
      exact absurd hshort (hline line hmem)
    | loaded a' hfind' ha' hload hs' he =>
      obtain rfl := Option.some.inj (ha.symm.trans ha')
      rw [he, findPd_of_assigned (h.sole hll) hnone hblock hself hothers hload]

/-! ### The current owner -/

/-- **The current owner.**  After every run of uncontested steps: no two entries in use have the
    same address; and when the connection on which an address was learned last is open, a packet
    read from TUN for that address, or for its block, is written to this connection, and to no
    other. -/
theorem current_owner (is : List ServerInput) (s : Server) (o : List ServerObs)
    (halong : (server cfg).Along (Uncontested cfg) is) (hrun : (server cfg).run is = some (s, o)) :
    (∀ j k, (s.prefixes j).plenLl ≠ 0 → (s.prefixes k).plenLl ≠ 0 →
      (s.prefixes j).addrLl = (s.prefixes k).addrLl → j = k) ∧
    ∀ addr (j : Fin 512) c, (learnersOf addr o).getLast? = some (j.val, c) →
      s.fds j = some (.conn c) →
      ∀ rest bytes env s' e, s.pc = .reading cfg.tunFile rest →
        s.step cfg (.read (.data bytes) env) = some (s', e) →
        version (env.stale.copy 0 bytes) = 6 →
        Destined cfg s env j addr (daddr (env.stale.copy 0 bytes)) →
        e = [.received cfg.tunFile (s.fds cfg.tunFile) bytes,
          .wrote (s'.fds cfg.tunFile) j (some (.conn c)) bytes] := by
  have h := owned_of_run is s o halong hrun
  refine ⟨fun j k hj hk ha => ?_, fun addr j c hlast hc rest bytes env s' e hpc hstep hversion
    hdst => ?_⟩
  · exact h.distinct j k hj hk (by rw [ha]; exact In6Addr.agree_refl _ _ _)
  · obtain ⟨hlocal, hlt, hentry⟩ := h.learned j c addr
      (learned_of_mem (List.mem_of_getLast? hlast))
    obtain ⟨hll, rfl⟩ := hentry j.isLt hc
    obtain ⟨hle, hrun⟩ := fromTun_of_step hstep hpc
    have hopen := (forwarded_of_fromTun hle hrun).of_open hc
    rw [forward_of_destined h hll hlocal hpc hle hrun hversion hdst, Server.forward, hopen]

/-- A client presents `fe80::1`, closes its connection, connects again and presents `fe80::1`
    again; then TUN is ready. -/
def reconnectsAfterClose : List ServerInput :=
  oneClient ++ ends 7 ++ oneClient ++ [.epollWait [readable 3]]

/-- A packet for `fe80::1` read from TUN. -/
def packetForClient : ServerInput :=
  .read (.data (packetOf (linkLocal 2) (linkLocal 1))) ⟨fun _ => 0, none⟩

/-- `current_owner` for the second connection of that client. -/
theorem current_owner_reconnectsAfterClose :
    ∃ s o s' e, (server Config.sample).run reconnectsAfterClose = some (s, o) ∧
      s.step Config.sample packetForClient = some (s', e) ∧
      learnersOf (linkLocal 1) o = [(7, 0), (7, 1)] ∧
      e = [.received 3 (s.fds 3) (packetOf (linkLocal 2) (linkLocal 1)),
        .wrote (s'.fds 3) 7 (some (.conn 1)) (packetOf (linkLocal 2) (linkLocal 1))] := by
  obtain ⟨s, o, hrun, hlearners, hc, hpc, hsome⟩ :
      ∃ s o, (server Config.sample).run reconnectsAfterClose = some (s, o) ∧
        learnersOf (linkLocal 1) o = [(7, 0), (7, 1)] ∧ s.fds (7 : Fin 512) = some (.conn 1) ∧
        s.pc = .reading 3 [] ∧ (s.step Config.sample packetForClient).isSome = true :=
    (server Config.sample).exists_run (by decide +kernel)
  obtain ⟨r, hstep⟩ := Option.isSome_iff_exists.mp hsome
  refine ⟨s, o, r.1, r.2, hrun, hstep, hlearners, ?_⟩
  exact (current_owner reconnectsAfterClose s o (Machine.along_of_alongFrom (by decide +kernel))
    hrun).2 (linkLocal 1) 7 1 (by rw [hlearners]; rfl) hc [] _ _ r.1 r.2 hpc hstep
    (by decide +kernel) (.linkLocal (by decide +kernel) (by decide +kernel))

/-- The client connects again before its old connection is closed. -/
def reconnectsBeforeClose : List ServerInput :=
  oneClient ++ connects 8 ++ delivers 8 [helloOf 1] ++ [.epollWait [readable 3]]

/-- Both entries have the address, and the packet goes to the older connection. -/
theorem older_connection_shadows :
    ∃ s o s' e, (server Config.sample).run reconnectsBeforeClose = some (s, o) ∧
      s.step Config.sample packetForClient = some (s', e) ∧
      learnersOf (linkLocal 1) o = [(7, 0), (8, 1)] ∧
      s.fds 7 = some (.conn 0) ∧ s.fds 8 = some (.conn 1) ∧
      (s.prefixes 7).plenLl ≠ 0 ∧ (s.prefixes 8).plenLl ≠ 0 ∧
      (s.prefixes 7).addrLl = (s.prefixes 8).addrLl ∧
      .wrote (some .tun) 7 (some (.conn 0)) (packetOf (linkLocal 2) (linkLocal 1)) ∈ e ∧
      .wrote (some .tun) 8 (some (.conn 1)) (packetOf (linkLocal 2) (linkLocal 1)) ∉ e := by
  obtain ⟨s, o, hrun, hlearners, h7, h8, hp7, hp8, ha, r, hstep, hold, hnew⟩ :
      ∃ s o, (server Config.sample).run reconnectsBeforeClose = some (s, o) ∧
        learnersOf (linkLocal 1) o = [(7, 0), (8, 1)] ∧
        s.fds 7 = some (.conn 0) ∧ s.fds 8 = some (.conn 1) ∧
        (s.prefixes 7).plenLl ≠ 0 ∧ (s.prefixes 8).plenLl ≠ 0 ∧
        (s.prefixes 7).addrLl = (s.prefixes 8).addrLl ∧
        ∃ r ∈ s.step Config.sample packetForClient,
          .wrote (some .tun) 7 (some (.conn 0)) (packetOf (linkLocal 2) (linkLocal 1)) ∈ r.2 ∧
          .wrote (some .tun) 8 (some (.conn 1)) (packetOf (linkLocal 2) (linkLocal 1)) ∉ r.2 :=
    (server Config.sample).exists_run (by decide +kernel)
  exact ⟨s, o, r.1, r.2, hrun, hstep, hlearners, h7, h8, hp7, hp8, ha, hold, hnew⟩

end Gap.Tunnel
