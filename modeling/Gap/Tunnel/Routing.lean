import Gap.Tunnel.Bounds
import Gap.Tunnel.LineText

namespace Gap.Tunnel

/-!
# The routing table follows the open connections

* `SocketPrefix.InUse` — entries that attract packets.
* `TableOk` — the invariant: entries in use belong to open connections.
* `addrLl_of_runFrom` — what was learned stays as long as the connection.
* `StaysInside` — the steps that store only inside `prefixes[512]` and `line[512]`.
* `FollowsConnections`, `routing_table` — in the runs of such steps the table follows the
  connections, and packets from TUN go to open ones.
-/

variable {cfg : Config}

/-! ### Entries -/

/-- The entry takes part in a lookup. -/
def SocketPrefix.InUse (p : SocketPrefix) : Prop := p.plenPd ≠ 0 ∨ p.plenLl ≠ 0

/-- The entry of a connection that has learned no address. -/
theorem SocketPrefix.not_inUse {p : SocketPrefix} (h : ¬ p.InUse) : p.plenLl = 0 ∧ p.plenPd = 0 := by
  rw [SocketPrefix.InUse, not_or, not_not, not_not] at h
  exact ⟨h.2, h.1⟩

theorem SocketPrefix.clear_not_inUse (p : SocketPrefix) : ¬ p.clear.InUse := by
  rintro (h | h)
  · exact h rfl
  · exact h rfl

theorem learn_self (t : Prefixes) (j : Fin 512) (addr : In6Addr) :
    learn t j.val addr j = { t j with addrLl := addr, plenLl := 128 } := if_pos rfl

theorem learn_of_ne (t : Prefixes) {fd : ℕ} {j : Fin 512} (h : j.val ≠ fd) (addr : In6Addr) :
    learn t fd addr j = t j := if_neg h

/-- An address is learned only for an entry of the table that has none. -/
theorem learns_eq_some {t : Prefixes} {fd : ℕ} {buf : Buf 4096} {addr : In6Addr}
    (h : learns t fd buf = some addr) :
    ∃ j : Fin 512, j.val = fd ∧ (t j).plenLl = 0 ∧ linkLocalSource buf = some addr := by
  unfold learns at h
  split_ifs at h with hlt hll
  exact ⟨⟨fd, hlt⟩, rfl, hll, h⟩

/-- Data from a connection leaves the other entries alone, and its own if that has learned. -/
theorem fromTcp_prefixes (s : Server) {fd : ℕ} {bytes : List UInt8} {stale : Buf 4096}
    {j : Fin 512} (h : j.val ≠ fd ∨ (s.prefixes j).plenLl ≠ 0) :
    (s.fromTcp cfg fd bytes stale).1.prefixes j = s.prefixes j := by
  simp only [Server.fromTcp]
  cases hlearn : learns s.prefixes fd (stale.copy 0 bytes) with
  | none => rfl
  | some addr =>
    obtain ⟨k, hk, hll, -⟩ := learns_eq_some hlearn
    refine learn_of_ne s.prefixes (fun hj => ?_) addr
    rcases h with hne | hne
    · exact hne hj
    · rw [Fin.ext (hj.trans hk.symm)] at hne
      exact hne hll

/-- Whatever is learned, a block is kept as it is. -/
theorem fromTcp_plenPd (cfg : Config) (s : Server) (fd : ℕ) (bytes : List UInt8) (stale : Buf 4096)
    (j : Fin 512) :
    ((s.fromTcp cfg fd bytes stale).1.prefixes j).plenPd = (s.prefixes j).plenPd ∧
      ((s.prefixes j).plenLl ≠ 0 →
        ((s.fromTcp cfg fd bytes stale).1.prefixes j).plenLl ≠ 0) := by
  simp only [Server.fromTcp]
  cases learns s.prefixes fd (stale.copy 0 bytes) with
  | none => exact ⟨rfl, id⟩
  | some addr =>
    by_cases hj : j.val = fd
    · show (learn s.prefixes fd addr j).plenPd = _ ∧ (_ → (learn s.prefixes fd addr j).plenLl ≠ 0)
      subst hj
      rw [learn_self]
      exact ⟨rfl, fun _ => by simp⟩
    · show (learn s.prefixes fd addr j).plenPd = _ ∧ (_ → (learn s.prefixes fd addr j).plenLl ≠ 0)
      rw [learn_of_ne s.prefixes hj]
      exact ⟨rfl, id⟩

/-- Closing a descriptor clears its entry, if it has one, and no other. -/
theorem close_prefixes (s : Server) (fd : ℕ) (rest : List EpollEvent) (j : Fin 512) :
    (s.close cfg fd rest).1.prefixes j = if j.val = fd then (s.prefixes j).clear else s.prefixes j := by
  unfold Server.close
  by_cases hlt : fd < 512
  · rw [dif_pos hlt]
    show Function.update s.prefixes ⟨fd, hlt⟩ _ j = _
    by_cases hj : j.val = fd
    · subst hj
      rw [if_pos rfl, Function.update_self]
    · rw [if_neg hj, Function.update_of_ne fun he => hj (by rw [he])]
  · rw [dif_neg hlt, if_neg (by omega)]

/-! ### What a step keeps -/

/-- Connection numbers grow. -/
theorem nextConn_of_step {s s' : Server} {i : ServerInput} {e : List ServerObs} (h : Sane cfg s)
    (hs : s.step cfg i = some (s', e)) : s.nextConn ≤ s'.nextConn := by
  have heff := effect_of_step h hs
  cases heff with
  | next hread haccept => exact le_rfl
  | accepted hfree hpc => exact Nat.le_succ _
  | @fromTcp fd c rest bytes env hpc hconn htun hpos hle =>
    exact (fromTcp_fds cfg s fd bytes env.stale).2.1.ge
  | fromTun hpc hpos hle hrun => exact (forwarded_of_fromTun hle hrun).nextConn.ge
  | @closed fd rest r env hpc hreg hsfd hr => exact (close_fds cfg s fd rest).2.ge

/-- An open connection was open on the same descriptor before, or it is accepted now on a free
    one. -/
theorem conn_cases {s s' : Server} {i : ServerInput} {e : List ServerObs} (h : Sane cfg s)
    (hs : s.step cfg i = some (s', e)) {fd c : ℕ} (hc : s'.fds fd = some (.conn c)) :
    s.fds fd = some (.conn c) ∨
      c = s.nextConn ∧ s.fds fd = none ∧ ∃ setUp, i = .accept (.connected fd setUp) := by
  have heff := effect_of_step h hs
  cases heff with
  | next hread haccept => exact .inl hc
  | @accepted f setUp pc hfree hpc =>
    by_cases hnew : c = s.nextConn
    · -- the new number is in use on the new descriptor only
      have hfd : fd = f := by
        by_contra hne
        replace hc : Function.update s.fds f (some (.conn s.nextConn)) fd = some (.conn c) := hc
        rw [Function.update_of_ne hne] at hc
        exact absurd (h.fds.conn_lt fd c hc) (by omega)
      subst hfd
      exact .inr ⟨hnew, hfree, setUp, rfl⟩
    · refine .inl (of_update_some hc ?_)
      simp only [ne_eq, File.conn.injEq]
      exact Ne.symm hnew
  | @fromTcp fd' c' rest bytes env hpc hconn htun hpos hle =>
    rw [(fromTcp_fds cfg s fd' bytes env.stale).1] at hc
    exact .inl hc
  | fromTun hpc hpos hle hrun =>
    rcases (forwarded_of_fromTun hle hrun).fds with hsame | ⟨f, -, hopen⟩
    · rw [hsame] at hc
      exact .inl hc
    · rw [hopen] at hc
      exact .inl (of_update_some hc (by simp))
  | @closed fd' rest r env hpc hreg hsfd hr =>
    rw [(close_fds cfg s fd' rest).1] at hc
    exact .inl (of_update_none hc).2

/-- A connection accepted before keeps its descriptor as long as it is open. -/
theorem conn_of_step {s s' : Server} {i : ServerInput} {e : List ServerObs} (h : Sane cfg s)
    (hs : s.step cfg i = some (s', e)) {fd c : ℕ} (hc : s'.fds fd = some (.conn c))
    (hlt : c < s.nextConn) : s.fds fd = some (.conn c) :=
  (conn_cases h hs hc).resolve_right fun hnew => hlt.ne hnew.1

/-- The address of an open connection stays, unless it had none and has been learned now. -/
theorem entry_of_step {s s' : Server} {i : ServerInput} {e : List ServerObs} (h : Sane cfg s)
    (hs : s.step cfg i = some (s', e)) {j : Fin 512} {c : ℕ} (hc : s'.fds j = some (.conn c)) :
    ((s'.prefixes j).plenLl = (s.prefixes j).plenLl ∧
      (s'.prefixes j).addrLl = (s.prefixes j).addrLl) ∨
    ∃ addr, .learned j (some (.conn c)) addr ∈ e ∧ (s.prefixes j).plenLl = 0 ∧
      (s'.prefixes j).plenLl = 128 ∧ (s'.prefixes j).addrLl = addr := by
  have heff := effect_of_step h hs
  cases heff with
  | next hread haccept => exact .inl ⟨rfl, rfl⟩
  | accepted hfree hpc => exact .inl ⟨rfl, rfl⟩
  | @fromTcp fd c' rest bytes env hpc hconn htun hpos hle =>
    rw [(fromTcp_fds cfg s fd bytes env.stale).1] at hc
    rw [fromTcp_eq s fd hle]
    cases hlearns : learns s.prefixes fd (env.stale.copy 0 bytes) with
    | none => exact .inl ⟨rfl, rfl⟩
    | some addr =>
      by_cases hj : j.val = fd
      · subst hj
        obtain ⟨k, hk, hll, -⟩ := learns_eq_some hlearns
        obtain rfl := Fin.ext hk
        right
        refine ⟨addr, ?_, hll, ?_⟩
        · rw [hc]
          simp
        · show (learn s.prefixes k addr k).plenLl = 128 ∧ (learn s.prefixes k addr k).addrLl = addr
          rw [learn_self]
          exact ⟨rfl, rfl⟩
      · left
        show (learn s.prefixes fd addr j).plenLl = _ ∧ (learn s.prefixes fd addr j).addrLl = _
        rw [learn_of_ne s.prefixes hj]
        exact ⟨rfl, rfl⟩
  | fromTun hpc hpos hle hrun =>
    have hfwd := forwarded_of_fromTun hle hrun
    exact .inl ⟨hfwd.prefixes.plenLl j, hfwd.prefixes.addrLl j⟩
  | @closed fd rest r env hpc hreg hsfd hr =>
    rw [(close_fds cfg s fd rest).1] at hc
    rw [close_prefixes, if_neg (of_update_none hc).1]
    exact .inl ⟨rfl, rfl⟩

/-! ### The invariant -/

/-- Entries in use belong to open connections, and a block only to a connection that has learned
    its address. -/
structure TableOk (s : Server) : Prop where
  conn : ∀ j, (s.prefixes j).InUse → ∃ c, s.fds j = some (.conn c)
  pd : ∀ j, (s.prefixes j).plenPd ≠ 0 → (s.prefixes j).plenLl ≠ 0

theorem tableOk_init : TableOk (Server.init cfg) where
  conn j h := by
    rcases h with h | h
    · exact absurd rfl h
    · exact absurd rfl h
  pd j h := absurd rfl h

/-- The entry of a free descriptor attracts nothing. -/
theorem TableOk.of_free {s : Server} (h : TableOk s) {j : Fin 512} (hfree : s.fds j = none) :
    (s.prefixes j).plenLl = 0 ∧ (s.prefixes j).plenPd = 0 := by
  refine SocketPrefix.not_inUse fun hj => ?_
  obtain ⟨c, hc⟩ := h.conn j hj
  rw [hfree] at hc
  cases hc

/-- **Step lemma.**  Every step keeps the invariant. -/
theorem tableOk_step {s s' : Server} {i : ServerInput} {o : List ServerObs} (hs : Sane cfg s)
    (h : TableOk s) (hstep : s.step cfg i = some (s', o)) : TableOk s' := by
  have heff := effect_of_step hs hstep
  cases heff with
  | next hread haccept => exact ⟨h.conn, h.pd⟩
  | accepted hfree hpc =>
    -- a new descriptor takes none of the old ones away
    refine ⟨fun j hj => ?_, h.pd⟩
    obtain ⟨c, hc⟩ := h.conn j hj
    exact ⟨c, update_some_of_open hfree hc⟩
  | @fromTcp fd c rest bytes env hpc hconn htun hpos hle =>
    have hpd := fromTcp_plenPd cfg s fd bytes env.stale
    refine ⟨fun j hj => ?_, fun j hj => ?_⟩
    · rw [(fromTcp_fds cfg s fd bytes env.stale).1]
      by_cases hfd : j.val = fd
      · exact ⟨c, hfd ▸ hconn⟩
      · rw [fromTcp_prefixes s (.inl hfd)] at hj
        exact h.conn j hj
    · rw [(hpd j).1] at hj
      exact (hpd j).2 (h.pd j hj)
  | fromTun hpc hpos hle hrun =>
    have hfwd := forwarded_of_fromTun hle hrun
    -- a reload gives blocks only to entries that had an address
    have hused : ∀ j, (s'.prefixes j).InUse → (s.prefixes j).plenLl ≠ 0 := by
      intro j hj
      rcases hj with hpd | hll
      · exact (hfwd.prefixes.plenPd j hpd).elim (h.pd j) id
      · rwa [← hfwd.prefixes.plenLl j]
    refine ⟨fun j hj => ?_, fun j hj => ?_⟩
    · obtain ⟨c, hc⟩ := h.conn j (.inr (hused j hj))
      exact ⟨c, hfwd.of_open hc⟩
    · rw [hfwd.prefixes.plenLl j]
      exact hused j (.inl hj)
  | @closed fd rest r env hpc hreg hsfd hr =>
    -- the entry of the descriptor closed is not in use any more
    have hother : ∀ j : Fin 512, ((s.close cfg fd rest).1.prefixes j).InUse → j.val ≠ fd := by
      intro j hj he
      rw [close_prefixes, if_pos he] at hj
      exact SocketPrefix.clear_not_inUse _ hj
    refine ⟨fun j hj => ?_, fun j hj => ?_⟩
    · have hne := hother j hj
      rw [close_prefixes, if_neg hne] at hj
      rw [(close_fds cfg s fd rest).1, Function.update_of_ne hne]
      exact h.conn j hj
    · have hne := hother j (.inl hj)
      rw [close_prefixes, if_neg hne] at hj ⊢
      exact h.pd j hj

/-- **Run lemma.**  Every reachable state is sane and has a table that follows the open
    connections. -/
theorem tableOk_of_run (is : List ServerInput) (s : Server) (o : List ServerObs)
    (hrun : (server cfg).run is = some (s, o)) : Sane cfg s ∧ TableOk s :=
  Machine.run_invariant (I := fun s => Sane cfg s ∧ TableOk s) ⟨sane_init, tableOk_init⟩
    (fun _ _ _ _ h hs => ⟨sane_step h.1 hs, tableOk_step h.1 h.2 hs⟩) is s o hrun

/-! ### What was learned stays -/

/-- The connection `c` has `plen` and `addr` in entry `j`, unless it is closed for good. -/
structure Keeps (cfg : Config) (j : Fin 512) (c plen : ℕ) (addr : In6Addr) (s : Server) : Prop where
  sane : Sane cfg s
  lt : c < s.nextConn
  entry : s.fds j = some (.conn c) → (s.prefixes j).plenLl = plen ∧ (s.prefixes j).addrLl = addr

/-- **Step lemma.**  A connection that has learned its address keeps it. -/
theorem keeps_step {j : Fin 512} {c plen : ℕ} {addr : In6Addr} (hplen : plen ≠ 0) {s s' : Server}
    {i : ServerInput} {o : List ServerObs} (h : Keeps cfg j c plen addr s)
    (hstep : s.step cfg i = some (s', o)) : Keeps cfg j c plen addr s' := by
  refine ⟨sane_step h.sane hstep, h.lt.trans_le (nextConn_of_step h.sane hstep), fun hc => ?_⟩
  obtain ⟨hp, ha⟩ := h.entry (conn_of_step h.sane hstep hc h.lt)
  -- an address is learned only for an entry that has none
  rcases entry_of_step h.sane hstep hc with ⟨hp', ha'⟩ | ⟨addr', -, hll, -⟩
  · exact ⟨hp'.trans hp, ha'.trans ha⟩
  · exact absurd (hp.symm.trans hll) hplen

/-- **Run lemma.**  From any reachable state on, the address of a connection that has learned one
    stays the same while the connection is open. -/
theorem addrLl_of_runFrom {s s' : Server} {o o' : List ServerObs} (hs : Sane cfg s)
    (js : List ServerInput) (hrun : (server cfg).runFrom (s, o) js = some (s', o')) {j : Fin 512}
    {c : ℕ} (hc : s.fds j = some (.conn c)) (hc' : s'.fds j = some (.conn c))
    (hll : (s.prefixes j).plenLl ≠ 0) :
    (s'.prefixes j).plenLl = (s.prefixes j).plenLl ∧
      (s'.prefixes j).addrLl = (s.prefixes j).addrLl := by
  have hkeeps := Machine.runFrom_invariant (M := server cfg)
    (I := fun s' _ => Keeps cfg j c (s.prefixes j).plenLl (s.prefixes j).addrLl s')
    (fun _ _ _ _ _ h hstep => keeps_step hll h hstep) js s s' o o'
    ⟨hs, hs.fds.conn_lt j c hc, fun _ => ⟨rfl, rfl⟩⟩ hrun
  exact hkeeps.entry hc'

/-! ### Packets from TUN -/

/-- A packet read from TUN is written at most once, and to an open connection. -/
theorem forward_of_step {s s' : Server} {rest : List EpollEvent} {bytes : List UInt8}
    {env : ReadEnv} {o : List ServerObs} (hs : Sane cfg s) (ht : TableOk s)
    (hpc : s.pc = .reading cfg.tunFile rest)
    (hstep : s.step cfg (.read (.data bytes) env) = some (s', o)) :
    ∃ writes, o = .received cfg.tunFile (s.fds cfg.tunFile) bytes :: writes ∧
      writes.length ≤ 1 ∧ ∀ w ∈ writes, ∃ (j : Fin 512) (c : ℕ), s'.fds j = some (.conn c) ∧
        j.val ≠ cfg.sfd ∧ j.val ≠ cfg.efd ∧
        w = .wrote (s'.fds cfg.tunFile) j (some (.conn c)) bytes := by
  have hs' := sane_step hs hstep
  have ht' := tableOk_step hs ht hstep
  obtain ⟨hle, hrun⟩ := fromTun_of_step hstep hpc
  obtain ⟨j, ho, hj⟩ := (forwarded_of_fromTun hle hrun).obs
  refine ⟨s'.forward cfg bytes j, ho, ?_, fun w hw => ?_⟩
  · cases j with
    | none => exact Nat.zero_le _
    | some j => exact le_rfl
  · cases j with
    | none => cases hw
    | some j =>
      -- the entry found is in use, so it belongs to an open connection
      obtain ⟨c, hc⟩ := ht'.conn j (hj j rfl)
      refine ⟨j, c, hc, fun he => ?_, fun he => ?_, ?_⟩
      · rw [he, hs'.fds.listening] at hc; cases hc
      · rw [he, hs'.fds.epoll] at hc; cases hc
      · rw [← hc]
        exact List.mem_singleton.mp hw

/-! ### Stores outside the arrays -/

/-- The assignments a step loads: those found for a packet into the /52 that finds no entry. -/
def Server.loads (cfg : Config) (s : Server) : ServerInput → Option Assignments
  | .read (.data bytes) env =>
    let buf := env.stale.copy 0 bytes
    if s.pc.readingFd = some cfg.tunFile ∧ version buf = 6 ∧ cfg.inSlash52 (daddr buf) = true ∧
        findPd s.prefixes (daddr buf) = none then env.assignments
    else none
  | _ => none

/-- A step that closes a descriptor below 512, if any, and loads a file without short lines, if
    any. -/
def StaysInside (cfg : Config) (s : Server) (o : List ServerObs) (i : ServerInput) : Prop :=
  ClosesBelow s o i ∧ ∀ a ∈ s.loads cfg i, ∀ line ∈ fgetsLines [] a.contents, ¬ Short line

instance (s : Server) (o : List ServerObs) (i : ServerInput) : Decidable (StaysInside cfg s o i) :=
  haveI : Decidable (∀ a ∈ s.loads cfg i, ∀ line ∈ fgetsLines [] a.contents, ¬ Short line) :=
    @Option.decidableForallMem _ _ (fun _ => List.decidableBAll _ _) _
  inferInstanceAs (Decidable (_ ∧ _))

/-- A step that closes and loads nothing. -/
theorem staysInside_of_none {s : Server} {o : List ServerObs} {i : ServerInput}
    (hc : s.closes i = none) (hl : s.loads cfg i = none) : StaysInside cfg s o i := by
  refine ⟨fun fd hfd => ?_, fun a ha => ?_⟩
  · rw [hc] at hfd
    cases hfd
  · rw [hl] at ha
    cases ha

/-- No step is taken from an undefined state. -/
theorem defined_of_step {s s' : Server} {i : ServerInput} {e : List ServerObs}
    (hs : s.step cfg i = some (s', e)) : s.pc ≠ .undefined := by
  intro hpc
  cases i with
  | epollWait events => simp [Server.step, hpc] at hs
  | accept r => simp [Server.step, hpc] at hs
  | read r env => simp [Server.step, hpc] at hs

theorem nextPc_defined (cfg : Config) (rest : List EpollEvent) : nextPc cfg rest ≠ .undefined := by
  unfold nextPc
  split
  · exact fun h => by cases h
  · split_ifs
    · exact fun h => by cases h
    · exact fun h => by cases h

/-- A packet from TUN leaves the line array exactly if it loads a file with a short line. -/
theorem fromTun_defined_iff {s s' : Server} {rest : List EpollEvent} {bytes : List UInt8}
    {env : ReadEnv} {e : List ServerObs} (hpc : s.pc = .reading cfg.tunFile rest)
    (hle : bytes.length ≤ 4096) (hs : s.fromTun cfg bytes env = some (s', e)) :
    s'.pc ≠ .undefined ↔ ∀ a ∈ s.loads cfg (.read (.data bytes) env),
      ∀ line ∈ fgetsLines [] a.contents, ¬ Short line := by
  have hdefined : s.pc ≠ .undefined := by rw [hpc]; exact fun h => by cases h
  have hfd : s.pc.readingFd = some cfg.tunFile := by rw [hpc]; rfl
  -- a packet that makes the server load nothing
  have hkeep : s.loads cfg (.read (.data bytes) env) = none → s' = s →
      (s'.pc ≠ .undefined ↔ ∀ a ∈ s.loads cfg (.read (.data bytes) env),
        ∀ line ∈ fgetsLines [] a.contents, ¬ Short line) := by
    rintro hnone rfl
    rw [hnone]
    exact iff_of_true hdefined fun a ha => by cases ha
  by_cases hv : version (env.stale.copy 0 bytes) = 6
  · by_cases h52 : cfg.inSlash52 (daddr (env.stale.copy 0 bytes)) = true
    · have hloads : findPd s.prefixes (daddr (env.stale.copy 0 bytes)) = none →
          s.loads cfg (.read (.data bytes) env) = env.assignments :=
        fun hmiss => if_pos ⟨hfd, hv, h52, hmiss⟩
      cases lookup52_of_fromTun hpc hle hs hv h52 with
      | hit j hfind hs' ho =>
        refine hkeep (if_neg fun h => ?_) hs'
        rw [hfind] at h
        cases h.2.2.2
      | unreadable hfind ha hs' ho =>
        rw [hloads hfind, ha, hs']
        exact iff_of_true (fun h => by cases h) fun a h => by cases h
      | overrun a hfind ha hload hs' ho =>
        obtain ⟨line, hline, hshort⟩ := (parsePrefixes_eq_none_iff _ _).mp hload
        rw [hs', reload_of_none hload, hloads hfind, ha]
        exact iff_of_false (fun h => h rfl) fun h => h a rfl line hline hshort
      | loaded a hfind ha hload hs' ho =>
        have hpc' : s'.pc = s.pc := by rw [hs', reload_of_some hload]
        rw [hpc', hloads hfind, ha]
        refine iff_of_true hdefined fun a' ha' line hline hshort => ?_
        obtain rfl := Option.some.inj ha'
        rw [(parsePrefixes_eq_none_iff _ _).mpr ⟨line, hline, hshort⟩] at hload
        cases hload
    · exact hkeep (if_neg fun h => h52 h.2.2.1) (fromTun_of_not52 hle hs hv h52).1
  · simp only [Server.fromTun, hv, ne_eq, not_false_eq_true, if_true] at hs
    obtain ⟨rfl, -⟩ := Prod.mk.inj (Option.some.inj hs)
    exact hkeep (if_neg fun h => hv h.2.1) rfl

/-- **Step lemma.**  The program is defined behind a step exactly if the step stays inside its
    arrays. -/
theorem defined_step {s s' : Server} {o e : List ServerObs} {i : ServerInput} (h : Sane cfg s)
    (hs : s.step cfg i = some (s', e)) : s'.pc ≠ .undefined ↔ StaysInside cfg s o i := by
  have hdefined := defined_of_step hs
  have heff := effect_of_step h hs
  cases heff with
  | next hread haccept =>
    refine iff_of_true (nextPc_defined cfg _) ?_
    cases i with
    | epollWait events => exact staysInside_of_none rfl rfl
    | accept r => exact staysInside_of_none rfl rfl
    | read r env =>
      obtain rfl := hread r env rfl
      exact staysInside_of_none rfl rfl
  | accepted hfree hpc =>
    refine iff_of_true ?_ (staysInside_of_none rfl rfl)
    rcases hpc with rfl | rfl
    · exact hdefined
    · exact fun h => by cases h
  | @fromTcp fd c rest bytes env hpc hconn htun hpos hle =>
    rw [(fromTcp_fds cfg s fd bytes env.stale).2.2]
    refine iff_of_true hdefined (staysInside_of_none rfl (if_neg fun h => ?_))
    rw [hpc] at h
    exact htun (Option.some.inj h.1)
  | fromTun hpc hpos hle hrun =>
    rw [fromTun_defined_iff hpc hle hrun]
    exact (and_iff_right fun fd hfd => by cases hfd).symm
  | @closed fd rest r env hpc hreg hsfd hr =>
    have hcloses : s.closes (.read r env) = some fd := by
      rcases hr with rfl | rfl
      · simp [Server.closes, ReadResult.isEnd, hpc, Pc.readingFd]
      · simp [Server.closes, ReadResult.isEnd, hpc, Pc.readingFd]
    have hloads : s.loads cfg (.read r env) = none := by
      rcases hr with rfl | rfl
      · rfl
      · rfl
    have hinside : StaysInside cfg s o (.read r env) ↔ fd < 512 := by
      simp [StaysInside, ClosesBelow, hcloses, hloads]
    rw [hinside]
    unfold Server.close
    by_cases hlt : fd < 512
    · rw [dif_pos hlt]
      exact iff_of_true (nextPc_defined cfg rest) hlt
    · rw [dif_neg hlt]
      exact iff_of_false (fun hne => hne rfl) hlt

/-! ### The routing table over every run -/

/-- The table follows the connections behind a run: the program is defined; an entry with a prefix
    length set is the entry of an open connection, and one with a block has an address; a
    connection accepted now starts without either, whatever its descriptor was before; the address
    of a connection does not change while it is open; and a packet read from TUN is written to at
    most one descriptor, which is an open connection. -/
structure FollowsConnections (cfg : Config) (is : List ServerInput) (s : Server)
    (o : List ServerObs) : Prop where
  defined : s.pc ≠ .undefined
  conn : ∀ j, (s.prefixes j).plenLl ≠ 0 ∨ (s.prefixes j).plenPd ≠ 0 →
    ∃ c, s.fds j = some (.conn c)
  pd : ∀ j, (s.prefixes j).plenPd ≠ 0 → (s.prefixes j).plenLl ≠ 0
  accepted : ∀ (j : Fin 512) setUp s' e,
    s.step cfg (.accept (.connected j setUp)) = some (s', e) →
      s'.fds j = some (.conn s.nextConn) ∧ (s'.prefixes j).plenLl = 0 ∧
        (s'.prefixes j).plenPd = 0
  addrLl : ∀ js s' o' (j : Fin 512) c, (server cfg).Along (StaysInside cfg) (is ++ js) →
    (server cfg).runFrom (s, o) js = some (s', o') → s.fds j = some (.conn c) →
      s'.fds j = some (.conn c) → (s.prefixes j).plenLl ≠ 0 →
      (s'.prefixes j).plenLl = (s.prefixes j).plenLl ∧
        (s'.prefixes j).addrLl = (s.prefixes j).addrLl
  forwarded : ∀ rest bytes env s' e, StaysInside cfg s o (.read (.data bytes) env) →
    s.pc = .reading cfg.tunFile rest → s.step cfg (.read (.data bytes) env) = some (s', e) →
      ∃ writes, e = .received cfg.tunFile (s.fds cfg.tunFile) bytes :: writes ∧
        writes.length ≤ 1 ∧ ∀ w ∈ writes, ∃ (j : Fin 512) (c : ℕ), s'.fds j = some (.conn c) ∧
          j.val ≠ cfg.sfd ∧ j.val ≠ cfg.efd ∧
          w = .wrote (s'.fds cfg.tunFile) j (some (.conn c)) bytes

/-- **The routing table.**  The table follows the connections behind exactly the runs in which
    no descriptor from 512 on is closed, and no assignments with a short line are loaded. -/
theorem routing_table (is : List ServerInput) (s : Server) (o : List ServerObs)
    (hrun : (server cfg).run is = some (s, o)) :
    FollowsConnections cfg is s o ↔ (server cfg).Along (StaysInside cfg) is := by
  have hdefined : s.pc ≠ .undefined ↔ (server cfg).Along (StaysInside cfg) is :=
    Machine.iff_along (M := server cfg) (I := fun s _ => s.pc ≠ .undefined)
      (J := fun s _ => Sane cfg s) (fun h => by cases h) sane_init
      (fun _ _ _ _ _ h hs => sane_step h hs)
      (fun s o i s' e h hs => (defined_step h hs).trans (and_iff_right (defined_of_step hs)).symm)
      is s o hrun
  refine ⟨fun h => hdefined.mp h.defined, fun halong => ?_⟩
  obtain ⟨hs, ht⟩ := tableOk_of_run is s o hrun
  refine ⟨hdefined.mpr halong, fun j hj => ht.conn j hj.symm, ht.pd, ?_, ?_, ?_⟩
  · intro j setUp s' e hstep
    have heff := effect_of_step hs hstep
    cases heff with
    | accepted hfree hpc =>
      -- the descriptor was free, so its entry was not in use
      exact ⟨Function.update_self .., ht.of_free hfree⟩
    | next hread haccept => exact absurd rfl (haccept j setUp)
  · intro js s' o' j c _ hruns hc hc' hll
    exact addrLl_of_runFrom hs js hruns hc hc' hll
  · intro rest bytes env s' e _ hpc hstep
    exact forward_of_step hs ht hpc hstep

/-- A client connects and presents `fe80::1`. -/
def oneClient : List ServerInput :=
  connects 7 ++ delivers 7 [helloOf 1]

/-- `routing_table` on that run: the entry set belongs to the client. -/
theorem routing_table_oneClient :
    ∃ s o, (server Config.sample).run oneClient = some (s, o) ∧ s.pc = .epollWait ∧
      (s.prefixes 7).plenLl = 128 ∧ (s.prefixes 7).addrLl = linkLocal 1 ∧
      s.fds 7 = some (.conn 0) ∧ FollowsConnections Config.sample oneClient s o := by
  obtain ⟨s, o, hrun, hpc, hll, ha, hc⟩ :
      ∃ s o, (server Config.sample).run oneClient = some (s, o) ∧ s.pc = .epollWait ∧
        (s.prefixes 7).plenLl = 128 ∧ (s.prefixes 7).addrLl = linkLocal 1 ∧
        s.fds 7 = some (.conn 0) :=
    (server Config.sample).exists_run (by decide +kernel)
  exact ⟨s, o, hrun, hpc, hll, ha, hc,
    (routing_table oneClient s o hrun).mpr (Machine.along_of_alongFrom (by decide +kernel))⟩

/-- A file of one line, `" \n"`. -/
def blankLine (fd : ℕ) : Assignments := ⟨fd, [blank, newline], fun _ => ⟨fun _ => 0, fun _ => 0⟩⟩

/-- A packet for the /52 makes the server load this file, opened on 6. -/
def loadsBlankLine : List ServerInput :=
  [.epollWait [readable 3],
    .read (.data (packetOf (linkLocal 2) (addrOf [0x20, 0x01, 0x0d, 0xb8])))
      ⟨fun _ => 0, some (blankLine 6)⟩]

/-- The digits are stored in front of `line[]`, with no client connected and no descriptor from 512
    on. -/
theorem blank_line_leaves_line :
    ∃ s o, (server Config.sample).run loadsBlankLine = some (s, o) ∧ s.pc = .undefined ∧
      (server Config.sample).Along ClosesBelow loadsBlankLine ∧
      ¬ FollowsConnections Config.sample loadsBlankLine s o := by
  obtain ⟨s, o, hrun, hpc⟩ :
      ∃ s o, (server Config.sample).run loadsBlankLine = some (s, o) ∧ s.pc = .undefined :=
    (server Config.sample).exists_run (by decide +kernel)
  exact ⟨s, o, hrun, hpc, Machine.along_of_alongFrom (by decide +kernel),
    fun h => h.defined hpc⟩

end Gap.Tunnel
