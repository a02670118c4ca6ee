import Gap.Tunnel.Routing

namespace Gap.Tunnel

/-!
# Connections that have ended

* `SignalsEnd` — the events and results of `read` that tell the server of the end of a connection.
* `NoHangUp` — the steps of a run in which `epoll` reports no error or hang-up for a connection.
* `Gone` — the invariant after its end: no descriptor refers to the connection any more.
* `dead_connections_leave` — in such a run the end of a connection closes its descriptor and
  clears its entry, and nothing is written to it again.
* `hang_up_ignored` — with a hang-up the entry stays, and attracts packets.
-/

variable {cfg : Config}

/-! ### The end of a connection -/

/-- The input of a step tells of the end of connection `c` on descriptor `fd`: among the events of
    the batch there is an error or a hang-up for it, or it is read, with end-of-file or an error. -/
inductive SignalsEnd (s : Server) (c fd : ℕ) : ServerInput → Prop
  | hangUp {i : ServerInput} {ev : EpollEvent} (hev : ev ∈ s.rest i) (hfd : ev.fd = fd)
      (hconn : s.fds fd = some (.conn c)) (herr : ev.epollerr = true ∨ ev.epollhup = true) :
      SignalsEnd s c fd i
  | read {rest : List EpollEvent} {r : ReadResult} {env : ReadEnv} (hpc : s.pc = .reading fd rest)
      (hconn : s.fds fd = some (.conn c)) (hr : r = .error ∨ r = .eof) :
      SignalsEnd s c fd (.read r env)

/-- A step at which the end of connection `c` is not reported as an error or a hang-up, and is not
    read from a descriptor that has no entry. -/
def NoHangUp (c : ℕ) (s : Server) (_ : List ServerObs) : ServerInput → Prop
  | .epollWait events =>
    ∀ ev ∈ events, s.fds ev.fd = some (.conn c) → ev.epollerr = false ∧ ev.epollhup = false
  | .read r _ =>
    r.isEnd = true → ∀ fd ∈ s.pc.readingFd, s.fds fd = some (.conn c) → fd < 512
  | .accept _ => True

instance (c : ℕ) (s : Server) (o : List ServerObs) :
    (i : ServerInput) → Decidable (NoHangUp c s o i)
  | .epollWait _ => List.decidableBAll _ _
  | .read r _ =>
    haveI : Decidable (∀ fd ∈ s.pc.readingFd, s.fds fd = some (.conn c) → fd < 512) :=
      Option.decidableForallMem _
    inferInstanceAs (Decidable (r.isEnd = true → _))
  | .accept _ => isTrue trivial

/-! ### The events left of a batch -/

/-- The events of `c` among these report no error or hang-up. -/
def Quiet (c : ℕ) (fds : FdTable) (events : List EpollEvent) : Prop :=
  ∀ ev ∈ events, fds ev.fd = some (.conn c) → ev.epollerr = false ∧ ev.epollhup = false

theorem pendingEvents_nextPc {rest : List EpollEvent} {ev : EpollEvent}
    (h : ev ∈ pendingEvents (nextPc cfg rest)) : ev ∈ rest := by
  refine (List.dropWhile_suffix EpollEvent.isError (l := rest)).subset ?_
  unfold nextPc at h
  split at h
  · cases h
  · next first left heq =>
    rw [heq]
    by_cases hsfd : first.fd = cfg.sfd
    · rw [if_pos hsfd] at h
      exact List.mem_cons_of_mem _ h
    · rw [if_neg hsfd] at h
      exact List.mem_cons_of_mem _ h

/-- The events left of a step are quiet: they were, or they are those of a batch without
    hang-up. -/
theorem quiet_rest {c : ℕ} {s : Server} {o : List ServerObs} {i : ServerInput}
    (hq : Quiet c s.fds (pendingEvents s.pc)) (hC : NoHangUp c s o i) :
    Quiet c s.fds (s.rest i) := by
  rcases s.rest_eq i with ⟨events, rfl, hrest⟩ | hrest
  · exact hC
  · rw [hrest]
    exact hq

/-- The events left after the close path. -/
theorem pendingEvents_close {s : Server} {fd : ℕ} {rest : List EpollEvent} {ev : EpollEvent}
    (h : ev ∈ pendingEvents (s.close cfg fd rest).1.pc) : ev ∈ rest := by
  unfold Server.close at h
  by_cases hlt : fd < 512
  · rw [dif_pos hlt] at h
    exact pendingEvents_nextPc h
  · rw [dif_neg hlt] at h
    cases h

/-- No step adds an event to those left. -/
theorem pendingEvents_of_step {s s' : Server} {i : ServerInput} {e : List ServerObs}
    (h : Sane cfg s) (hs : s.step cfg i = some (s', e)) {ev : EpollEvent}
    (hev : ev ∈ pendingEvents s'.pc) : ev ∈ s.rest i := by
  have heff := effect_of_step h hs
  cases heff with
  | next hread haccept => exact pendingEvents_nextPc hev
  | accepted hfree hpc =>
    rcases hpc with rfl | rfl
    · exact hev
    · cases hev
  | @fromTcp fd c' rest bytes env hpc hconn htun hpos hle =>
    rwa [(fromTcp_fds cfg s fd bytes env.stale).2.2] at hev
  | fromTun hpc hpos hle hrun =>
    rcases (forwarded_of_fromTun hle hrun).pc with hsame | hexit | hundefined
    · rwa [hsame] at hev
    · rw [hexit] at hev
      cases hev
    · rw [hundefined] at hev
      cases hev
  | @closed fd rest r env hpc hreg hsfd hr =>
    rw [rest_of_reading hpc]
    exact pendingEvents_close hev

/-- **Step lemma.**  The events left stay quiet. -/
theorem quiet_step {c : ℕ} {s s' : Server} {o e : List ServerObs} {i : ServerInput}
    (h : Sane cfg s) (hq : Quiet c s.fds (pendingEvents s.pc)) (hC : NoHangUp c s o i)
    (hs : s.step cfg i = some (s', e)) : Quiet c s'.fds (pendingEvents s'.pc) := by
  intro ev hev hc
  have hleft := pendingEvents_of_step h hs hev
  rcases conn_cases h hs hc with hold | ⟨-, hfree, -⟩
  · exact quiet_rest hq hC ev hleft hold
  · -- an event left is about a descriptor that was open, not about the new one
    have hreg := (h.rest hs).2 ev.fd (List.mem_map_of_mem hleft)
    rw [hfree] at hreg
    cases hreg

/-! ### What the end of a connection does -/

/-- In a run without hang-up, the end of `c` is a read that closes its descriptor. -/
theorem close_of_signalsEnd {c fd : ℕ} {s s' : Server} {o e : List ServerObs} {i : ServerInput}
    (hq : Quiet c s.fds (pendingEvents s.pc)) (hC : NoHangUp c s o i)
    (hs : s.step cfg i = some (s', e)) (hsig : SignalsEnd s c fd i) :
    fd < 512 ∧ s.fds fd = some (.conn c) ∧ ∃ rest, s' = (s.close cfg fd rest).1 := by
  cases hsig with
  | @hangUp _ ev hev hfd hconn herr =>
    -- an error or a hang-up of `c` was not among the events left
    rw [← hfd] at hconn
    obtain ⟨h₁, h₂⟩ := quiet_rest hq hC ev hev hconn
    rw [h₁, h₂] at herr
    rcases herr with h | h
    · cases h
    · cases h
  | @read rest r env hpc hconn hr =>
    have hend : r.isEnd = true := by
      rcases hr with rfl | rfl
      · rfl
      · rfl
    refine ⟨hC hend fd (by rw [hpc]; rfl) hconn, hconn, rest, ?_⟩
    simp only [Server.step, hpc] at hs
    rcases hr with rfl | rfl
    · exact (Prod.mk.inj (Option.some.inj hs)).1.symm
    · exact (Prod.mk.inj (Option.some.inj hs)).1.symm

/-! ### After the end -/

/-- Connection `c` is over: no descriptor refers to it, and none will. -/
structure Gone (cfg : Config) (c : ℕ) (s : Server) : Prop where
  sane : Sane cfg s
  lt : c < s.nextConn
  closed : ∀ fd, s.fds fd ≠ some (.conn c)

/-- A connection is gone once its descriptor is closed. -/
theorem gone_of_close {c fd : ℕ} {s : Server} (h : Sane cfg s) (hc : s.fds fd = some (.conn c))
    {rest : List EpollEvent} (h' : Sane cfg (s.close cfg fd rest).1) :
    Gone cfg c (s.close cfg fd rest).1 := by
  obtain ⟨hfds, hnext⟩ := close_fds cfg s fd rest
  -- the descriptor closed was the only one of the connection
  refine ⟨h', by rw [hnext]; exact h.fds.conn_lt fd c hc, fun f hf => ?_⟩
  rw [hfds] at hf
  obtain ⟨hne, hf⟩ := of_update_none hf
  exact hne (h.fds.conn_inj f fd c hf hc)

/-- **Step lemma.**  A connection that is gone stays gone. -/
theorem gone_step {c : ℕ} {s s' : Server} {i : ServerInput} {e : List ServerObs}
    (h : Gone cfg c s) (hs : s.step cfg i = some (s', e)) : Gone cfg c s' where
  sane := sane_step h.sane hs
  lt := h.lt.trans_le (nextConn_of_step h.sane hs)
  closed fd hc := h.closed fd (conn_of_step h.sane hs hc h.lt)

/-- The end of connection `c` on descriptor `fd` has been dealt with: the descriptor is closed, its
    entry attracts nothing, and whatever happens next, nothing is written to the connection. -/
def Dropped (cfg : Config) (c fd : ℕ) (s : Server) : Prop :=
  s.fds fd = none ∧
    (∃ h : fd < 512, (s.prefixes ⟨fd, h⟩).plenLl = 0 ∧ (s.prefixes ⟨fd, h⟩).plenPd = 0) ∧
    ∀ js t o, (server cfg).runFrom (s, []) js = some (t, o) →
      ∀ src f bytes, .wrote src f (some (.conn c)) bytes ∉ o

/-- Nothing is written to a connection that is gone. -/
theorem Gone.not_wrote {c : ℕ} {s t : Server} {o : List ServerObs} (h : Gone cfg c s)
    (js : List ServerInput) (hrun : (server cfg).runFrom (s, []) js = some (t, o))
    (src : Option File) (f : ℕ) (bytes : List UInt8) :
    .wrote src f (some (.conn c)) bytes ∉ o := by
  have hgone := Machine.runFrom_invariant (M := server cfg)
    (I := fun s o => Gone cfg c s ∧ ServerObs.wrote src f (some (.conn c)) bytes ∉ o)
    (fun s o i s' e hI hstep => by
      have hnext := gone_step hI.1 hstep
      refine ⟨hnext, fun hmem => ?_⟩
      rcases List.mem_append.mp hmem with hold | hnew
      · exact hI.2 hold
      · -- a write goes to the file its descriptor refers to
        exact hnext.closed f (tellsOf_step hI.1.sane hstep hnew).symm)
    js s t [] o ⟨h, List.not_mem_nil⟩ hrun
  exact hgone.2

/-! ### Dead connections leave the routing table -/

/-- **Dead connections leave.**  In every run in which the end of connection `c` is reported by
    what is read, and not by an error or a hang-up event, the step that is told of it closes the
    descriptor and clears its entry, and nothing is written to the connection from then on. -/
theorem dead_connections_leave (c fd : ℕ) (is : List ServerInput) (i : ServerInput)
    (s s' : Server) (o e : List ServerObs)
    (halong : (server cfg).Along (NoHangUp c) (is ++ [i]))
    (hrun : (server cfg).run is = some (s, o)) (hstep : s.step cfg i = some (s', e))
    (hsig : SignalsEnd s c fd i) : Dropped cfg c fd s' := by
  have hinv : Sane cfg s ∧ Quiet c s.fds (pendingEvents s.pc) := by
    refine Machine.run_induct_along (C := NoHangUp c)
      (P := fun _ s _ => Sane cfg s ∧ Quiet c s.fds (pendingEvents s.pc))
      ⟨sane_init, fun ev hev => by cases hev⟩ ?_ is s o halong.init hrun
    intro is i s o s' e _ hI hC hs
    exact ⟨sane_step hI.1 hs, quiet_step hI.1 hI.2 hC hs⟩
  have hsane' := sane_step hinv.1 hstep
  obtain ⟨hlt, hconn, rest, rfl⟩ :=
    close_of_signalsEnd hinv.2 (halong.last hrun) hstep hsig
  have hgone := gone_of_close hinv.1 hconn hsane'
  refine ⟨?_, ⟨hlt, ?_⟩, fun js t o' hruns => hgone.not_wrote js hruns⟩
  · rw [(close_fds cfg s fd rest).1, Function.update_self]
  · rw [close_prefixes, if_pos rfl]
    exact ⟨rfl, rfl⟩

/-- `dead_connections_leave` when the client of `oneClient` closes its connection. -/
theorem dead_connections_leave_oneClient :
    ∃ s o s' e, (server Config.sample).run (oneClient ++ [.epollWait [readable 7]]) = some (s, o) ∧
      s.fds 7 = some (.conn 0) ∧ (s.prefixes 7).plenLl = 128 ∧
      s.step Config.sample (.read .eof ⟨fun _ => 0, none⟩) = some (s', e) ∧
      Dropped Config.sample 0 7 s' := by
  obtain ⟨s, o, hrun, hpc, hc, hll, hstep⟩ :
      ∃ s o, (server Config.sample).run (oneClient ++ [.epollWait [readable 7]]) = some (s, o) ∧
        s.pc = .reading 7 [] ∧ s.fds 7 = some (.conn 0) ∧ (s.prefixes 7).plenLl = 128 ∧
        (s.step Config.sample (.read .eof ⟨fun _ => 0, none⟩)).isSome = true :=
    (server Config.sample).exists_run (by decide +kernel)
  obtain ⟨r, hstep⟩ := Option.isSome_iff_exists.mp hstep
  exact ⟨s, o, r.1, r.2, hrun, hc, hll, hstep, dead_connections_leave 0 7 _ _ s r.1 o r.2
    (Machine.along_of_alongFrom (by decide +kernel)) hrun hstep (.read hpc hc (.inr rfl))⟩

/-- `epoll` reports data, an error and a hang-up for the client of `oneClient`. -/
def hangUp : ServerInput := .epollWait [⟨7, true, true, true⟩]

/-- After a hang-up nothing is closed or cleared, and a packet for the client is still written to
    its connection. -/
theorem hang_up_ignored :
    ∃ s o s' e, (server Config.sample).run oneClient = some (s, o) ∧
      s.step Config.sample hangUp = some (s', e) ∧ SignalsEnd s 0 7 hangUp ∧
      s'.pc = .epollWait ∧ ¬ Dropped Config.sample 0 7 s' ∧
      s'.fds 7 = some (.conn 0) ∧ (s'.prefixes 7).plenLl = 128 ∧
      ∃ t o', (server Config.sample).runFrom (s', [])
          (delivers 3 [packetOf (linkLocal 2) (linkLocal 1)]) = some (t, o') ∧
        .wrote (some .tun) 7 (some (.conn 0)) (packetOf (linkLocal 2) (linkLocal 1)) ∈ o' := by
  obtain ⟨s, o, hrun, hc, r, hstep, hpc, hopen, hll, q, hlater, hwrote⟩ :
      ∃ s o, (server Config.sample).run oneClient = some (s, o) ∧ s.fds 7 = some (.conn 0) ∧
        ∃ r ∈ s.step Config.sample hangUp, r.1.pc = .epollWait ∧
          r.1.fds 7 = some (.conn 0) ∧ (r.1.prefixes 7).plenLl = 128 ∧
          ∃ q ∈ (server Config.sample).runFrom (r.1, [])
              (delivers 3 [packetOf (linkLocal 2) (linkLocal 1)]),
            .wrote (some .tun) 7 (some (.conn 0)) (packetOf (linkLocal 2) (linkLocal 1)) ∈ q.2 :=
    (server Config.sample).exists_run (by decide +kernel)
  refine ⟨s, o, r.1, r.2, hrun, hstep, ?_, hpc, fun hdropped => ?_, hopen, hll, q.1, q.2, hlater,
    hwrote⟩
  · exact .hangUp (List.mem_singleton_self _) rfl hc (.inl rfl)
  · exact hdropped.2.2 _ _ _ hlater _ _ _ hwrote

end Gap.Tunnel
