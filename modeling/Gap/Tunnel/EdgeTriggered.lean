import Gap.Lib.Edge
import Gap.Tunnel.Steps

namespace Gap.Tunnel

/-!
# Edge-triggered readiness

Every descriptor is registered with `EPOLLET`: it is reported once for what arrives, so that both
drain loops have to go on until `EAGAIN`.  Here the server runs with what the kernel keeps of its
descriptors.

* `Epoll`, `epollServer` — the server and its descriptors as sources; connections and data arrive
  at any time.
* `pc_of_step` — where each call takes the server.
* `Tracks` — what is unsettled is still to be handled, or is the listening socket after an error.
* `edges_settled` — at `epoll_wait` everything is settled, and nothing stranded, exactly if the
  accept loop was last left with `EAGAIN`.
-/

variable {cfg : Config}

/-! ### The server and the kernel -/

/-- The server, and its descriptors as the kernel sees them. -/
structure Epoll where
  server : Server
  edge : Edge ℕ

/-- Data or a connection arrives; or the call the server waits in returns, with whether something
    is left where it took something from, and whether something is there already on a connection it
    has accepted. -/
inductive EpollInput
  | arrive (fd : ℕ)
  | call (i : ServerInput) (left fresh : Bool)

/-- What a call that returns means for the descriptors: `epoll_wait` reports what is queued, and
    `EAGAIN` is the answer where nothing is there. -/
def Epoll.answer (cfg : Config) (k : Epoll) (left fresh : Bool) : ServerInput → Option (Edge ℕ)
  | .epollWait events =>
    if ∀ ev ∈ events, k.edge.queued ev.fd = true then some (k.edge.report (events.map EpollEvent.fd))
    else none
  | .accept r =>
    match r with
    | .connected fd _ => some ((k.edge.take cfg.sfd left).add fd fresh)
    | .again => if k.edge.pending cfg.sfd then none else some (k.edge.foundEmpty cfg.sfd)
    -- say, a connection that was aborted in the backlog
    | .error => some (k.edge.take cfg.sfd left)
  | .read r _ =>
    match k.server.pc with
    | .reading fd _ =>
      match r with
      | .data _ => some (k.edge.take fd left)
      | .again => if k.edge.pending fd then none else some (k.edge.foundEmpty fd)
      | .error => some (k.edge.close fd)
      | .eof => some (k.edge.close fd)
    | _ => none

/-- One step of the two. -/
def Epoll.step (cfg : Config) (k : Epoll) : EpollInput → Option (Epoll × List ServerObs)
  | .arrive fd =>
    if registered (k.server.fds fd) then some ({ k with edge := k.edge.arrive fd }, []) else none
  | .call i left fresh =>
    (k.server.step cfg i).bind fun r =>
      (k.answer cfg left fresh i).map fun edge => (⟨r.1, edge⟩, r.2)

/-- The server in its kernel. -/
def epollServer (cfg : Config) : Machine Epoll EpollInput ServerObs :=
  ⟨⟨Server.init cfg, Edge.init⟩, Epoll.step cfg⟩

/-! ### Where a call takes the server -/

/-- The place in the program behind each call. -/
inductive Moves (cfg : Config) (s s' : Server) : ServerInput → Prop
  | wait {events : List EpollEvent} (hpc : s.pc = .epollWait) (hbatch : s.Batch events)
      (hpc' : s'.pc = nextPc cfg events) : Moves cfg s s' (.epollWait events)
  | connected {rest : List EpollEvent} {fd : ℕ} {setUp : Bool} (hpc : s.pc = .accepting rest)
      (hpc' : s'.pc = s.pc ∨ s'.pc = .exited) : Moves cfg s s' (.accept (.connected fd setUp))
  | accepted {rest : List EpollEvent} {r : AcceptResult} (hpc : s.pc = .accepting rest)
      (hr : r = .again ∨ r = .error) (hpc' : s'.pc = nextPc cfg rest) : Moves cfg s s' (.accept r)
  | data {fd : ℕ} {rest : List EpollEvent} {bytes : List UInt8} {env : ReadEnv}
      (hpc : s.pc = .reading fd rest)
      (hpc' : s'.pc = s.pc ∨ s'.pc = .exited ∨ s'.pc = .undefined) :
      Moves cfg s s' (.read (.data bytes) env)
  | again {fd : ℕ} {rest : List EpollEvent} {env : ReadEnv} (hpc : s.pc = .reading fd rest)
      (hpc' : s'.pc = nextPc cfg rest) : Moves cfg s s' (.read .again env)
  | ended {fd : ℕ} {rest : List EpollEvent} {r : ReadResult} {env : ReadEnv}
      (hpc : s.pc = .reading fd rest) (hr : r = .error ∨ r = .eof)
      (hpc' : s'.pc = nextPc cfg rest ∨ s'.pc = .undefined) : Moves cfg s s' (.read r env)

/-- Behind the close path, the events left are handled, unless its stores were outside the table. -/
theorem close_pc (cfg : Config) (s : Server) (fd : ℕ) (rest : List EpollEvent) :
    (s.close cfg fd rest).1.pc = nextPc cfg rest ∨ (s.close cfg fd rest).1.pc = .undefined := by
  unfold Server.close
  by_cases hlt : fd < 512
  · rw [dif_pos hlt]
    exact .inl rfl
  · rw [dif_neg hlt]
    exact .inr rfl

theorem moves_of_step {s s' : Server} {i : ServerInput} {e : List ServerObs}
    (hsane : Sane cfg s) (hs : s.step cfg i = some (s', e)) : Moves cfg s s' i := by
  cases i with
  | epollWait events =>
    simp only [Server.step] at hs
    split at hs
    · next hpc =>
      obtain ⟨hbatch, hs⟩ := Option.ite_none_right_eq_some.mp hs
      obtain ⟨rfl, -⟩ := Prod.mk.inj (Option.some.inj hs)
      exact .wait hpc hbatch rfl
    · cases hs
  | accept r =>
    simp only [Server.step] at hs
    split at hs
    · next rest hpc =>
      cases r with
      | connected fd setUp =>
        obtain ⟨-, hs⟩ := Option.ite_none_left_eq_some.mp hs
        obtain ⟨rfl, -⟩ := Prod.mk.inj (Option.some.inj hs)
        refine .connected hpc ?_
        cases setUp with
        | true => exact .inl hpc.symm
        | false => exact .inr rfl
      | again =>
        obtain ⟨rfl, -⟩ := Prod.mk.inj (Option.some.inj hs)
        exact .accepted hpc (.inl rfl) rfl
      | error =>
        obtain ⟨rfl, -⟩ := Prod.mk.inj (Option.some.inj hs)
        exact .accepted hpc (.inr rfl) rfl
    · cases hs
  | read r env =>
    cases hpc : s.pc with
    | reading fd rest =>
      cases r with
      | data bytes =>
        refine .data hpc ?_
        by_cases htun : fd = cfg.tunFile
        · subst htun
          obtain ⟨hle, hrun⟩ := fromTun_of_step hs hpc
          exact (forwarded_of_fromTun hle hrun).pc
        · obtain ⟨-, rfl, -⟩ := fromTcp_of_step hsane hs hpc htun
          exact .inl (fromTcp_fds cfg s fd bytes env.stale).2.2
      | again =>
        simp only [Server.step, hpc] at hs
        obtain ⟨rfl, -⟩ := Prod.mk.inj (Option.some.inj hs)
        exact .again hpc rfl
      | error =>
        simp only [Server.step, hpc] at hs
        obtain ⟨rfl, -⟩ := Prod.mk.inj (Option.some.inj hs)
        exact .ended hpc (.inl rfl) (close_pc cfg s fd rest)
      | eof =>
        simp only [Server.step, hpc] at hs
        obtain ⟨rfl, -⟩ := Prod.mk.inj (Option.some.inj hs)
        exact .ended hpc (.inr rfl) (close_pc cfg s fd rest)
    | epollWait | accepting | exited | undefined =>
      simp only [Server.step, hpc, reduceCtorEq] at hs

/-! ### What is unsettled -/

/-- The descriptors of the batch that have not been handled to the end. -/
def toHandle (cfg : Config) : Pc → List ℕ
  | .accepting rest => cfg.sfd :: rest.map EpollEvent.fd
  | .reading fd rest => fd :: rest.map EpollEvent.fd
  | _ => []

/-- The event loop is running. -/
def Live (pc : Pc) : Prop := pc ≠ .exited ∧ pc ≠ .undefined

/-- The batch has `EPOLLIN` and no error flag on every event. -/
def EpollInput.NoErrorFlags : EpollInput → Prop
  | .call (.epollWait events) _ _ => ∀ ev ∈ events, ev.isError = false
  | _ => True

/-- Whether `accept` has ended the accept loop with an error other than `EAGAIN`. -/
def acceptOutcome (failed : Bool) : EpollInput → Bool
  | .call (.accept .again) _ _ => false
  | .call (.accept .error) _ _ => true
  | _ => failed

/-- It has when the loop was last left. -/
def acceptFailed (is : List EpollInput) : Bool := is.foldl acceptOutcome false

theorem acceptFailed_concat (is : List EpollInput) (i : EpollInput) :
    acceptFailed (is ++ [i]) = acceptOutcome (acceptFailed is) i := by
  rw [acceptFailed, List.foldl_append, List.foldl_cons, List.foldl_nil, acceptFailed]

/-- Without error flags, every event left is handled. -/
theorem toHandle_nextPc (cfg : Config) {rest : List EpollEvent} (h : ∀ ev ∈ rest, ev.isError = false) :
    toHandle cfg (nextPc cfg rest) = rest.map EpollEvent.fd ∧
      ∀ ev ∈ pendingEvents (nextPc cfg rest), ev ∈ rest := by
  unfold nextPc
  cases rest with
  | nil => exact ⟨rfl, fun _ hev => hev⟩
  | cons ev rest =>
    have hdrop : (ev :: rest).dropWhile EpollEvent.isError = ev :: rest :=
      List.dropWhile_cons_of_neg (by simp [h ev List.mem_cons_self])
    rw [hdrop]
    simp only
    by_cases hsfd : ev.fd = cfg.sfd
    · rw [if_pos hsfd, List.map_cons, hsfd]
      exact ⟨rfl, fun _ hev => List.mem_cons_of_mem _ hev⟩
    · rw [if_neg hsfd]
      exact ⟨rfl, fun _ hev => List.mem_cons_of_mem _ hev⟩

/-- What is unsettled is still to be handled; or it is the listening socket, if the accept loop was
    left with an error. -/
structure Tracks (cfg : Config) (k : Epoll) (failed : Bool) : Prop where
  noError : ∀ ev ∈ pendingEvents k.server.pc, ev.isError = false
  nodup : (toHandle cfg k.server.pc).Nodup
  unsettled : ∀ fd, k.edge.unsettled fd = true ↔
    fd ∈ toHandle cfg k.server.pc ∨ fd = cfg.sfd ∧ failed = true
  covered : k.edge.Covered

/-- The handler of the first descriptor is left. -/
theorem Tracks.advance {k k' : Epoll} {failed failed' : Bool} {fd : ℕ} {rest : List EpollEvent}
    (h : Tracks cfg k failed) (hhandle : toHandle cfg k.server.pc = fd :: rest.map EpollEvent.fd)
    (hrest : pendingEvents k.server.pc = rest) (hpc' : k'.server.pc = nextPc cfg rest)
    (hfd : k'.edge.unsettled fd = true ↔ fd = cfg.sfd ∧ failed' = true)
    (hothers : ∀ f, f ≠ fd → k'.edge.unsettled f = k.edge.unsettled f)
    (hfailed : fd ≠ cfg.sfd → failed' = failed) (hcovered : k'.edge.Covered) :
    Tracks cfg k' failed' := by
  have hnoError := h.noError
  have hnodup := h.nodup
  rw [hrest] at hnoError
  rw [hhandle, List.nodup_cons] at hnodup
  obtain ⟨hhandle', hpending⟩ := toHandle_nextPc cfg hnoError
  refine ⟨fun ev hev => ?_, ?_, fun f => ?_, hcovered⟩
  · rw [hpc'] at hev
    exact hnoError ev (hpending ev hev)
  · rw [hpc', hhandle']
    exact hnodup.2
  · rw [hpc', hhandle']
    by_cases hf : f = fd
    · subst hf
      rw [hfd]
      exact ⟨.inr, fun hor => hor.resolve_left hnodup.1⟩
    · rw [hothers f hf, h.unsettled f, hhandle, List.mem_cons, or_iff_right hf]
      refine or_congr_right (and_congr_right fun hsfd => ?_)
      rw [hfailed fun hfd => hf (hsfd.trans hfd.symm)]

/-- Nothing is handled to the end, or reported. -/
theorem Tracks.stay {k k' : Epoll} {failed : Bool} (h : Tracks cfg k failed)
    (hpc' : k'.server.pc = k.server.pc) (hunsettled : k'.edge.unsettled = k.edge.unsettled)
    (hcovered : k'.edge.Covered) : Tracks cfg k' failed := by
  refine ⟨?_, ?_, ?_, hcovered⟩
  · rw [hpc']
    exact h.noError
  · rw [hpc']
    exact h.nodup
  · rw [hpc', hunsettled]
    exact h.unsettled

/-- A batch is reported. -/
theorem Tracks.report {k k' : Epoll} {failed : Bool} {events : List EpollEvent}
    (h : Tracks cfg k failed) (hpc : k.server.pc = .epollWait)
    (hnodup : (events.map EpollEvent.fd).Nodup) (hnoError : ∀ ev ∈ events, ev.isError = false)
    (hpc' : k'.server.pc = nextPc cfg events)
    (hedge : k'.edge = k.edge.report (events.map EpollEvent.fd)) : Tracks cfg k' failed := by
  obtain ⟨hhandle, hpending⟩ := toHandle_nextPc cfg hnoError
  refine ⟨fun ev hev => ?_, ?_, fun fd => ?_, ?_⟩
  · rw [hpc'] at hev
    exact hnoError ev (hpending ev hev)
  · rw [hpc', hhandle]
    exact hnodup
  · have hold := h.unsettled fd
    rw [hpc] at hold
    rw [hpc', hhandle, hedge]
    simp only [Edge.report, Bool.or_eq_true, decide_eq_true_eq, hold, toHandle, List.not_mem_nil,
      false_or]
    exact or_comm
  · rw [hedge]
    exact h.covered.report _

/-- The descriptor a call was made on is unsettled. -/
theorem Tracks.unsettled_head {k : Epoll} {failed : Bool} {fd : ℕ} {fds : List ℕ}
    (h : Tracks cfg k failed) (hhandle : toHandle cfg k.server.pc = fd :: fds) :
    k.edge.unsettled fd = true := by
  rw [h.unsettled fd, hhandle]
  exact .inl List.mem_cons_self

/-- **Step lemma.**  While the event loop is running. -/
theorem tracks_step {k k' : Epoll} {failed : Bool} {i : EpollInput} {e : List ServerObs}
    (hsane : Sane cfg k.server) (h : Tracks cfg k failed) (hi : i.NoErrorFlags)
    (hs : k.step cfg i = some (k', e)) (hlive : Live k'.server.pc) :
    Tracks cfg k' (acceptOutcome failed i) := by
  cases i with
  | arrive fd =>
    obtain ⟨-, hs⟩ := Option.ite_none_right_eq_some.mp hs
    obtain ⟨rfl, -⟩ := Prod.mk.inj (Option.some.inj hs)
    exact h.stay rfl rfl (h.covered.arrive fd)
  | call i left fresh =>
    obtain ⟨⟨s', e'⟩, hserver, hs⟩ := Option.bind_eq_some_iff.mp hs
    obtain ⟨edge, hanswer, hs⟩ := Option.map_eq_some_iff.mp hs
    obtain ⟨rfl, -⟩ := Prod.mk.inj hs
    cases moves_of_step hsane hserver with
    | wait hpc hbatch hpc' =>
      obtain ⟨-, hanswer⟩ := Option.ite_none_right_eq_some.mp hanswer
      obtain rfl := Option.some.inj hanswer
      exact h.report hpc hbatch.2.1 hi hpc' rfl
    | connected hpc hpc' =>
      obtain rfl := Option.some.inj hanswer
      have hhead := h.unsettled_head (by rw [hpc]; rfl)
      exact h.stay (hpc'.resolve_right hlive.1) rfl ((h.covered.take hhead left).add _ fresh)
    | @accepted rest r hpc hr hpc' =>
      have hhandle : toHandle cfg k.server.pc = cfg.sfd :: rest.map EpollEvent.fd := by rw [hpc]; rfl
      have hrest : pendingEvents k.server.pc = rest := by rw [hpc]; rfl
      rcases hr with rfl | rfl
      · obtain ⟨hempty, hanswer⟩ := Option.ite_none_left_eq_some.mp hanswer
        obtain rfl := Option.some.inj hanswer
        refine h.advance hhandle hrest hpc' ?_ (fun f hf => Function.update_of_ne hf _ _)
          (fun hne => absurd rfl hne) (h.covered.foundEmpty (by simpa using hempty))
        simp [Edge.foundEmpty, acceptOutcome]
      · obtain rfl := Option.some.inj hanswer
        have hhead := h.unsettled_head hhandle
        refine h.advance hhandle hrest hpc' ?_ (fun f hf => rfl) (fun hne => absurd rfl hne)
          (h.covered.take hhead left)
        simp [Edge.take, acceptOutcome, hhead]
    | @data fd rest bytes env hpc hpc' =>
      simp only [Epoll.answer, hpc] at hanswer
      obtain rfl := Option.some.inj hanswer
      have hhead := h.unsettled_head (by rw [hpc]; rfl)
      have hsame := hpc'.resolve_right (not_or.mpr hlive)
      exact h.stay hsame rfl (h.covered.take hhead left)
    | @again fd rest env hpc hpc' =>
      simp only [Epoll.answer, hpc] at hanswer
      obtain ⟨hempty, hanswer⟩ := Option.ite_none_left_eq_some.mp hanswer
      obtain rfl := Option.some.inj hanswer
      have hsfd := hsane.pc.reading fd rest hpc
      refine h.advance (by rw [hpc]; rfl) (by rw [hpc]; rfl) hpc' ?_
        (fun f hf => Function.update_of_ne hf _ _) (fun _ => rfl)
        (h.covered.foundEmpty (by simpa using hempty))
      simp [Edge.foundEmpty, hsfd]
    | @ended fd rest r env hpc hr hpc' =>
      have hclose : edge = k.edge.close fd := by
        rcases hr with rfl | rfl
        all_goals
          simp only [Epoll.answer, hpc] at hanswer
          exact (Option.some.inj hanswer).symm
      have hsfd := hsane.pc.reading fd rest hpc
      refine h.advance (by rw [hpc]; rfl) (by rw [hpc]; rfl) (hpc'.resolve_right hlive.2) ?_
        (fun f hf => ?_) (fun _ => rfl) (by rw [hclose]; exact h.covered.close fd)
      · simp [hclose, Edge.close, hsfd]
      · rw [hclose]
        exact Function.update_of_ne hf _ _

theorem tracks_init : Tracks cfg ⟨Server.init cfg, Edge.init⟩ false where
  noError ev hev := by cases hev
  nodup := List.nodup_nil
  unsettled fd := by simp [Edge.init, Server.init, toHandle]
  covered := Edge.covered_init

/-- Only a running event loop takes a step of its own. -/
theorem live_of_step {k k' : Epoll} {i : EpollInput} {e : List ServerObs}
    (hsane : Sane cfg k.server) (hs : k.step cfg i = some (k', e)) :
    Sane cfg k'.server ∧ (Live k'.server.pc → Live k.server.pc) := by
  cases i with
  | arrive fd =>
    obtain ⟨-, hs⟩ := Option.ite_none_right_eq_some.mp hs
    obtain ⟨rfl, -⟩ := Prod.mk.inj (Option.some.inj hs)
    exact ⟨hsane, id⟩
  | call i left fresh =>
    obtain ⟨⟨s', e'⟩, hserver, hs⟩ := Option.bind_eq_some_iff.mp hs
    obtain ⟨edge, -, hs⟩ := Option.map_eq_some_iff.mp hs
    obtain ⟨rfl, -⟩ := Prod.mk.inj hs
    refine ⟨sane_step hsane hserver, fun _ => ?_⟩
    cases moves_of_step hsane hserver with
    | wait hpc => simp [Live, hpc]
    | connected hpc | accepted hpc => simp [Live, hpc]
    | data hpc | again hpc | ended hpc => simp [Live, hpc]

/-- **Run lemma.** -/
theorem tracks_of_run (is : List EpollInput) (k : Epoll) (o : List ServerObs)
    (hclean : ∀ i ∈ is, i.NoErrorFlags) (hrun : (epollServer cfg).run is = some (k, o)) :
    Sane cfg k.server ∧ (Live k.server.pc → Tracks cfg k (acceptFailed is)) := by
  refine Machine.run_induct_along (C := fun _ _ i => i.NoErrorFlags)
    (P := fun is k _ => Sane cfg k.server ∧ (Live k.server.pc → Tracks cfg k (acceptFailed is)))
    ⟨sane_init, fun _ => tracks_init⟩ ?_ is k o (Machine.along_of_forall hclean) hrun
  rintro is i k _ k' e - ⟨hsane, htracks⟩ hi hs
  obtain ⟨hsane', hlive⟩ := live_of_step hsane hs
  refine ⟨hsane', fun h => ?_⟩
  rw [acceptFailed_concat]
  exact tracks_step hsane (htracks (hlive h)) hi hs h

/-- **Edge-triggered readiness.**  In every run whose batches have `EPOLLIN` and no error flags,
    whatever `accept` and `read` return, and whatever arrives at any time: when the server is at
    `epoll_wait`, each descriptor that has been reported has answered `EAGAIN` or been closed since,
    and where data or connections are left a report will come, exactly if the accept loop was last
    left with `EAGAIN`. -/
theorem edges_settled (cfg : Config) (is : List EpollInput) (k : Epoll) (o : List ServerObs)
    (hrun : (epollServer cfg).run is = some (k, o)) (hclean : ∀ i ∈ is, i.NoErrorFlags)
    (hpc : k.server.pc = .epollWait) :
    ((∀ fd, k.edge.unsettled fd = false) ∧
      ∀ fd, k.edge.pending fd = true → k.edge.queued fd = true) ↔ acceptFailed is = false := by
  obtain ⟨-, htracks⟩ := tracks_of_run is k o hclean hrun
  have h := htracks (by rw [hpc]; exact ⟨by simp, by simp⟩)
  have hunsettled := h.unsettled
  rw [hpc] at hunsettled
  constructor
  · rintro ⟨hsettled, -⟩
    by_contra hfailed
    rw [Bool.not_eq_false] at hfailed
    have hlistener := (hunsettled cfg.sfd).mpr (.inr ⟨rfl, hfailed⟩)
    rw [hsettled cfg.sfd] at hlistener
    cases hlistener
  · intro hfailed
    have hsettled : ∀ fd, k.edge.unsettled fd = false := by
      intro fd
      rw [Bool.eq_false_iff]
      intro hfd
      rcases (hunsettled fd).mp hfd with hmem | ⟨-, htrue⟩
      · cases hmem
      · rw [hfailed] at htrue
        cases htrue
    exact ⟨hsettled, h.covered.queued hsettled⟩

/-! ### A connection that was aborted -/

/-- Two clients connect; the first one is gone before `accept`, which then fails. -/
def abortedConnection : List EpollInput :=
  [.arrive 4, .arrive 4, .call (.epollWait [readable 4]) false false,
    .call (.accept .error) true false]

/-- Two clients connect, and one sends what is read up to `EAGAIN`. -/
def twoConnections : List EpollInput :=
  [.arrive 4, .arrive 4, .call (.epollWait [readable 4]) false false,
    .call (.accept (.connected 7 true)) true true, .call (.accept (.connected 8 true)) false false,
    .call (.accept .again) false false, .call (.epollWait [readable 7]) false false,
    .call (.read (.data (helloOf 1)) ⟨fun _ => 0, none⟩) false false,
    .call (.read .again ⟨fun _ => 0, none⟩) false false]

/-- `edges_settled` for a run that leaves the accept loop with `EAGAIN`. -/
theorem edges_settled_two :
    ∃ k o, (epollServer .sample).run twoConnections = some (k, o) ∧
      (∀ fd, k.edge.unsettled fd = false) ∧
      ∀ fd, k.edge.pending fd = true → k.edge.queued fd = true := by
  obtain ⟨k, o, hrun, hpc⟩ :
      ∃ k o, (epollServer Config.sample).run twoConnections = some (k, o) ∧
        k.server.pc = .epollWait :=
    (epollServer Config.sample).exists_run (by decide +kernel)
  refine ⟨k, o, hrun, (edges_settled _ _ k o hrun ?_ hpc).mpr rfl⟩
  simp [twoConnections, EpollInput.NoErrorFlags, EpollEvent.isError, readable]

/-- An error of `accept` strands the second client: the listening socket has been reported, its
    last answer was not `EAGAIN`, the connection is left, and no report will come. -/
theorem aborted_connection_strands :
    ∃ k o, (epollServer .sample).run abortedConnection = some (k, o) ∧
      (∀ i ∈ abortedConnection, i.NoErrorFlags) ∧ k.server.pc = .epollWait ∧
      k.edge.unsettled 4 = true ∧ k.edge.pending 4 = true ∧ k.edge.queued 4 = false := by
  obtain ⟨k, o, hrun, hpc, hunsettled, hpending, hqueued⟩ :
      ∃ k o, (epollServer Config.sample).run abortedConnection = some (k, o) ∧
        k.server.pc = .epollWait ∧ k.edge.unsettled 4 = true ∧ k.edge.pending 4 = true ∧
        k.edge.queued 4 = false :=
    (epollServer Config.sample).exists_run (by decide +kernel)
  refine ⟨k, o, hrun, ?_, hpc, hunsettled, hpending, hqueued⟩
  simp [abortedConnection, EpollInput.NoErrorFlags, EpollEvent.isError, readable]

end Gap.Tunnel
