import Gap.Bcp.Woven

namespace Gap.Bcp

open Claim

/-!
# Preempted between any two statements

What `Quiesce.lean` and `Transit.lean` say of the link holds of the woven system: its runs are runs
of the link with interrupts split, and splitting them loses nothing.

* `ready_split_step`, `transit_split_step` — the invariants of the link, with interrupts split.
* `preempted_in_order` — the frames stored are those of the events accepted, in order.
* `Weave.potential` — what pending work can still cause, the statements still to go included.
* `preempted_comes_to_rest` — no livelock and no deadlock, whoever takes turns with whom.
-/

/-! ### Splitting interrupts -/

section
variable {l l' : Link}

/-- An interrupt handler that has been entered will read. -/
theorem wakeUp_enter (h : WakeUp l) : WakeUp l.enter := by
  refine ⟨?_, h.firmware, fun _ => .inr (.inr ⟨⟨.readIrqDone, .sampled true⟩, ?_, .inr rfl⟩)⟩
  · show l.outstanding.length + entered (l.callbacks ++ [⟨.readIrqDone, .sampled true⟩]) = _
    rw [entered_append]
    exact h.claims
  · exact List.mem_append_right _ (List.mem_singleton_self _)

theorem ready_split_step (h : l.Ready) {j : SplitInput} (hj : j.HasData) {e : List WireObs}
    (hs : split.step l j = some (l', e)) : l'.Ready := by
  cases j with
  | link i =>
    obtain ⟨o, hstep, -⟩ := wire_step hs
    exact ready_step h hj hstep
  | enter =>
    obtain ⟨-, hs⟩ := Option.ite_none_right_eq_some.mp hs
    obtain ⟨rfl, -⟩ := Prod.mk.inj (Option.some.inj hs)
    exact ⟨wakeUp_enter h.wakeUp, h.sized⟩

theorem Link.SplitWired.hasData {j : SplitInput} (h : l.SplitWired j) : j.HasData := by
  cases j with
  | link i => exact Link.Wired.hasData h
  | enter => trivial

theorem transit_split_step {o e : List WireObs} {idle : ℕ} (h : Transit l o idle) {j : SplitInput}
    (hj : l.SplitWired j) (hs : split.step l j = some (l', e)) :
    Transit l' (o ++ e) (idle + (l.splitIdle j).toNat) := by
  have hready := ready_split_step h.ready (Link.SplitWired.hasData hj) hs
  cases j with
  | link i => exact transit_step h hj hs
  | enter =>
    obtain ⟨-, hs⟩ := Option.ite_none_right_eq_some.mp hs
    obtain ⟨rfl, rfl⟩ := Prod.mk.inj (Option.some.inj hs)
    rw [List.append_nil]
    refine h.quiet hready rfl rfl (received_congr ?_ rfl)
    exact entered_append l.callbacks [⟨.readIrqDone, .sampled true⟩]

end

/-- **Run lemma.** -/
theorem transit_of_split_run (js : List SplitInput) (l : Link) (o : List WireObs)
    (hwired : split.Along (fun l _ j => l.SplitWired j) js) (hrun : split.run js = some (l, o)) :
    Transit l o (split.countFrom Link.splitIdle Link.init js) := by
  refine Machine.run_induct_along
    (P := fun js l o => Transit l o (split.countFrom Link.splitIdle Link.init js))
    transit_init ?_ js l o hwired hrun
  intro js j l o l' e hrun h hj hs
  rw [Machine.countFrom_concat Link.splitIdle (s := Link.init) (o := []) hrun j]
  exact transit_split_step h hj hs

/-! ### Frames in order -/

/-- The events accepted, as frames. -/
def acceptedIn (o : List WeaveObs) : List (List UInt8) :=
  (Outbox.Out.acceptedItems (firmwareIn o)).map Event.frame

/-- The frames stored in `buf_to_user`. -/
def storedIn (o : List WeaveObs) : List (List UInt8) := framesIn (driverIn o)

section
variable {s : Weave} {o : List WeaveObs} {l : Link} {ol : List WireObs}

/-- A frame that is stored and not yet published is the one the link has received. -/
theorem Woven.stored (h : Woven s o l ol) :
    storedIn o = publishedIn ol ∨ storedIn o = publishedIn ol ++ l.received := by
  rw [storedIn, h.follows.frames]
  cases hany : s.drv.threads.any handing with
  | false => exact .inl (List.append_nil _)
  | true =>
    obtain ⟨t, ht, hhand⟩ := List.any_eq_true.mp hany
    have hholds : holds Stmt.use t = true :=
      Bool.eq_true_of_not_eq_false fun hnot => by
        rw [(idle_of_not_holds hnot).2] at hhand
        cases hhand
    obtain ⟨pre, post, hthreads⟩ := List.append_of_mem ht
    obtain ⟨hnil, -⟩ := h.sound.exclusive.of_holds hthreads hholds
    have hdecoded : l.drv.decoded = s.drv.radio.dev.decoded :=
      decoded_of_data (h.follows.received hnil) h.follows.after
    -- the thread is a callback that holds the claim
    have hstage : stageOf t = some .entered := by
      unfold handing at hhand
      split at hhand
      · rfl
      · cases hhand
    have hcallbacks := h.follows.callbacks
    rw [hthreads] at hcallbacks
    obtain ⟨k, c, hk, -, -⟩ := callback_of_thread hcallbacks hstage
    have hentered : entered l.callbacks ≠ 0 := by
      obtain ⟨pre', post', hcs, -, -⟩ := split_of_getElem? hk
      rw [hcs, entered_append, entered_cons, if_pos rfl]
      omega
    right
    rw [if_pos rfl, Link.received, if_neg hentered, hdecoded]

/-- What has been stored of the events accepted. -/
theorem Woven.inOrder (h : Woven s o l ol) {idle : ℕ} (ht : Transit l ol idle) :
    ∃ n sent, n ≤ idle ∧ sent <+: acceptedIn o ∧ Stutter n (storedIn o) sent := by
  have haccepted : acceptedFrames ol = acceptedIn o := by rw [acceptedFrames, h.shown, acceptedIn]
  rcases h.stored with hstored | hstored
  · rw [hstored, ← haccepted]
    exact ht.published
  · obtain ⟨n, sent, hn, hstutter, hloaded⟩ := ht.frames
    refine ⟨n, sent, hn, ?_, by rwa [hstored]⟩
    rw [← haccepted]
    exact (List.prefix_append sent l.offered).trans (hloaded ▸ ht.accounted.loaded_prefix)

end

/-- Nothing is pending, and every thread is over or waits for a frame. -/
structure Weave.AtRest (s : Weave) : Prop where
  held : s.fw.held = 0
  line : s.fw.interruptPin = false
  edge : s.edge = false
  xferDone : s.xferDone = 0
  pending : s.drv.radio.dev.spiPending = false
  outstanding : s.drv.radio.outstanding = []
  threads : ∀ t ∈ s.drv.threads, t = [] ∨ (t = Bcp.read ∧ s.drv.radio.dev.bufToUserLen = 0)

section
variable {s : Weave} {o : List WeaveObs} {l : Link} {ol : List WireObs}

/-- A thread that is over or waits is nothing to the link. -/
theorem idle_of_rest {t : List Stmt} (ht : t = [] ∨ t = Bcp.read) :
    preparing t = false ∧ handing t = false ∧ stageOf t = none := by
  rcases ht with rfl | rfl <;> exact ⟨rfl, rfl, rfl⟩

/-- With nothing pending and no thread that can go on, the link is at rest. -/
theorem Woven.atRest (h : Woven s o l ol) (hready : l.Ready) (hedge : s.edge = false)
    (hdone : s.xferDone = 0) (hout : s.drv.radio.outstanding = [])
    (hthreads : ∀ t ∈ s.drv.threads, t = [] ∨ t = Bcp.read) : l.AtRest := by
  have hcount : s.drv.threads.countP preparing = 0 :=
    List.countP_eq_zero.mpr fun t ht => by simp [(idle_of_rest (hthreads t ht)).1]
  have hnone : l.outstanding = [] :=
    List.eq_nil_of_length_eq_zero (h.follows.outstanding.trans (by rw [hout, hcount]; rfl))
  have hcallbacks : l.callbacks = [] := by
    refine List.map_eq_nil_iff.mp (h.follows.callbacks.trans ?_)
    exact List.filterMap_eq_nil_iff.mpr fun t ht => (idle_of_rest (hthreads t ht)).2.2
  rcases atRest_or_step hready.wakeUp hready.sized with hrest | ⟨i, l', e, hi, hs⟩
  · exact hrest
  · -- the link has no step to go on with
    exfalso
    have hedge' : l.edge = false := h.edge.trans hedge
    have hdone' : l.xferDone = 0 := h.xferDone.trans hdone
    obtain ⟨hi, -⟩ := hi
    cases i with
    | advertisement ev => exact hi
    | command command => exact hi
    | transferEnds miso => simp [Link.step, hnone] at hs
    | firmwareXferDone => simp [Link.step, hdone'] at hs
    | callbackClear k => simp [Link.step, hcallbacks] at hs
    | callbackSample k => simp [Link.step, hcallbacks] at hs
    | callbackFinish k => simp [Link.step, hcallbacks] at hs
    | interrupt => simp [Link.step, hedge'] at hs

end

/-- **In order, preempted anywhere.**  Over every run in which the transfers clock in the transmit
    buffer, the events are 1 to 38 bytes long, and the firmware has handled the end of a transfer
    before another one ends or an event is loaded, however the statements of the driver's threads
    take turns: the frames stored for user space are frames of the events accepted, in order, none
    left out up to the last one stored, each repeated only for transfers that found nothing on
    offer; without such transfers there are no repeats; and at rest every event accepted has been
    stored. -/
theorem preempted_in_order (is : List WeaveInput) (s : Weave) (o : List WeaveObs)
    (hwired : weave.Along (fun s _ i => s.Wired i) is) (hrun : weave.run is = some (s, o)) :
    (∃ n sent, n ≤ weave.countFrom Weave.idleTransfer Weave.init is ∧ sent <+: acceptedIn o ∧
      Stutter n (storedIn o) sent) ∧
    (weave.countFrom Weave.idleTransfer Weave.init is = 0 → storedIn o <+: acceptedIn o) ∧
    (s.AtRest → ∃ n ≤ weave.countFrom Weave.idleTransfer Weave.init is,
      Stutter n (storedIn o) (acceptedIn o)) := by
  obtain ⟨js, l, ol, hjs, hrun', hcount, h⟩ :=
    woven_of_run (C := fun s i => s.Wired i) (fun _ _ hi => hi) is s o hwired hrun
  have ht := transit_of_split_run js l ol hjs hrun'
  rw [hcount] at ht
  obtain ⟨n, sent, hn, hsent, hstutter⟩ := h.inOrder ht
  refine ⟨⟨n, sent, hn, hsent, hstutter⟩, fun hnone => ?_, fun hrest => ?_⟩
  · obtain rfl : n = 0 := by omega
    rw [hstutter.eq]
    exact hsent
  · have hthreads : ∀ t ∈ s.drv.threads, t = [] ∨ t = Bcp.read :=
      fun t ht => (hrest.threads t ht).imp_right And.left
    have hatRest := h.atRest ht.ready hrest.edge hrest.xferDone hrest.outstanding hthreads
    obtain ⟨m, hm, hall⟩ := ht.published_of_atRest hatRest
    refine ⟨m, hm, ?_⟩
    have hstored : storedIn o = publishedIn ol :=
      h.frames.2.2 fun t ht => (idle_of_rest (hthreads t ht)).2.1
    rw [hstored, acceptedIn, ← h.shown]
    exact hall

instance Weave.decidableWired (s : Weave) : (i : WeaveInput) → Decidable (s.Wired i)
  | .advertisement _ => inferInstanceAs (Decidable (_ ∧ _))
  | .transferEnds _ => inferInstanceAs (Decidable (_ ∧ _))
  | .firmwareXferDone => isTrue trivial
  | .interrupt => isTrue trivial
  | .ioctl _ => isTrue trivial
  | .read => isTrue trivial
  | .resume _ _ _ => isTrue trivial
  | .clocks _ => isTrue trivial

/-- `preempted_in_order` on the run of `statements_refine`: of two events accepted, the first is
    stored. -/
theorem preempted_in_order_turns :
    ∃ s o, weave.run turns = some (s, o) ∧ acceptedIn o = [[2, 1, 7], [2, 1, 6]] ∧
      storedIn o = [[2, 1, 7]] ∧ storedIn o <+: acceptedIn o := by
  obtain ⟨s, o, hrun, haccepted, hstored⟩ : ∃ s o, weave.run turns = some (s, o) ∧
      acceptedIn o = [[2, 1, 7], [2, 1, 6]] ∧ storedIn o = [[2, 1, 7]] :=
    weave.exists_run (P := fun _ o => acceptedIn o = [[2, 1, 7], [2, 1, 6]] ∧
      storedIn o = [[2, 1, 7]]) (by decide +kernel)
  exact ⟨s, o, hrun, haccepted, hstored, (preempted_in_order turns s o
    (Machine.along_of_alongFrom (by decide +kernel)) hrun).2.1 (by decide +kernel)⟩

/-! ### What pending work can still cause -/

/-- The steps that go on with pending work; a wait goes on when there is a frame. -/
def WeaveInput.Internal : WeaveInput → Prop
  | .firmwareXferDone => True
  | .interrupt => True
  | .resume _ signal _ => signal = false
  | .transferEnds _ => True
  | _ => False

/-- A transfer ends while the firmware has yet to handle the end of an earlier one. -/
def Weave.overtakes (s : Weave) : WeaveInput → Bool
  | .transferEnds _ => decide (s.xferDone ≠ 0)
  | _ => false

/-- What a thread can still cause, while an event is `held` and while none is. -/
def load (held : Bool) (t : List Stmt) : ℕ :=
  14 * ((stageOf t).elim 0 (Stage.weight held)) + stmtsLeft t

/-- The potential of the woven system: fourteen for each step of the link, as a thread that finds
    the line high has a read of twelve statements before it. -/
def Weave.potential (s : Weave) : ℕ :=
  14 * account s.fw.held s.xferDone s.drv.radio.outstanding.length s.edge [] + 13 * s.edge.toNat +
    (s.drv.threads.map (load (decide (s.fw.held ≠ 0)))).sum

/-- What a thread has to go besides the steps of the link it accounts for. -/
def ownSteps (t : List Stmt) : ℕ := stmtsLeft t - if preparing t then 70 else 0

theorem stmtsLeft_eq (t : List Stmt) : stmtsLeft t = ownSteps t + 70 * (preparing t).toNat := by
  cases t with
  | nil => rfl
  | cons stmt rest =>
    cases stmt with
    | setUp w => simp [stmtsLeft, ownSteps, preparing]
    | async => rfl
    | decode n d => cases d <;> rfl
    | _ => rfl

theorem sum_load (held : Bool) (ts : List (List Stmt)) :
    (ts.map (load held)).sum = 14 * ((ts.filterMap stageOf).map (Stage.weight held)).sum +
      (ts.map ownSteps).sum + 70 * ts.countP preparing := by
  induction ts with
  | nil => rfl
  | cons t ts ih =>
    have hprep : (t :: ts).countP preparing = (preparing t).toNat + ts.countP preparing := by
      rw [List.countP_cons]
      cases preparing t <;> simp [Nat.add_comm]
    rw [List.map_cons, List.sum_cons, ih, List.map_cons, List.sum_cons, hprep, load, stmtsLeft_eq]
    cases hstage : stageOf t with
    | none =>
      rw [List.filterMap_cons_none hstage]
      simp only [Option.elim_none]
      omega
    | some stage =>
      rw [List.filterMap_cons_some hstage, List.map_cons, List.sum_cons]
      simp only [Option.elim_some]
      omega

section
variable {s : Weave} {o : List WeaveObs} {l : Link} {ol : List WireObs}

/-- The potential is that of the link, and the statements to go. -/
theorem Woven.potential_eq (h : Woven s o l ol) :
    s.potential = 14 * l.potential + 13 * s.edge.toNat + (s.drv.threads.map ownSteps).sum := by
  have hweights : weights (decide (s.fw.held ≠ 0)) l.callbacks
      = ((s.drv.threads.filterMap stageOf).map (Stage.weight (decide (s.fw.held ≠ 0)))).sum := by
    rw [weights, ← h.follows.callbacks, List.map_map]
    rfl
  rw [Weave.potential, sum_load, Link.potential, h.fw, h.xferDone, h.edge, account, account,
    hweights, h.follows.outstanding, weights, List.map_nil, List.sum_nil]
  omega

/-- **A statement spends.**  A thread that finds the line high, while an event is held, has a read
    before it, but had a callback. -/
theorem spent_turn {env : Env} {r r' : Radio} {t t' : List Stmt} {e : List RadioObs} {held : Bool}
    (hline : env.line = held) (hturn : Turn env r t r' t' e) :
    70 * r'.outstanding.length + load held t' + 1 ≤ 70 * r.outstanding.length + load held t := by
  cases hturn with
  | skip ht hpending =>
    have hleft : 1 ≤ stmtsLeft t := by
      rcases ht with rfl | ⟨command, rfl⟩
      · show 1 ≤ 12
        omega
      · show 1 ≤ 82
        omega
    have hnone : load held [] = 0 := rfl
    have hload : stmtsLeft t ≤ load held t := Nat.le_add_left _ _
    omega
  | @claim command complete _ ht hirq hfree =>
    have hclaimed : load held (setUpAndHandOver (setUps command complete)) = 81 := rfl
    have hload : 82 ≤ load held t := by
      rw [ht]
      cases complete with
      | readIrqDone =>
        rw [show load held (submission command .readIrqDone) = 96 from rfl]
        omega
      | issueSimpleCommandDone => exact Nat.le_refl 82
    rw [hclaimed]
    show 70 * r.outstanding.length + 81 + 1 ≤ _
    omega
  | prepare w ws =>
    have hsame : (w.apply r).outstanding = r.outstanding := by cases w <;> rfl
    rw [hsame]
    cases ws with
    | nil => exact Nat.le_refl _
    | cons w' ws =>
      show 70 * r.outstanding.length + (14 * 0 + ((setUpAndHandOver ws).length + 71)) + 1 ≤
        70 * r.outstanding.length + (14 * 0 + ((setUpAndHandOver (w' :: ws)).length + 71))
      simp only [setUpAndHandOver, List.length_append, List.length_map, List.length_cons]
      omega
  | handOver =>
    show 70 * (r.outstanding ++ [_]).length + 0 + 1 ≤ 70 * r.outstanding.length + 71
    rw [List.length_append, List.length_singleton]
    omega
  | store n b frame hframe =>
    show 70 * r.outstanding.length + (14 * Stage.weight held .entered + 3) + 1 ≤
      70 * r.outstanding.length + (14 * Stage.weight held .entered + 4)
    omega
  | clear ht hframe =>
    have hweight : Stage.weight held .cleared + 1 ≤ Stage.weight held .entered := by
      cases held <;> decide
    show 70 * r.outstanding.length + load held t' + 1 ≤
      70 * r.outstanding.length + (14 * Stage.weight held .entered + (t'.length + 1))
    rcases ht with rfl | rfl
    · show _ + (14 * Stage.weight held .cleared + 2) + 1 ≤ _ + (_ + 3)
      omega
    · show _ + (14 * Stage.weight held .cleared + 1) + 1 ≤ _ + (_ + 2)
      omega
  | check =>
    rw [hline]
    cases held with
    | true =>
      show _ + 96 + 1 ≤ _ + 99
      omega
    | false =>
      show _ + 0 + 1 ≤ _ + 29
      omega
  | quiet hsame hstage hprep hhand hleft hframes =>
    rw [hsame.same.outstanding, load, load, hstage]
    omega

/-- The line is high exactly while an event is held. -/
theorem Woven.line (h : Woven s o l ol) (hready : l.Ready) :
    s.fw.interruptPin = decide (s.fw.held ≠ 0) := by
  obtain ⟨b, hb⟩ := hready.wakeUp.firmware
  rw [h.fw] at hb
  rw [Bool.eq_iff_iff, hb.pin_iff, decide_eq_true_eq]

/-- A step of the link that leaves the threads alone spends, whatever edge comes with it. -/
theorem Woven.spent_of_link (h : Woven s o l ol) {s' : Weave} {o' : List WeaveObs} {l' : Link}
    {ol' : List WireObs} (h' : Woven s' o' l' ol') (hdrv : s'.drv = s.drv)
    (hspent : l'.potential + 1 ≤ l.potential) : s'.potential + 1 ≤ s.potential := by
  have hedge := Bool.toNat_le s'.edge
  rw [h'.potential_eq, h.potential_eq, hdrv]
  omega

/-- **Every step spends**, but for what a transfer puts back that overtakes the firmware. -/
theorem Woven.spent (h : Woven s o l ol) (hready : l.Ready) {i : WeaveInput} (hi : i.Internal)
    {s' : Weave} {e : List WeaveObs} (hs : s.step i = some (s', e)) :
    s'.potential + 1 ≤ s.potential + 70 * (s.overtakes i).toNat := by
  cases i with
  | advertisement ev => exact hi.elim
  | ioctl command => exact hi.elim
  | read => exact hi.elim
  | clocks miso => exact hi.elim
  | firmwareXferDone =>
    simp only [Weave.step, Option.ite_none_left_eq_some, Option.some.injEq, Prod.mk.injEq] at hs
    obtain ⟨hsome, rfl, rfl⟩ := hs
    have hstep : l.step .firmwareXferDone
        = some ({ l.setFirmware (spiSlaveEventHandle .xferDone s.fw).1 with
            xferDone := s.xferDone - 1 }, (spiSlaveEventHandle .xferDone s.fw).2) := by
      simp only [Link.step, h.xferDone, hsome, if_false, h.fw]
    have hspent := potential_step hready.wakeUp (i := .firmwareXferDone) trivial hstep
    exact h.spent_of_link (h.firmware _ (spiSlaveEventHandle .xferDone s.fw).2 _) rfl hspent
  | interrupt =>
    obtain ⟨hedge, hs⟩ := Option.ite_none_right_eq_some.mp hs
    obtain ⟨rfl, -⟩ := Prod.mk.inj (Option.some.inj hs)
    simp only [Weave.potential, account, hedge, List.map_append, List.sum_append, List.map_cons,
      List.map_nil, List.sum_cons, List.sum_nil, Bool.toNat_false, Bool.toNat_true]
    rw [show load (decide (s.fw.held ≠ 0)) readIrq = 96 from rfl]
    omega
  | resume k signal copied =>
    obtain ⟨x, hx, heq⟩ := Option.map_eq_some_iff.mp hs
    obtain ⟨rfl, -⟩ := Prod.mk.inj heq
    simp only [Running.step] at hx
    split at hx
    · next stmt rest hk =>
      obtain ⟨y, hy, rfl⟩ := Option.map_eq_some_iff.mp hx
      obtain ⟨pre, post, hthreads, hset, -⟩ := split_of_getElem? hk
      have hthread : Thread s.drv.radio (stmt :: rest) := h.sound.threads _ (by simp [hthreads])
      obtain ⟨-, hturn⟩ := turn_of_exec rfl hthread hy
      have hspent := spent_turn (h.line hready) hturn
      rw [hset]
      simp only [Weave.potential, account, hthreads, List.map_append, List.map_cons,
        List.sum_append, List.sum_cons]
      rw [show s.overtakes (.resume k signal copied) = false from rfl, Bool.toNat_false]
      omega
    · cases hx
  | transferEnds miso =>
    simp only [Weave.step] at hs
    split at hs
    · cases hs
    · next m ms hout =>
      obtain ⟨-, hs⟩ := Option.ite_none_right_eq_some.mp hs
      obtain ⟨hms, -, hcallback, -, -⟩ := h.sound.transferEnds hout miso
      obtain ⟨x, hx, heq⟩ := Option.map_eq_some_iff.mp hs
      simp only [Running.step, hout, List.getElem?_cons_zero, hcallback, List.eraseIdx_cons_zero,
        hms, Option.some.injEq] at hx
      subst hx
      obtain ⟨rfl, -⟩ := Prod.mk.inj heq
      have hspent := account_transferEnds s.fw.held s.xferDone 0 s.edge .readIrqDone []
      have hcallbacks :
          account s.fw.held (s.xferDone + 1) 0 s.edge ([] ++ [⟨.readIrqDone, .entered⟩])
            = account s.fw.held (s.xferDone + 1) 0 s.edge []
            + Stage.weight (decide (s.fw.held ≠ 0)) .entered := by
        simp [account, weights]
      rw [hcallbacks, Nat.zero_add] at hspent
      have hload :
          load (decide (s.fw.held ≠ 0)) [.decode m.number .noData, .clearPending, .checkIrq]
            = 14 * Stage.weight (decide (s.fw.held ≠ 0)) .entered + 8 := rfl
      simp only [Weave.potential, hout, hms, List.map_append, List.sum_append, List.map_cons,
        List.map_nil, List.sum_cons, List.sum_nil, List.length_singleton, List.length_nil]
      show 14 * account s.fw.held (s.xferDone + 1) 0 s.edge [] + 13 * s.edge.toNat +
        ((s.drv.threads.map (load (decide (s.fw.held ≠ 0)))).sum + (load (decide (s.fw.held ≠ 0))
          [.decode m.number .noData, .clearPending, .checkIrq] + 0)) + 1 ≤ _
      rw [hload, show s.overtakes (.transferEnds miso) = decide (s.xferDone ≠ 0) from rfl]
      omega

/-- What one thread can cause is bounded. -/
theorem load_le_of_thread {r : Radio} {t : List Stmt} (h : Thread r t) (held : Bool) :
    load held t ≤ 120 + 70 * (preparing t).toNat := by
  have hentered := Stage.weight_le held .entered
  have hcleared := Stage.weight_le held .cleared
  cases h with
  | preparing ws hleft =>
    cases ws with
    | nil => exact Nat.le_trans (show 71 ≤ 190 by omega) (Nat.le_refl 190)
    | cons w ws =>
      show 14 * 0 + ((setUpAndHandOver ws).length + 71) ≤ 120 + 70 * 1
      rw [List.length_cons] at hleft
      simp only [setUpAndHandOver, List.length_append, List.length_map, List.length_singleton]
      omega
  | noData n =>
    show 14 * Stage.weight held .entered + 8 ≤ 120
    omega
  | firstByte n =>
    show 14 * Stage.weight held .entered + 7 ≤ 120
    omega
  | lenAt n i =>
    show 14 * Stage.weight held .entered + 6 ≤ 120
    omega
  | copyToUser n b =>
    show 14 * Stage.weight held .entered + 5 ≤ 120
    omega
  | storeLen n b frame =>
    show 14 * Stage.weight held .entered + 4 ≤ 120
    omega
  | stored =>
    show 14 * Stage.weight held .entered + 3 ≤ 120
    omega
  | nothing =>
    show 14 * Stage.weight held .entered + 2 ≤ 120
    omega
  | waking =>
    show 14 * Stage.weight held .cleared + 2 ≤ 120
    omega
  | checking =>
    show 14 * Stage.weight held .cleared + 1 ≤ 120
    omega
  | irq => exact Nat.le_trans (show 96 ≤ 120 by omega) (Nat.le_refl 120)
  | ioctl command => exact Nat.le_trans (show 82 ≤ 120 by omega) (Nat.le_refl 120)
  | _ => simp [load, stageOf, stmtsLeft, Bcp.read, preparing]

theorem sum_load_le {r : Radio} {ts : List (List Stmt)} (h : ∀ t ∈ ts, Thread r t) (held : Bool) :
    (ts.map (load held)).sum ≤ 120 * ts.length + 70 * ts.countP preparing := by
  induction ts with
  | nil => exact Nat.zero_le _
  | cons t ts ih =>
    obtain ⟨ht, hts⟩ := List.forall_mem_cons.mp h
    have hload := load_le_of_thread ht held
    have hsum := ih hts
    have hprep : (t :: ts).countP preparing = (preparing t).toNat + ts.countP preparing := by
      rw [List.countP_cons]
      cases preparing t <;> simp [Nat.add_comm]
    rw [List.map_cons, List.sum_cons, List.length_cons, hprep]
    omega

/-- What can be pending is bounded, but for the transfers the firmware has yet to handle and the
    threads. -/
theorem Woven.potential_le (h : Woven s o l ol) (hready : l.Ready) :
    s.potential ≤ 587 + 14 * s.xferDone + 120 * s.drv.threads.length := by
  have hheld : s.fw.held ≤ 5 := by
    obtain ⟨b, hb⟩ := hready.wakeUp.firmware
    rw [← h.fw]
    exact hb.held_le
  have hsum := sum_load_le h.sound.threads (decide (s.fw.held ≠ 0))
  have hedge := Bool.toNat_le s.edge
  have hone : s.drv.radio.outstanding.length + s.drv.threads.countP preparing ≤ 1 := by
    have hclaims := hready.wakeUp.claims
    have hle := Bool.toNat_le l.drv.spiPending
    rw [Link.claims] at hclaims
    rw [← h.follows.outstanding]
    omega
  simp only [Weave.potential, account, weights, List.map_nil, List.sum_nil]
  split <;> omega

/-- A thread goes on, or is over, or waits for a frame. -/
theorem Thread.goesOn {r : Radio} {t : List Stmt} (h : Thread r t) (line : Bool) :
    t = [] ∨ (t = Bcp.read ∧ r.dev.bufToUserLen = 0) ∨
      ∃ stmt rest x, t = stmt :: rest ∧ stmt.exec ⟨line, true, false, true⟩ rest r = some x := by
  cases t with
  | nil => exact .inl rfl
  | cons stmt rest =>
    right
    cases stmt with
    | claim =>
      right
      cases hpending : r.dev.spiPending with
      | true => exact ⟨.claim, rest, (r, [], []), rfl, if_pos hpending⟩
      | false =>
        refine ⟨.claim, rest, ({ r with dev.spiPending := true }, rest, []), rfl, if_neg ?_⟩
        exact ne_true_of_eq_false hpending
    | waitEvent =>
      by_cases hlen : r.dev.bufToUserLen = 0
      · left
        generalize ht : Stmt.waitEvent :: rest = t at h
        cases h with
        | waiting => exact ⟨rfl, hlen⟩
        | preparing ws => cases ws <;> cases ht
        | _ => cases ht
      · refine .inr ⟨_, _, (r, rest, []), rfl, ?_⟩
        exact if_pos (.inl (Nat.pos_of_ne_zero hlen))
    | _ => exact .inr ⟨_, _, _, rfl, rfl⟩

/-- A step that goes on with pending work, without overtaking; a transfer clocks in the bytes that
    the firmware offers. -/
def Weave.Drains (s : Weave) (i : WeaveInput) : Prop :=
  i.Internal ∧ s.overtakes i = false ∧
    ∀ miso, i = .transferEnds miso → miso = s.fw.spiTxBuf.front spiTransferLen

/-- **No deadlock.**  The woven system is at rest, or some part of it can go on. -/
theorem Woven.atRest_or_step (h : Woven s o l ol) (hready : l.Ready) :
    s.AtRest ∨ ∃ i s' e, s.Drains i ∧ s.step i = some (s', e) := by
  by_cases hdone : s.xferDone = 0
  · cases hout : s.drv.radio.outstanding with
    | cons m ms =>
      right
      obtain ⟨-, hlen, -, -, -⟩ := h.sound.transferEnds hout []
      refine ⟨.transferEnds (s.fw.spiTxBuf.front spiTransferLen), ?_⟩
      simp [Weave.Drains, WeaveInput.Internal, Weave.overtakes, hdone, Weave.step, hout, hlen,
        Weave.drive, Running.step, spiTransferLen]
    | nil =>
      by_cases hthreads : ∀ t ∈ s.drv.threads,
          t = [] ∨ (t = Bcp.read ∧ s.drv.radio.dev.bufToUserLen = 0)
      · cases hedge : s.edge with
        | true =>
          refine .inr ⟨.interrupt, ?_⟩
          simp [Weave.Drains, WeaveInput.Internal, Weave.overtakes, Weave.step, hedge, Weave.drive,
            Running.step]
        | false =>
          left
          have hrest := h.atRest hready hedge hdone hout fun t ht =>
            (hthreads t ht).imp_right And.left
          exact ⟨h.fw ▸ hrest.held, h.fw ▸ hrest.line, hedge, hdone,
            h.follows.pending.symm.trans hrest.idle.2.1, hout, hthreads⟩
      · -- some thread goes on
        right
        simp only [not_forall] at hthreads
        obtain ⟨t, ht, hbusy⟩ := hthreads
        obtain ⟨k, hk⟩ := List.mem_iff_getElem?.mp ht
        obtain hover | hwaits | ⟨stmt, rest, x, rfl, hx⟩ :=
          (h.sound.threads t ht).goesOn s.fw.interruptPin
        · exact absurd (.inl hover) hbusy
        · exact absurd (.inr hwaits) hbusy
        · refine ⟨.resume k false true, ?_⟩
          simp [Weave.Drains, WeaveInput.Internal, Weave.overtakes, Weave.step, Weave.drive,
            Running.step, hk, hx]
  · refine .inr ⟨.firmwareXferDone, ?_⟩
    simp [Weave.Drains, WeaveInput.Internal, Weave.overtakes, Weave.step, hdone]

end

/-! ### Rest -/

/-- The threads follow a link whose invariants hold. -/
def Weave.Ready (s : Weave) : Prop := ∃ o l ol, Woven s o l ol ∧ l.Ready

theorem ready_weave_step {s s' : Weave} (h : s.Ready) {i : WeaveInput} (hi : i.HasData)
    {e : List WeaveObs} (hs : s.step i = some (s', e)) : s'.Ready := by
  obtain ⟨o, l, ol, hwoven, hready⟩ := h
  obtain ⟨js, l', ol', hmatched⟩ := woven_step hwoven hs
  refine ⟨_, l', ol', hmatched.woven, ?_⟩
  have halong : split.AlongFrom (fun _ _ j => j.HasData) (l, ol) js :=
    Machine.alongFrom_of_forall fun j hj _ _ => hmatched.hasData hi j hj
  exact halong.invariant (I := fun l _ => l.Ready)
    (fun _ _ _ _ _ h hj hs => ready_split_step h hj hs) hready hmatched.run

theorem ready_of_weave_run (is : List WeaveInput) (s : Weave) (o : List WeaveObs)
    (hdata : ∀ i ∈ is, i.HasData) (hrun : weave.run is = some (s, o)) : s.Ready :=
  Machine.run_induct_along (P := fun _ s _ => s.Ready) (C := fun _ _ i => i.HasData)
    ⟨[], Link.init, [], woven_init, ready_of_run [] _ [] (by simp) rfl⟩
    (fun _ _ _ _ _ _ _ h hi hs => ready_weave_step h hi hs) is s o (Machine.along_of_forall hdata)
    hrun

theorem WeaveInput.Internal.hasData {i : WeaveInput} (h : i.Internal) : i.HasData := by
  cases i with
  | advertisement e => exact h.elim
  | _ => trivial

/-- **It comes to rest, whoever takes turns.**  From every reachable state, with every advertisement
    queued at least one byte long, however the statements of the driver's threads take turns with
    each other, with the firmware and with the SPI core: a run that goes on with pending work only
    is no longer than the bound, seventy steps more for each transfer that ends before the firmware
    has handled an earlier one; such a run can be continued, without overtaking, until the line is
    low, the firmware holds no event, and every thread is over or is a read that waits while there
    is no frame; and where no thread, no interrupt and no transfer can go on, that is so. -/
theorem preempted_comes_to_rest (is : List WeaveInput) (s : Weave) (o : List WeaveObs)
    (hdata : ∀ i ∈ is, i.HasData) (hrun : weave.run is = some (s, o)) :
    (∀ js s' o', (∀ j ∈ js, j.Internal) → weave.runFrom (s, o) js = some (s', o') →
      js.length ≤ 587 + 14 * s.xferDone + 120 * s.drv.threads.length +
        70 * weave.countFrom Weave.overtakes s js) ∧
    (∃ js s' o', weave.AlongFrom (fun s _ i => s.Drains i) (s, o) js ∧
      weave.runFrom (s, o) js = some (s', o') ∧ s'.AtRest) ∧
    ((∀ i, i.Internal → s.step i = none) → s.AtRest) := by
  have h := ready_of_weave_run is s o hdata hrun
  have hstep : ∀ (s : Weave) (i : WeaveInput) (s' : Weave) (e : List WeaveObs), s.Ready →
      i.Internal → weave.step s i = some (s', e) →
      s'.Ready ∧ s'.potential + 1 ≤ s.potential + 70 * (s.overtakes i).toNat := by
    rintro s i s' e hs hi hi'
    obtain ⟨o, l, ol, hwoven, hready⟩ := hs
    exact ⟨ready_weave_step ⟨o, l, ol, hwoven, hready⟩ hi.hasData hi', hwoven.spent hready hi hi'⟩
  have hnext : ∀ s : Weave, s.Ready → ¬ s.AtRest →
      ∃ i s' e, s.Drains i ∧ weave.step s i = some (s', e) := by
    rintro s ⟨o, l, ol, hwoven, hready⟩ hrest
    exact (hwoven.atRest_or_step hready).resolve_left hrest
  refine ⟨fun js s' o' hjs hrun' => ?_, ?_, fun hstuck => ?_⟩
  · have hlen := Machine.length_add_potential_le hstep js s s' o o' h hjs hrun'
    obtain ⟨o₁, l, ol, hwoven, hready⟩ := h
    have hpot := hwoven.potential_le hready
    omega
  · refine Machine.exists_run_to (Φ := Weave.potential) (fun s i s' e hs hi hi' => ?_) hnext s o h
    -- without overtaking, every step spends
    obtain ⟨hready, hspent⟩ := hstep s i s' e hs hi.1 hi'
    rw [hi.2.1, Bool.toNat_false, Nat.mul_zero] at hspent
    exact ⟨hready, hspent⟩
  · by_contra hrest
    obtain ⟨i, s', e, hi, hs⟩ := hnext s h hrest
    rw [show weave.step s i = none from hstuck i hi.1] at hs
    cases hs

/-- `preempted_comes_to_rest` in the middle of that run. -/
theorem preempted_comes_to_rest_turns :
    ∃ s o, weave.run turns = some (s, o) ∧ s.fw.held = 1 ∧
      ∃ js s' o', weave.AlongFrom (fun s _ i => s.Drains i) (s, o) js ∧
        weave.runFrom (s, o) js = some (s', o') ∧ s'.AtRest := by
  obtain ⟨s, o, hrun, hheld⟩ : ∃ s o, weave.run turns = some (s, o) ∧ s.fw.held = 1 :=
    weave.exists_run (P := fun s _ => s.fw.held = 1) (by decide +kernel)
  have hdata : ∀ i ∈ turns, i.HasData := by
    simp [turns, takeTurns, WeaveInput.HasData, Event.short, Event.next]
  exact ⟨s, o, hrun, hheld, (preempted_comes_to_rest turns s o hdata hrun).2.1⟩

end Gap.Bcp
