import Gap.Bcp.WakeUp
import Gap.Lib.Potential

namespace Gap.Bcp

open Outbox

/-!
# Firmware and driver — the link comes to rest

Once no advertisement arrives and no command is issued, the firmware and the driver go on with
what is pending: transfers, callbacks, interrupts.  Each event held by the firmware keeps the line
high, and a high line makes the driver read again, so what is pending feeds itself; it is the
`SPI_SLAVE_XFER_DONE` handler that takes an event away.

* `Link.potential` — what pending work can still cause; `potential_step` is the step lemma.
* `Overtakes` — a transfer that ends before the firmware has handled an earlier one.
* `AtRest` — nothing is held or pending; `atRest_or_step`: else some part can go on.
* `link_comes_to_rest` — no livelock and no deadlock.
-/

/-! ### Steps without new work -/

/-- The steps that go on with pending work. -/
def LinkInput.Internal : LinkInput → Prop
  | .advertisement _ => False
  | .command _ => False
  | _ => True

/-- A transfer ends while the firmware has yet to handle the end of an earlier one. -/
def Link.overtakes (l : Link) : LinkInput → Bool
  | .transferEnds _ => decide (l.xferDone ≠ 0)
  | _ => false

theorem LinkInput.Internal.hasData {i : LinkInput} (h : i.Internal) : i.HasData := by
  cases i with
  | advertisement e => exact h.elim
  | _ => trivial

/-- The events the firmware holds, in its transmit buffer and in its queue. -/
def Firmware.held (s : Firmware) : ℕ := s.bufferFull.toNat + s.eventQueue.itemsInQueue

/-- Nothing is held and nothing is pending. -/
structure Link.AtRest (l : Link) : Prop where
  held : l.fw.held = 0
  line : l.fw.interruptPin = false
  idle : l.Idle
  outstanding : l.outstanding = []
  xferDone : l.xferDone = 0

/-! ### What the firmware holds -/

section
variable {s : Firmware} {b : Outbox Event interruptEventQueueLen}

theorem Represents.held (h : Represents s b) : s.held = b.size := by
  rw [Firmware.held, Outbox.size, h.full, h.itemsInQueue]

/-- The line is high exactly while an event is held. -/
theorem Represents.pin_iff (h : Represents s b) : s.interruptPin = true ↔ s.held ≠ 0 := by
  rw [h.held, ne_eq, Outbox.size_eq_zero, h.pin, h.full, Option.isSome_iff_ne_none]

/-- At most the buffer and the queue are full. -/
theorem Represents.held_le (h : Represents s b) : s.held ≤ interruptEventQueueLen + 1 := by
  rw [h.held]
  exact b.size_le

/-- The end of a transfer takes one event away. -/
theorem Represents.held_xferDone (h : Represents s b) :
    (spiSlaveEventHandle .xferDone s).1.held = s.held - 1 := by
  rw [(represents_xferDone h).1.held, h.held, Outbox.size_ack]

end

/-! ### The potential -/

/-- What a callback can still cause, while an event is `held` and while none is. -/
def Stage.weight (held : Bool) : Stage → ℕ
  | .entered => if held then 8 else 3
  | .cleared => if held then 7 else 2
  | .sampled true => 6
  | .sampled false => 1

/-- What the callbacks can still cause. -/
def weights (held : Bool) (cs : List Callback) : ℕ := (cs.map fun c => c.stage.weight held).sum

/-- What the pending work can still cause.  An event held costs five steps to read, a message or a
    latched edge may turn into a callback, and the first transfer since the firmware has caught up
    starts no new round. -/
def account (held xferDone outstanding : ℕ) (edge : Bool) (cs : List Callback) : ℕ :=
  5 * held + (if xferDone = 0 ∧ held ≠ 0 then 5 else 0) + xferDone + 5 * outstanding +
    6 * edge.toNat + weights (decide (held ≠ 0)) cs

/-- The potential of the link. -/
def Link.potential (l : Link) : ℕ :=
  account l.fw.held l.xferDone l.outstanding.length l.edge l.callbacks

theorem weights_append (held : Bool) (cs ds : List Callback) :
    weights held (cs ++ ds) = weights held cs + weights held ds := by
  simp [weights]

theorem weights_cons (held : Bool) (c : Callback) (cs : List Callback) :
    weights held (c :: cs) = c.stage.weight held + weights held cs := by
  simp [weights]

theorem Stage.weight_le (held : Bool) (s : Stage) : s.weight held ≤ 8 := by
  cases held <;> cases s with
  | sampled line => cases line <;> decide
  | _ => decide

/-- A callback causes less when no event is held. -/
theorem Stage.weight_false_le (held : Bool) (s : Stage) : s.weight false ≤ s.weight held := by
  cases held <;> cases s with
  | sampled line => cases line <;> decide
  | _ => decide

theorem weights_le (held : Bool) (cs : List Callback) : weights held cs ≤ 8 * cs.length := by
  induction cs with
  | nil => rfl
  | cons c cs ih =>
    have hc := Stage.weight_le held c.stage
    rw [weights_cons, List.length_cons]
    omega

theorem weights_false_le (held : Bool) (cs : List Callback) :
    weights false cs ≤ weights held cs := by
  induction cs with
  | nil => rfl
  | cons c cs ih =>
    have hc := Stage.weight_false_le held c.stage
    rw [weights_cons, weights_cons]
    omega

/-- The end of a transfer, handled by the firmware, takes an event away or there is none. -/
theorem account_xferDone {xferDone : ℕ} (hsome : xferDone ≠ 0) (held outstanding : ℕ) (edge : Bool)
    (cs : List Callback) :
    account (held - 1) (xferDone - 1) outstanding edge cs + 1 ≤
      account held xferDone outstanding edge cs := by
  match held with
  | 0 =>
    simp only [account, ne_eq, Nat.zero_sub, not_true_eq_false, and_false, if_false]
    omega
  | 1 =>
    -- the callbacks cause less once nothing is held
    have hweights := weights_false_le true cs
    simp only [account, Nat.sub_self, ne_eq, not_true_eq_false, and_false, if_false,
      decide_false, one_ne_zero, not_false_eq_true, and_true, decide_true]
    split <;> omega
  | held + 2 =>
    have hheld : held + 2 - 1 = held + 1 := rfl
    simp only [account, hheld, ne_eq, Nat.succ_ne_zero, not_false_eq_true, and_true, decide_true,
      hsome, if_false]
    split <;> omega

/-- The end of a transfer turns a message into a callback; while an event is held, this spends
    only if the firmware has caught up. -/
theorem account_transferEnds (held xferDone outstanding : ℕ) (edge : Bool) (c : Completion)
    (cs : List Callback) :
    account held (xferDone + 1) outstanding edge (cs ++ [⟨c, .entered⟩]) + 1 ≤
      account held xferDone (outstanding + 1) edge cs
        + 5 * (decide (xferDone ≠ 0)).toNat := by
  have hnil : ∀ b, weights b [] = 0 := fun _ => rfl
  simp only [account, weights_append, weights_cons, hnil, Nat.succ_ne_zero, false_and, if_false]
  by_cases hheld : held = 0
  · simp only [hheld, ne_eq, not_true_eq_false, and_false, if_false, decide_false, Stage.weight,
      Bool.false_eq_true]
    omega
  · by_cases hdone : xferDone = 0
    · simp only [hheld, hdone, ne_eq, not_false_eq_true, and_self, if_true, decide_true,
        Stage.weight]
      omega
    · simp only [hheld, hdone, ne_eq, not_false_eq_true, false_and, if_false, if_true, decide_true,
        Stage.weight, Bool.toNat_true]
      omega

/-! ### Steps -/

variable {l l' : Link}

/-- A message handed over is what a path adds. -/
theorem potential_submit (l : Link) (r : Driver × Option SpiMessage) :
    (l.submit r).potential = l.potential + 5 * r.2.toList.length := by
  show account l.fw.held l.xferDone (l.outstanding ++ r.2.toList).length l.edge l.callbacks = _
  rw [List.length_append, Link.potential, account, account]
  omega

/-- A path hands over one message at most. -/
theorem Claims.potential_submit_le (l : Link) {r : Driver × Option SpiMessage}
    (hr : Claims l.drv r) : (l.submit r).potential ≤ l.potential + 5 := by
  have hmsg := hr.message
  rw [potential_submit]
  omega

/-- **The `SPI_SLAVE_XFER_DONE` handler spends.** -/
theorem potential_firmwareXferDone (h : WakeUp l) (hsome : l.xferDone ≠ 0) :
    ({ l.setFirmware (spiSlaveEventHandle .xferDone l.fw).1 with
      xferDone := l.xferDone - 1 } : Link).potential + 1 ≤ l.potential := by
  obtain ⟨b, hb⟩ := h.firmware
  have hheld := hb.held_xferDone
  have hpin := (represents_xferDone hb).1.pin_iff
  have hpinOld := hb.pin_iff
  generalize (spiSlaveEventHandle .xferDone l.fw).1 = fw at hheld hpin ⊢
  -- the line was high before if it is high now, so there is no new edge
  have hedge : (l.edge || (!l.fw.interruptPin && fw.interruptPin)) = l.edge := by
    cases hnew : fw.interruptPin with
    | false => simp
    | true =>
      have hne : l.fw.held ≠ 0 := by
        have hafter := hpin.mp hnew
        omega
      rw [hpinOld.mpr hne]
      simp
  show account fw.held (l.xferDone - 1) l.outstanding.length
    (l.edge || (!l.fw.interruptPin && fw.interruptPin)) l.callbacks + 1 ≤ _
  rw [hedge, hheld]
  exact account_xferDone hsome _ _ _ _

/-- A callback that goes on causes less, by the difference of the weights. -/
theorem potential_callback {k : ℕ} {c : Callback} (hk : l.callbacks[k]? = some c) (dev : Driver)
    (c' : Callback) :
    ({ l with drv := dev, callbacks := l.callbacks.set k c' } : Link).potential
        + c.stage.weight (decide (l.fw.held ≠ 0))
      = l.potential + c'.stage.weight (decide (l.fw.held ≠ 0)) := by
  obtain ⟨pre, post, heq, hset, -⟩ := split_of_getElem? hk
  rw [hset]
  simp only [Link.potential, account, heq, weights_append, weights_cons]
  omega

/-- A callback that is over causes nothing more. -/
theorem potential_eraseIdx {k : ℕ} {c : Callback} (hk : l.callbacks[k]? = some c) :
    ({ l with callbacks := l.callbacks.eraseIdx k } : Link).potential
      + c.stage.weight (decide (l.fw.held ≠ 0)) = l.potential := by
  obtain ⟨pre, post, heq, -, herase⟩ := split_of_getElem? hk
  rw [herase]
  simp only [Link.potential, account, heq, weights_append, weights_cons]
  omega

/-- **Step lemma.**  Every step that goes on with pending work spends, unless it overtakes. -/
theorem potential_step (h : WakeUp l) {i : LinkInput} (hi : i.Internal) {o : List Obs}
    (hs : l.step i = some (l', o)) :
    l'.potential + 1 ≤ l.potential + 5 * (l.overtakes i).toNat := by
  cases i with
  | advertisement e => exact hi.elim
  | command command => exact hi.elim
  | transferEnds miso =>
    cases hout : l.outstanding with
    | nil => simp [Link.step, hout] at hs
    | cons msg rest =>
      by_cases hlen : miso.length = msg.transfer.len
      · simp only [Link.step, hout, hlen, if_true, Option.some.injEq, Prod.mk.injEq] at hs
        obtain ⟨rfl, -⟩ := hs
        have hlast : l.potential
            = account l.fw.held l.xferDone (rest.length + 1) l.edge l.callbacks := by
          rw [Link.potential, hout, List.length_cons]
        rw [hlast]
        exact account_transferEnds l.fw.held l.xferDone rest.length l.edge msg.complete l.callbacks
      · simp [Link.step, hout, hlen] at hs
  | firmwareXferDone =>
    by_cases hnone : l.xferDone = 0
    · simp [Link.step, hnone] at hs
    · simp only [Link.step, hnone, if_false, Option.some.injEq, Prod.mk.injEq] at hs
      obtain ⟨rfl, -⟩ := hs
      exact potential_firmwareXferDone h hnone
  | callbackClear k =>
    simp only [Link.step] at hs
    split at hs
    · next c hk =>
      obtain ⟨rfl, -⟩ := Prod.mk.inj (Option.some.inj hs)
      have hpot := potential_callback hk (clearSpiPending (c.done l.drv).1) ⟨c, .cleared⟩
      simp only [Stage.weight] at hpot
      split at hpot <;> omega
    · cases hs
  | callbackSample k =>
    simp only [Link.step] at hs
    split at hs
    · next c hk =>
      obtain ⟨rfl, -⟩ := Prod.mk.inj (Option.some.inj hs)
      obtain ⟨b, hb⟩ := h.firmware
      have hpot := potential_callback hk l.drv ⟨c, .sampled l.fw.interruptPin⟩
      -- the line is high, and the callback will read, exactly while an event is held
      cases hpin : l.fw.interruptPin with
      | true =>
        rw [hpin] at hpot
        have hheld := hb.pin_iff.mp hpin
        simp only [Stage.weight, hheld, ne_eq, not_false_eq_true, decide_true, if_true] at hpot
        omega
      | false =>
        rw [hpin] at hpot
        simp only [Stage.weight] at hpot
        split at hpot <;> omega
    · cases hs
  | callbackFinish k =>
    simp only [Link.step] at hs
    split at hs
    · next c line hk =>
      obtain ⟨rfl, -⟩ := Prod.mk.inj (Option.some.inj hs)
      have hpot := potential_eraseIdx hk
      cases line with
      | true =>
        have hread := (nrf51822ReadIrq_claims l.drv).potential_submit_le
          { l with callbacks := l.callbacks.eraseIdx k }
        simp only [Stage.weight] at hpot
        show Link.potential (Link.submit _ (nrf51822ReadIrq l.drv)) + 1 ≤ _
        omega
      | false =>
        have hnone := potential_submit { l with callbacks := l.callbacks.eraseIdx k }
          (nrf51822CheckIrq false l.drv)
        simp only [nrf51822CheckIrq, Bool.false_eq_true, if_false, Option.toList_none,
          List.length_nil, Nat.mul_zero, Nat.add_zero] at hnone
        simp only [Stage.weight] at hpot
        show Link.potential (Link.submit _ (l.drv, none)) + 1 ≤ _
        omega
    · cases hs
  | interrupt =>
    by_cases hedge : l.edge = true
    · simp only [Link.step, hedge, if_true, Option.some.injEq, Prod.mk.injEq] at hs
      obtain ⟨rfl, -⟩ := hs
      have hread := (nrf51822ReadIrq_claims l.drv).potential_submit_le { l with edge := false }
      have hspent : ({ l with edge := false } : Link).potential + 6 = l.potential := by
        simp only [Link.potential, account, hedge, Bool.toNat_false, Bool.toNat_true]
        omega
      show Link.potential (Link.submit _ (nrf51822ReadIrq l.drv)) + 1 ≤ _
      omega
    · simp [Link.step, hedge] at hs

/-- What can be pending is bounded, but for the transfers the firmware has yet to handle and the
    callbacks in progress. -/
theorem potential_le (h : WakeUp l) :
    l.potential ≤ 41 + l.xferDone + 8 * l.callbacks.length := by
  obtain ⟨b, hb⟩ := h.firmware
  have hheld : l.fw.held ≤ 5 := hb.held_le
  have hedge := Bool.toNat_le l.edge
  have hweights := weights_le (decide (l.fw.held ≠ 0)) l.callbacks
  have hpending := Bool.toNat_le l.drv.spiPending
  have hclaims := h.claims
  rw [Link.claims] at hclaims
  rw [Link.potential, account]
  split <;> omega

/-! ### Messages -/

/-- The messages at the SPI core clock `spiTransferLen` bytes. -/
def Link.Sized (l : Link) : Prop := ∀ msg ∈ l.outstanding, msg.transfer.len = spiTransferLen

theorem sized_submit (h : l.Sized) {r : Driver × Option SpiMessage}
    (hr : ∀ msg ∈ r.2, msg.transfer.len = spiTransferLen) : (l.submit r).Sized := by
  intro msg hmem
  rcases List.mem_append.mp hmem with hold | hnew
  · exact h msg hold
  · exact hr msg (Option.mem_toList.mp hnew)

theorem sized_step (h : l.Sized) {i : LinkInput} {o : List Obs} (hs : l.step i = some (l', o)) :
    l'.Sized := by
  cases i with
  | advertisement e =>
    obtain ⟨rfl, -⟩ := Prod.mk.inj (Option.some.inj hs)
    exact h
  | command command =>
    obtain ⟨rfl, -⟩ := Prod.mk.inj (Option.some.inj hs)
    exact sized_submit h (nrf51822IssueSimpleCommand_len command l.drv)
  | transferEnds miso =>
    cases hout : l.outstanding with
    | nil => simp [Link.step, hout] at hs
    | cons msg rest =>
      simp only [Link.step, hout, Option.ite_none_right_eq_some, Option.some.injEq,
        Prod.mk.injEq] at hs
      obtain ⟨-, rfl, -⟩ := hs
      exact fun m hm => h m (by rw [hout]; exact List.mem_cons_of_mem _ hm)
  | firmwareXferDone =>
    simp only [Link.step, Option.ite_none_left_eq_some, Option.some.injEq, Prod.mk.injEq] at hs
    obtain ⟨-, rfl, -⟩ := hs
    exact h
  | callbackClear k =>
    simp only [Link.step] at hs
    split at hs
    · obtain ⟨rfl, -⟩ := Prod.mk.inj (Option.some.inj hs)
      exact h
    · cases hs
  | callbackSample k =>
    simp only [Link.step] at hs
    split at hs
    · obtain ⟨rfl, -⟩ := Prod.mk.inj (Option.some.inj hs)
      exact h
    · cases hs
  | callbackFinish k =>
    simp only [Link.step] at hs
    split at hs
    · next c line hk =>
      obtain ⟨rfl, -⟩ := Prod.mk.inj (Option.some.inj hs)
      cases line with
      | true => exact sized_submit h (nrf51822ReadIrq_len l.drv)
      | false => exact sized_submit h (by simp [nrf51822CheckIrq])
    · cases hs
  | interrupt =>
    simp only [Link.step, Option.ite_none_right_eq_some, Option.some.injEq, Prod.mk.injEq] at hs
    obtain ⟨-, rfl, -⟩ := hs
    exact sized_submit h (nrf51822ReadIrq_len l.drv)

/-! ### Rest -/

/-- A step that goes on with pending work, without overtaking; a transfer clocks in the bytes that
    the firmware offers. -/
def Link.Drains (l : Link) (i : LinkInput) : Prop :=
  i.Internal ∧ l.overtakes i = false ∧
    ∀ miso, i = .transferEnds miso → miso = l.fw.spiTxBuf.front spiTransferLen

/-- **No deadlock.**  The link is at rest, or some part of it can go on without overtaking. -/
theorem atRest_or_step (h : WakeUp l) (hsized : l.Sized) :
    l.AtRest ∨ ∃ i l' o, l.Drains i ∧ l.step i = some (l', o) := by
  by_cases hdone : l.xferDone = 0
  · cases hout : l.outstanding with
    | cons msg rest =>
      refine .inr ⟨.transferEnds (l.fw.spiTxBuf.front spiTransferLen), ?_⟩
      have hmsg : msg.transfer.len = 40 := hsized msg (by simp [hout])
      simp [Link.Drains, LinkInput.Internal, Link.overtakes, hdone, Link.step, hout, hmsg,
        spiTransferLen]
    | nil =>
      cases hcbs : l.callbacks with
      | cons c cs =>
        -- the first callback goes on
        have hk : l.callbacks[0]? = some c := by rw [hcbs]; rfl
        obtain ⟨c, stage⟩ := c
        cases stage with
        | entered =>
          refine .inr ⟨.callbackClear 0, ?_⟩
          simp [Link.Drains, LinkInput.Internal, Link.overtakes, Link.step, hk]
        | cleared =>
          refine .inr ⟨.callbackSample 0, ?_⟩
          simp [Link.Drains, LinkInput.Internal, Link.overtakes, Link.step, hk]
        | sampled line =>
          refine .inr ⟨.callbackFinish 0, ?_⟩
          simp [Link.Drains, LinkInput.Internal, Link.overtakes, Link.step, hk]
      | nil =>
        cases hedge : l.edge with
        | true =>
          refine .inr ⟨.interrupt, ?_⟩
          simp [Link.Drains, LinkInput.Internal, Link.overtakes, Link.step, hedge]
        | false =>
          -- nothing is pending, so no read is due and the line is low
          left
          obtain ⟨b, hb⟩ := h.firmware
          have hclaims : l.claims = 0 := by rw [Link.claims, hout, hcbs]; rfl
          have hline : l.fw.interruptPin = false := by
            refine Bool.eq_false_of_not_eq_true fun hpin => ?_
            rcases h.line hpin with hedge' | hdue | ⟨c, hmem, -⟩
            · rw [hedge] at hedge'; cases hedge'
            · omega
            · rw [hcbs] at hmem; cases hmem
          have hpending : l.drv.spiPending = false := by
            have hcount := h.claims
            rw [hclaims] at hcount
            exact Bool.toNat_eq_zero.mp hcount.symm
          refine ⟨?_, hline, ⟨hedge, hpending, hcbs⟩, hout, hdone⟩
          by_contra hheld
          rw [hb.pin_iff.mpr hheld] at hline
          cases hline
  · refine .inr ⟨.firmwareXferDone, ?_⟩
    simp [Link.Drains, LinkInput.Internal, Link.overtakes, Link.step, hdone]

/-- The invariants that the pending work goes on under. -/
structure Link.Ready (l : Link) : Prop where
  wakeUp : WakeUp l
  sized : l.Sized

theorem ready_step (h : l.Ready) {i : LinkInput} (hi : i.HasData) {o : List Obs}
    (hs : l.step i = some (l', o)) : l'.Ready :=
  ⟨wakeUp_step h.wakeUp hi hs, sized_step h.sized hs⟩

theorem ready_of_run (is : List LinkInput) (l : Link) (o : List Obs)
    (hdata : ∀ i ∈ is, i.HasData) (hrun : link.run is = some (l, o)) : l.Ready :=
  Machine.run_induct_along (P := fun _ l _ => l.Ready) (C := fun _ _ i => i.HasData)
    ⟨wakeUp_init, by simp [Link.Sized, link, Link.init]⟩
    (fun _ _ _ _ _ _ _ h hi hs => ready_step h hi hs) is l o (Machine.along_of_forall hdata) hrun

/-- **The link comes to rest.**  From every reachable state, with every advertisement queued at
    least one byte long: a run that goes on with pending work only is no longer than the bound,
    five steps more for each transfer that ends before the firmware has handled an earlier one;
    such a run can be continued, without overtaking, until the link is at rest; and where it
    cannot be continued at all, the link is at rest. -/
theorem link_comes_to_rest (is : List LinkInput) (l : Link) (o : List Obs)
    (hdata : ∀ i ∈ is, i.HasData) (hrun : link.run is = some (l, o)) :
    (∀ js l' o', (∀ j ∈ js, j.Internal) → link.runFrom (l, o) js = some (l', o') →
      js.length ≤ 41 + l.xferDone + 8 * l.callbacks.length +
        5 * link.countFrom Link.overtakes l js) ∧
    (∃ js l' o', link.AlongFrom (fun l _ i => l.Drains i) (l, o) js ∧
      link.runFrom (l, o) js = some (l', o') ∧ l'.AtRest) ∧
    ((∀ i, i.Internal → l.step i = none) → l.AtRest) := by
  have h := ready_of_run is l o hdata hrun
  have hstep : ∀ (s : Link) (i : LinkInput) (s' : Link) (e : List Obs), s.Ready → i.Internal →
      link.step s i = some (s', e) →
      s'.Ready ∧ s'.potential + 1 ≤ s.potential + 5 * (s.overtakes i).toNat :=
    fun s i s' e hs hi hi' =>
      ⟨ready_step hs hi.hasData hi', potential_step hs.wakeUp hi hi'⟩
  refine ⟨fun js l' o' hjs hrun' => ?_, ?_, fun hstuck => ?_⟩
  · have hlen := Machine.length_add_potential_le hstep js l l' o o' h hjs hrun'
    have hpot := potential_le h.wakeUp
    omega
  · refine Machine.exists_run_to (Φ := Link.potential) (fun s i s' e hs hi hi' => ?_)
      (fun s hs hrest => ?_) l o h
    · -- without overtaking, every step spends
      obtain ⟨hready, hspent⟩ := hstep s i s' e hs hi.1 hi'
      rw [hi.2.1, Bool.toNat_false, Nat.mul_zero] at hspent
      exact ⟨hready, hspent⟩
    · rcases atRest_or_step hs.wakeUp hs.sized with hat | hnext
      · exact absurd hat hrest
      · exact hnext
  · rcases atRest_or_step h.wakeUp h.sized with hat | ⟨i, l', o', hi, hs⟩
    · exact hat
    · rw [hstuck i hi.1] at hs
      cases hs

/-- `link_comes_to_rest` with two events queued and the first read under way. -/
theorem link_comes_to_rest_two_events :
    ∃ l o, link.run [.advertisement ⟨1, [7], by decide⟩, .interrupt,
        .advertisement ⟨1, [8], by decide⟩] = some (l, o) ∧ l.fw.held = 2 ∧
      ∃ js l' o', link.AlongFrom (fun l _ i => l.Drains i) (l, o) js ∧
        link.runFrom (l, o) js = some (l', o') ∧ l'.AtRest := by
  refine ⟨_, _, rfl, rfl, ?_⟩
  exact (link_comes_to_rest [.advertisement ⟨1, [7], by decide⟩, .interrupt,
    .advertisement ⟨1, [8], by decide⟩] _ _ (by simp [LinkInput.HasData]) rfl).2.1

end Gap.Bcp
