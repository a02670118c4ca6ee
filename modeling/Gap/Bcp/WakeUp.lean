import Gap.Bcp.Delivery
import Gap.Bcp.Driver
import Gap.Lib.Claim

namespace Gap.Bcp

/-!
# Firmware and driver — no lost wake-up

One firmware and one driver instance, with everything that can be pending between them.  The
driver is edge triggered, skips an interrupt while its SPI buffer is claimed, and the firmware
keeps the line high from one event to the next, so a missed edge is made up for by the level
test at the end of every completion callback.

* `Link`, `link` — the joint system and its steps, taken in any order.
* `WakeUp` — the invariant; `wakeUp_step` is the step lemma.
* `no_lost_wake_up` — while the line is high, something is on its way that reads it.
-/

/-! ### The joint system -/

/-- How far a completion callback has come. -/
inductive Stage
  | entered
  /-- `spi_pending` is cleared, the line not yet sampled. -/
  | cleared
  /-- `gpio_get_value` has returned, `nrf51822_read_irq` is not yet called. -/
  | sampled (line : Bool)
  deriving DecidableEq

/-- A completion callback in progress. -/
structure Callback where
  complete : Completion
  stage : Stage
  deriving DecidableEq

/-- The stages from which a callback reads again if the line is high. -/
def Stage.WillRead (s : Stage) : Prop := s = .cleared ∨ s = .sampled true

/-- The state of the joint system. -/
structure Link where
  fw : Firmware
  drv : Driver
  /-- A rising edge is latched and its interrupt not yet handled. -/
  edge : Bool
  /-- The messages the SPI core has not transferred yet. -/
  outstanding : List SpiMessage
  /-- The transfers whose `SPI_SLAVE_XFER_DONE` the firmware has not handled yet. -/
  xferDone : ℕ
  callbacks : List Callback

/-- The line is low and the driver idle. -/
def Link.init : Link := ⟨Firmware.init, Driver.init, false, [], 0, []⟩

/-- The steps of the joint system; `k` picks the callback that goes on. -/
inductive LinkInput
  | advertisement (e : Event)
  | transferEnds (miso : List UInt8)
  | firmwareXferDone
  | callbackClear (k : ℕ)
  | callbackSample (k : ℕ)
  | callbackFinish (k : ℕ)
  | interrupt
  | command (command : UInt8)

/-- A firmware handler has run: a low line that went high is a rising edge. -/
def Link.setFirmware (l : Link) (fw : Firmware) : Link :=
  { l with fw, edge := l.edge || (!l.fw.interruptPin && fw.interruptPin) }

/-- A path of the driver has run that may hand a message to the SPI core. -/
def Link.submit (l : Link) (r : Driver × Option SpiMessage) : Link :=
  { l with drv := r.1, outstanding := l.outstanding ++ r.2.toList }

/-- One step of the joint system. -/
def Link.step (l : Link) : LinkInput → Option (Link × List Obs)
  | .advertisement e =>
    let (_, fw, o) := interruptEventQueueAdd e l.fw
    some (l.setFirmware fw, o)
  -- the SPI core takes the messages in the order they were handed to it
  | .transferEnds miso =>
    match l.outstanding with
    | [] => none
    | msg :: rest =>
      if miso.length = msg.transfer.len then
        some ({ l with
          fw := spiReceive (l.drv.mosi msg) l.fw
          drv := l.drv.receive miso
          outstanding := rest
          xferDone := l.xferDone + 1
          callbacks := l.callbacks ++ [⟨msg.complete, .entered⟩] }, [])
      else none
  | .firmwareXferDone =>
    if l.xferDone = 0 then none
    else
      let (fw, o) := spiSlaveEventHandle .xferDone l.fw
      some ({ l.setFirmware fw with xferDone := l.xferDone - 1 }, o)
  | .callbackClear k =>
    match l.callbacks[k]? with
    | some ⟨c, .entered⟩ =>
      some ({ l with
        drv := clearSpiPending (c.done l.drv).1
        callbacks := l.callbacks.set k ⟨c, .cleared⟩ }, [])
    | _ => none
  -- `gpio_get_value`; the delay before the read is where other steps come in
  | .callbackSample k =>
    match l.callbacks[k]? with
    | some ⟨c, .cleared⟩ =>
      some ({ l with callbacks := l.callbacks.set k ⟨c, .sampled l.fw.interruptPin⟩ }, [])
    | _ => none
  | .callbackFinish k =>
    match l.callbacks[k]? with
    | some ⟨_, .sampled line⟩ =>
      some ({ l with callbacks := l.callbacks.eraseIdx k }.submit (nrf51822CheckIrq line l.drv), [])
    | _ => none
  | .interrupt =>
    if l.edge then
      some ({ l with edge := false }.submit (nrf51822InterruptHandler l.drv), [])
    else none
  | .command command => some (l.submit (nrf51822IssueSimpleCommand command l.drv).2, [])

/-- The joint system as a machine. -/
def link : Machine Link LinkInput Obs := ⟨Link.init, Link.step⟩

/-- The advertisements a run queues have data. -/
def LinkInput.HasData : LinkInput → Prop
  | .advertisement e => e.data ≠ []
  | _ => True

/-! ### The invariant -/

/-- The callbacks that still hold the claim on the SPI buffer. -/
def entered (cs : List Callback) : ℕ := cs.countP fun c => c.stage = .entered

/-- The claims on the SPI buffer: messages in transfer and callbacks yet to release it. -/
def Link.claims (l : Link) : ℕ := l.outstanding.length + entered l.callbacks

/-- What would make the driver read: a latched edge, a transfer or completion outstanding, or a
    callback before its level test. -/
def Link.ReadDue (l : Link) : Prop :=
  l.edge = true ∨ 0 < l.claims ∨ ∃ c ∈ l.callbacks, c.stage.WillRead

/-- **The invariant.**  `spi_pending` counts the claims, the firmware is an outbox, and a high
    line has a read due. -/
structure WakeUp (l : Link) : Prop where
  claims : l.claims = l.drv.spiPending.toNat
  firmware : ∃ b, Represents l.fw b
  line : l.fw.interruptPin = true → l.ReadDue

theorem wakeUp_init : WakeUp Link.init where
  claims := rfl
  firmware := ⟨Outbox.empty, represents_init⟩
  line h := by simp [Link.init, Firmware.init] at h

/-! ### Lists of callbacks -/

theorem entered_append (cs ds : List Callback) : entered (cs ++ ds) = entered cs + entered ds :=
  List.countP_append

theorem entered_cons (c : Callback) (cs : List Callback) :
    entered (c :: cs) = entered cs + if c.stage = .entered then 1 else 0 := by
  simp [entered, List.countP_cons]

/-! ### Steps -/

/-- A path that ends with the SPI buffer claimed, by a message of its own or of another. -/
structure Claims (dev : Driver) (r : Driver × Option SpiMessage) : Prop where
  pending : r.1.spiPending = true
  message : r.2.toList.length + dev.spiPending.toNat = 1

theorem nrf51822ReadIrq_claims (dev : Driver) : Claims dev (nrf51822ReadIrq dev) := by
  unfold nrf51822ReadIrq
  by_cases h : dev.spiPending = true
  · rw [if_pos h]
    exact ⟨h, by simp [h]⟩
  · rw [if_neg h]
    exact ⟨rfl, by simp [h]⟩

theorem nrf51822IssueSimpleCommand_claims (command : UInt8) (dev : Driver) :
    Claims dev (nrf51822IssueSimpleCommand command dev).2 := by
  unfold nrf51822IssueSimpleCommand
  by_cases h : dev.spiPending = true
  · rw [if_pos h]
    exact ⟨h, by simp [h]⟩
  · rw [if_neg h]
    exact ⟨rfl, by simp [h]⟩

/-- Such a path keeps `n` claims counted by `spi_pending`, its own message among them. -/
theorem Claims.count {dev : Driver} {r : Driver × Option SpiMessage} (hr : Claims dev r) {n : ℕ}
    (hn : n = dev.spiPending.toNat) :
    n + r.2.toList.length = 1 ∧ n + r.2.toList.length = r.1.spiPending.toNat := by
  have hmsg := hr.message
  have hone : n + r.2.toList.length = 1 := by omega
  exact ⟨hone, by rw [hone, hr.pending]; rfl⟩

/-- **A read or a command restores the invariant**, whatever was due before it: afterwards a
    message or a callback holds the claim. -/
theorem wakeUp_submit {l : Link} (hclaims : l.claims = l.drv.spiPending.toNat)
    (hfw : ∃ b, Represents l.fw b) {r : Driver × Option SpiMessage} (hr : Claims l.drv r) :
    WakeUp (l.submit r) := by
  -- either the claim was free and there is a new message, or it was held and there is none
  obtain ⟨hone, hcount⟩ := hr.count hclaims
  have hsubmit : (l.submit r).claims = l.claims + r.2.toList.length := by
    show (l.outstanding ++ r.2.toList).length + entered l.callbacks = _
    rw [List.length_append, Link.claims]
    omega
  exact ⟨hsubmit.trans hcount, hfw, fun _ => .inr (.inl (by omega))⟩

/-- **A firmware handler keeps the invariant**: it raises the line only with an edge. -/
theorem wakeUp_setFirmware {l : Link} (h : WakeUp l) {fw : Firmware}
    (hfw : ∃ b, Represents fw b) : WakeUp (l.setFirmware fw) := by
  refine ⟨h.claims, hfw, fun hpin => ?_⟩
  replace hpin : fw.interruptPin = true := hpin
  by_cases hold : l.fw.interruptPin = true
  · -- the line was high before: what was due then still is
    rcases h.line hold with hedge | hdue
    · exact .inl (by simp [Link.setFirmware, hedge])
    · exact .inr hdue
  · exact .inl (by simp [Link.setFirmware, hold, hpin])

/-- The end of a transfer turns a message into a callback. -/
theorem wakeUp_transferEnds {l : Link} (h : WakeUp l) {msg : SpiMessage} {rest : List SpiMessage}
    (hout : l.outstanding = msg :: rest) (miso : List UInt8) :
    WakeUp { l with
      fw := spiReceive (l.drv.mosi msg) l.fw
      drv := l.drv.receive miso
      outstanding := rest
      xferDone := l.xferDone + 1
      callbacks := l.callbacks ++ [⟨msg.complete, .entered⟩] } := by
  obtain ⟨b, hb⟩ := h.firmware
  have hkeep : rest.length + entered (l.callbacks ++ [⟨msg.complete, .entered⟩]) = l.claims := by
    rw [entered_append, entered_cons, if_pos rfl, Link.claims, hout, List.length_cons]
    show rest.length + (entered l.callbacks + (0 + 1)) = rest.length + 1 + entered l.callbacks
    omega
  -- the callback that is entered now has a read due, whatever the line is
  refine ⟨hkeep.trans h.claims, ⟨b, represents_receive hb _⟩, fun _ => .inr (.inl ?_)⟩
  show 0 < rest.length + entered (l.callbacks ++ [⟨msg.complete, .entered⟩])
  rw [entered_append, entered_cons, if_pos rfl]
  omega

/-- Clearing `spi_pending` gives up the claim and leaves the level test to be made. -/
theorem wakeUp_callbackClear {l : Link} (h : WakeUp l) {k : ℕ} {c : Completion}
    (hk : l.callbacks[k]? = some ⟨c, .entered⟩) :
    WakeUp { l with
      drv := clearSpiPending (c.done l.drv).1
      callbacks := l.callbacks.set k ⟨c, .cleared⟩ } := by
  obtain ⟨pre, post, heq, hset, -⟩ := split_of_getElem? hk
  rw [hset]
  have hclaims := h.claims
  rw [Link.claims, heq, entered_append, entered_cons, if_pos rfl] at hclaims
  refine ⟨?_, h.firmware, fun _ => .inr (.inr ⟨⟨c, .cleared⟩, by simp, .inl rfl⟩)⟩
  show l.outstanding.length + entered (pre ++ ⟨c, .cleared⟩ :: post) = 0
  rw [entered_append, entered_cons, if_neg (by simp)]
  -- there was at most one claim, and this callback held it
  have hle := Bool.toNat_le l.drv.spiPending
  omega

/-- Sampling a high line leaves a read to be made; a low line needs none. -/
theorem wakeUp_callbackSample {l : Link} (h : WakeUp l) {k : ℕ} {c : Completion}
    (hk : l.callbacks[k]? = some ⟨c, .cleared⟩) :
    WakeUp { l with callbacks := l.callbacks.set k ⟨c, .sampled l.fw.interruptPin⟩ } := by
  obtain ⟨pre, post, heq, hset, -⟩ := split_of_getElem? hk
  rw [hset]
  refine ⟨?_, h.firmware, fun hpin => .inr (.inr ⟨⟨c, .sampled l.fw.interruptPin⟩, by simp, ?_⟩)⟩
  · show l.outstanding.length + entered (pre ++ ⟨c, .sampled l.fw.interruptPin⟩ :: post) = _
    have hclaims := h.claims
    rw [Link.claims, heq, entered_append, entered_cons, if_neg (by simp)] at hclaims
    rwa [entered_append, entered_cons, if_neg (by simp)]
  · exact .inr (congrArg Stage.sampled hpin)

/-- The end of a callback: it reads again, or it had seen the line low, and then a high line
    has come with something else that is due. -/
theorem wakeUp_callbackFinish {l : Link} (h : WakeUp l) {k : ℕ} {c : Completion} {line : Bool}
    (hk : l.callbacks[k]? = some ⟨c, .sampled line⟩) :
    WakeUp ({ l with callbacks := l.callbacks.eraseIdx k }.submit
      (nrf51822CheckIrq line l.drv)) := by
  obtain ⟨pre, post, heq, -, herase⟩ := split_of_getElem? hk
  rw [herase]
  have hclaims : l.outstanding.length + entered (pre ++ post) = l.drv.spiPending.toNat := by
    have hclaims := h.claims
    rw [Link.claims, heq, entered_append, entered_cons, if_neg (by simp)] at hclaims
    rwa [entered_append]
  cases line with
  | true =>
    exact wakeUp_submit (l := { l with callbacks := pre ++ post }) hclaims h.firmware
      (nrf51822ReadIrq_claims l.drv)
  | false =>
    -- nothing is handed over; this callback held no claim
    have hsame : l.claims = l.outstanding.length + entered (pre ++ post) :=
      h.claims.trans hclaims.symm
    refine ⟨?_, h.firmware, fun hpin => ?_⟩
    · show (l.outstanding ++ []).length + entered (pre ++ post) = l.drv.spiPending.toNat
      rwa [List.append_nil]
    · rcases h.line hpin with hedge | hdue | ⟨c', hmem, hread⟩
      · exact .inl hedge
      · refine .inr (.inl ?_)
        show 0 < (l.outstanding ++ []).length + entered (pre ++ post)
        rwa [List.append_nil, ← hsame]
      · -- the callback that is due is another one: this one has sampled a low line
        refine .inr (.inr ⟨c', ?_, hread⟩)
        show c' ∈ pre ++ post
        rw [heq, List.mem_append, List.mem_cons] at hmem
        rw [List.mem_append]
        rcases hmem with hpre | rfl | hpost
        · exact .inl hpre
        · rcases hread with hread | hread <;> simp at hread
        · exact .inr hpost

/-- **Step lemma.**  Every step keeps the invariant. -/
theorem wakeUp_step {l l' : Link} {i : LinkInput} {o : List Obs} (h : WakeUp l) (hi : i.HasData)
    (hs : l.step i = some (l', o)) : WakeUp l' := by
  obtain ⟨b, hb⟩ := h.firmware
  cases i with
  | advertisement e =>
    obtain ⟨rfl, -⟩ := Prod.mk.inj (Option.some.inj hs)
    exact wakeUp_setFirmware h ⟨_, (represents_add hb hi).1⟩
  | transferEnds miso =>
    cases hout : l.outstanding with
    | nil => simp [Link.step, hout] at hs
    | cons msg rest =>
      by_cases hlen : miso.length = msg.transfer.len
      · simp only [Link.step, hout, hlen, if_true, Option.some.injEq, Prod.mk.injEq] at hs
        obtain ⟨rfl, -⟩ := hs
        exact wakeUp_transferEnds h hout miso
      · simp [Link.step, hout, hlen] at hs
  | firmwareXferDone =>
    by_cases hnone : l.xferDone = 0
    · simp [Link.step, hnone] at hs
    · simp only [Link.step, hnone, if_false, Option.some.injEq, Prod.mk.injEq] at hs
      obtain ⟨rfl, -⟩ := hs
      have hfw := wakeUp_setFirmware h ⟨_, (represents_xferDone hb).1⟩
      generalize (spiSlaveEventHandle .xferDone l.fw).1 = fw at hfw ⊢
      exact ⟨hfw.claims, hfw.firmware, hfw.line⟩
  | callbackClear k =>
    simp only [Link.step] at hs
    split at hs
    · next c hk =>
      obtain ⟨rfl, -⟩ := Prod.mk.inj (Option.some.inj hs)
      exact wakeUp_callbackClear h hk
    · cases hs
  | callbackSample k =>
    simp only [Link.step] at hs
    split at hs
    · next c hk =>
      obtain ⟨rfl, -⟩ := Prod.mk.inj (Option.some.inj hs)
      exact wakeUp_callbackSample h hk
    · cases hs
  | callbackFinish k =>
    simp only [Link.step] at hs
    split at hs
    · next c line hk =>
      obtain ⟨rfl, -⟩ := Prod.mk.inj (Option.some.inj hs)
      exact wakeUp_callbackFinish h hk
    · cases hs
  | interrupt =>
    by_cases hedge : l.edge = true
    · simp only [Link.step, hedge, if_true, Option.some.injEq, Prod.mk.injEq] at hs
      obtain ⟨rfl, -⟩ := hs
      exact wakeUp_submit (l := { l with edge := false }) h.claims h.firmware
        (nrf51822ReadIrq_claims l.drv)
    · simp [Link.step, hedge] at hs
  | command command =>
    obtain ⟨rfl, -⟩ := Prod.mk.inj (Option.some.inj hs)
    exact wakeUp_submit h.claims h.firmware (nrf51822IssueSimpleCommand_claims command l.drv)

/-- **Run lemma.**  The invariant holds in every reachable state. -/
theorem wakeUp_of_run (is : List LinkInput) (l : Link) (o : List Obs)
    (hdata : ∀ i ∈ is, i.HasData) (hrun : link.run is = some (l, o)) : WakeUp l :=
  Machine.run_induct_along (P := fun _ l _ => WakeUp l) (C := fun _ _ i => i.HasData) wakeUp_init
    (fun _ _ _ _ _ _ _ h hi hs => wakeUp_step h hi hs) is l o (Machine.along_of_forall hdata) hrun

/-! ### No lost wake-up -/

/-- Nothing is latched, claimed or in progress on the driver's side. -/
def Link.Idle (l : Link) : Prop :=
  l.edge = false ∧ l.drv.spiPending = false ∧ l.callbacks = []

/-- The firmware has an event that the driver has not read. -/
def Firmware.HoldsEvent (s : Firmware) : Prop :=
  s.bufferFull = true ∨ s.eventQueue.itemsInQueue ≠ 0

/-- An event held by the firmware shows on the line. -/
theorem Represents.pin_of_holdsEvent {s : Firmware} {b : Outbox Event interruptEventQueueLen}
    (h : Represents s b) (he : s.HoldsEvent) : s.interruptPin = true := by
  rw [h.pin]
  rcases he with hfull | hitems
  · exact hfull
  · rw [h.itemsInQueue] at hitems
    rw [h.full]
    cases hslot : b.slot with
    | none => exact absurd (by rw [b.queue_nil hslot]; rfl) hitems
    | some e => rfl

/-- **No lost wake-up.**  In every state reachable by any order of the steps, with every
    advertisement queued at least one byte long: while the line is high, an edge waits to be
    handled, or `spi_pending` is set with its transfer or its completion outstanding, or a
    callback has yet to sample the line or has sampled it high and has yet to read.  So the
    driver is not idle while the firmware holds an event. -/
theorem no_lost_wake_up (is : List LinkInput) (l : Link) (o : List Obs)
    (hdata : ∀ i ∈ is, i.HasData) (hrun : link.run is = some (l, o)) :
    (l.fw.interruptPin = true →
      l.edge = true ∨
        (l.drv.spiPending = true ∧
          (l.outstanding ≠ [] ∨ ∃ c ∈ l.callbacks, c.stage = .entered)) ∨
        ∃ c ∈ l.callbacks, c.stage.WillRead) ∧
      (l.fw.HoldsEvent → ¬ l.Idle) := by
  have h := wakeUp_of_run is l o hdata hrun
  obtain ⟨b, hb⟩ := h.firmware
  constructor
  · intro hpin
    rcases h.line hpin with hedge | hdue | hread
    · exact .inl hedge
    · refine .inr (.inl ⟨?_, ?_⟩)
      · -- a claim is held, so `spi_pending` is set
        rw [h.claims] at hdue
        by_contra hfree
        rw [Bool.eq_false_of_not_eq_true hfree] at hdue
        cases hdue
      · by_cases hout : l.outstanding = []
        · rw [Link.claims, hout, List.length_nil, Nat.zero_add] at hdue
          obtain ⟨c, hmem, hc⟩ := List.countP_pos_iff.mp hdue
          exact .inr ⟨c, hmem, of_decide_eq_true hc⟩
        · exact .inl hout
    · exact .inr (.inr hread)
  · rintro he ⟨hedge, hpending, hcallbacks⟩
    rcases h.line (hb.pin_of_holdsEvent he) with hedge' | hdue | ⟨c, hmem, -⟩
    · rw [hedge] at hedge'; cases hedge'
    · rw [h.claims, hpending] at hdue; cases hdue
    · rw [hcallbacks] at hmem; cases hmem

/-- `no_lost_wake_up` where a second event is queued while the first is being read: the
    interrupt of the first is handled, and the line stays high without a new edge. -/
theorem no_lost_wake_up_second_event :
    ∃ l o, link.run [.advertisement ⟨1, [7], by decide⟩, .interrupt,
        .advertisement ⟨1, [8], by decide⟩, .transferEnds (List.replicate 40 0),
        .firmwareXferDone, .callbackClear 0] = some (l, o) ∧
      l.fw.HoldsEvent ∧ l.edge = false ∧ ¬ l.Idle := by
  refine ⟨_, _, rfl, .inl rfl, rfl, ?_⟩
  exact (no_lost_wake_up [.advertisement ⟨1, [7], by decide⟩, .interrupt,
    .advertisement ⟨1, [8], by decide⟩, .transferEnds (List.replicate 40 0),
    .firmwareXferDone, .callbackClear 0] _ _ (by simp [LinkInput.HasData]) rfl).2 (.inl rfl)

end Gap.Bcp
