import Gap.Bcp.SpiSlave

namespace Gap.Bcp

open Outbox

/-!
# Firmware — events reach the transmit buffer in order

The firmware is an implementation of the abstract `Outbox` of events with a backlog of
`INTERRUPT_EVENT_QUEUE_LEN`: `buffer_full` and the interrupt line say whether the slot is
taken, `spi_tx_buf` shows the item in the slot, the ring holds the backlog.

* `Represents` — the refinement relation; `represents_add` and `represents_xferDone` are the
  step lemmas, `firmware_simulates` the run lemma.
* `acceptedItems_add`, `acked_mem_handle` — the outputs say what the calls return, and which
  handler has run.
* `History` — what the calls of a run and their results add up to.
* `event_delivery` — over every run, the frames loaded are the accepted events in order.
-/

/-- The firmware state `s` implements the outbox `b`. -/
structure Represents (s : Firmware) (b : Outbox Event interruptEventQueueLen) : Prop where
  head : s.eventQueue.HeadOk
  queue : List.Forall₂ Holds s.eventQueue.pending b.queue
  full : s.bufferFull = b.slot.isSome
  pin : s.interruptPin = s.bufferFull
  slot : ∀ e ∈ b.slot, Carries s.spiTxBuf e
  /-- A stored length of 0 would read as "nothing queued". -/
  nonempty : ∀ e ∈ b.queue, e.data ≠ []

theorem represents_init : Represents Firmware.init Outbox.empty where
  head := rfl
  queue := .nil
  full := rfl
  pin := rfl
  slot := by simp [Outbox.empty]
  nonempty := by simp [Outbox.empty]

theorem Represents.itemsInQueue {s : Firmware} {b : Outbox Event interruptEventQueueLen}
    (h : Represents s b) : s.eventQueue.itemsInQueue = b.queue.length := by
  rw [← EventQueue.length_pending, h.queue.length_eq]

/-! ### What `repopulate` does -/

/-- The transmit buffer filled from a queue item. -/
def shown (tx : Buf 64) (item : QueueItem) : Buf 64 :=
  setHeader (tx.copy 2 (item.buffer.front (min item.len.toNat 64))) item.len item.interruptEvent

/-- The buffer filled from an item that holds `e` shows `e`. -/
theorem carries_of_holds {item : QueueItem} {e : Event} (h : Holds item e) (tx : Buf 64) :
    Carries (shown tx item) e where
  length := by simp [shown, setHeader, h.len]
  responseType := by simp [shown, setHeader, h.interruptEvent]
  data i hi hi' := by
    -- the data lies behind the two header bytes
    have hmem : i + 2 - 2 < (item.buffer.front (min item.len.toNat 64)).length := by
      simp [h.len]; omega
    rw [shown, setHeader, Function.update_of_ne (by simp [Fin.ext_iff]),
      Function.update_of_ne (by simp [Fin.ext_iff]), Buf.copy_of_mem _ _ (by simp) hmem,
      Buf.getElem_front]
    exact h.buffer i hi (by omega)

/-- An event with data is stored with a length the handlers take for data. -/
theorem Holds.len_pos {item : QueueItem} {e : Event} (h : Holds item e) (he : e.data ≠ []) :
    item.len > 0 := by
  rw [h.len, gt_iff_lt, UInt8.lt_iff_toNat_lt, Event.toNat_len]
  exact List.length_pos_of_ne_nil he

/-- With nothing queued, `repopulate` returns 0 and changes nothing. -/
theorem repopulate_of_empty {s : Firmware} (h : s.eventQueue.pending = []) :
    repopulate s = (0, s) := by
  rw [repopulate, EventQueue.get_of_empty h]
  rfl

/-- With an item queued, `repopulate` drops it from the queue, and shows it unless its length
    is 0. -/
theorem repopulate_eq_of_cons {s : Firmware} {item : QueueItem} {rest : List QueueItem}
    (hp : s.eventQueue.pending = item :: rest) :
    ∃ q, q.pending = rest ∧ (s.eventQueue.HeadOk → q.HeadOk) ∧
      repopulate s = (item.len, { s with
        eventQueue := q
        spiTxBuf := if item.len > 0 then shown s.spiTxBuf item else s.spiTxBuf }) := by
  obtain ⟨q, hq, hget⟩ := EventQueue.get_of_cons hp 0 s.spiTxBuf 2
  have hhead : s.eventQueue.HeadOk → q.HeadOk := by
    intro hhead
    have h := EventQueue.get_headOk hhead 0 s.spiTxBuf 2
    rwa [hget] at h
  refine ⟨q, hq, hhead, ?_⟩
  rw [repopulate, hget]
  by_cases hpos : item.len > 0
  · simp [hpos, shown]
  · -- none of the item's bytes are copied
    have hzero : item.len = 0 := by
      rw [gt_iff_lt, UInt8.pos_iff_ne_zero, not_not] at hpos
      exact hpos
    simp [hzero]

/-- With an event queued, `repopulate` shows it in the transmit buffer and drops it from the
    queue. -/
theorem repopulate_of_cons {s : Firmware} {item : QueueItem} {rest : List QueueItem} {e : Event}
    (hp : s.eventQueue.pending = item :: rest) (hhead : s.eventQueue.HeadOk)
    (hi : Holds item e) (he : e.data ≠ []) :
    ∃ q tx, q.pending = rest ∧ q.HeadOk ∧ Carries tx e ∧
      repopulate s = (item.len, { s with eventQueue := q, spiTxBuf := tx }) := by
  obtain ⟨q, hq, hhead', hrep⟩ := repopulate_eq_of_cons hp
  rw [if_pos (hi.len_pos he)] at hrep
  exact ⟨q, _, hq, hhead' hhead, carries_of_holds hi s.spiTxBuf, hrep⟩

/-! ### Step lemmas -/

/-- The outputs of corresponding steps agree, the abstract loads showing the event that the
    transmit buffer carries. -/
abbrev ObsRel : Obs → Out Event Event → Prop := Out.Rel Carries

/-- While a frame is on offer, `spi_slave_notify` does nothing. -/
theorem spiSlaveNotify_of_full {s : Firmware} (h : s.bufferFull = true) :
    spiSlaveNotify s = (s, []) := by
  simp [spiSlaveNotify, h]

/-- With the buffer free, `spi_slave_notify` offers the oldest event queued. -/
theorem spiSlaveNotify_of_cons {s : Firmware} {item : QueueItem} {rest : List QueueItem}
    {e : Event} (hf : s.bufferFull = false) (hp : s.eventQueue.pending = item :: rest)
    (hhead : s.eventQueue.HeadOk) (hi : Holds item e) (he : e.data ≠ []) :
    ∃ q tx, q.pending = rest ∧ q.HeadOk ∧ Carries tx e ∧
      spiSlaveNotify s = ({ s with
        eventQueue := q, spiTxBuf := tx, bufferFull := true, interruptPin := true },
        [.loaded tx]) := by
  obtain ⟨q, tx, hq, hhead', htx, hrep⟩ := repopulate_of_cons hp hhead hi he
  refine ⟨q, tx, hq, hhead', htx, ?_⟩
  simp [spiSlaveNotify, hf, hrep, hi.len_pos he]

/-- A full queue refuses the event and nothing changes. -/
theorem interruptEventQueueAdd_of_full {s : Firmware}
    (h : s.eventQueue.itemsInQueue = interruptEventQueueLen) (e : Event) :
    interruptEventQueueAdd e s = (.noMem, s, [.refused e]) := by
  rw [interruptEventQueueAdd, if_pos h]

/-- Otherwise the event is queued and the SPI slave is notified. -/
theorem interruptEventQueueAdd_of_ne {s : Firmware}
    (h : s.eventQueue.itemsInQueue ≠ interruptEventQueueLen) (e : Event) :
    interruptEventQueueAdd e s =
      (.success, (spiSlaveNotify { s with eventQueue := s.eventQueue.put e }).1,
        .accepted e :: (spiSlaveNotify { s with eventQueue := s.eventQueue.put e }).2) := by
  rw [interruptEventQueueAdd, if_neg h]

/-- **`interrupt_event_queue_add` is `offer`.** -/
theorem represents_add {s : Firmware} {b : Outbox Event interruptEventQueueLen}
    (hR : Represents s b) {e : Event} (he : e.data ≠ []) :
    Represents (interruptEventQueueAdd e s).2.1 (b.offer e).1 ∧
      List.Forall₂ ObsRel (interruptEventQueueAdd e s).2.2 (b.offer e).2 := by
  have hitems := hR.itemsInQueue
  have hput := EventQueue.put_headOk hR.head e
  cases hslot : b.slot with
  | none =>
    -- the slot is free: nothing is queued, and the new event goes straight to the buffer
    have hbnil := b.queue_nil hslot
    rw [hbnil] at hitems
    have hfree : s.bufferFull = false := by rw [hR.full, hslot]; rfl
    have hnil : s.eventQueue.pending = [] :=
      List.eq_nil_of_length_eq_zero (by rw [EventQueue.length_pending, hitems]; rfl)
    obtain ⟨item, hitem, hp⟩ := EventQueue.pending_put hR.head (by rw [hitems]; decide) e
    rw [hnil, List.nil_append] at hp
    obtain ⟨q, tx, hq, hhead, htx, hn⟩ := spiSlaveNotify_of_cons
      (s := { s with eventQueue := s.eventQueue.put e }) hfree hp hput hitem he
    obtain ⟨hs', hq', ho⟩ := offer_of_none hslot e
    rw [interruptEventQueueAdd_of_ne (by rw [hitems]; decide), hn, ho]
    refine ⟨⟨hhead, ?_, ?_, rfl, ?_, ?_⟩, .cons (.accepted e) (.cons (.loaded htx) .nil)⟩
    · rw [hq', hq]; exact .nil
    · rw [hs']; rfl
    · intro e' he'
      rw [hs'] at he'
      obtain rfl : e = e' := by simpa using he'
      exact htx
    · simp [hq']
  | some y =>
    have htaken : s.bufferFull = true := by rw [hR.full, hslot]; rfl
    by_cases hlt : b.queue.length < interruptEventQueueLen
    · -- the slot is taken: the event waits behind the others
      obtain ⟨item, hitem, hp⟩ := EventQueue.pending_put hR.head (by rwa [hitems]) e
      obtain ⟨hs', hq', ho⟩ := offer_of_lt hslot hlt e
      rw [interruptEventQueueAdd_of_ne (by rw [hitems]; exact hlt.ne),
        spiSlaveNotify_of_full (by exact htaken), ho]
      refine ⟨⟨hput, ?_, ?_, hR.pin, ?_, ?_⟩, .cons (.accepted e) .nil⟩
      · rw [hq']
        show List.Forall₂ Holds (s.eventQueue.put e).pending (b.queue ++ [e])
        rw [hp]
        exact List.rel_append hR.queue (.cons hitem .nil)
      · rw [hs', ← hslot]; exact hR.full
      · rw [hs', ← hslot]; exact hR.slot
      · intro e' he'
        rw [hq'] at he'
        rcases List.mem_append.mp he' with hold | hnew
        · exact hR.nonempty e' hold
        · rwa [List.mem_singleton.mp hnew]
    · -- both are full
      have hfull : s.eventQueue.itemsInQueue = interruptEventQueueLen :=
        hitems.trans (le_antisymm b.queue_le (not_lt.mp hlt))
      rw [interruptEventQueueAdd_of_full hfull, offer_of_full hslot hlt]
      exact ⟨hR, .cons (.refused e) .nil⟩

/-- The command switch reaches the event path only through `bcp_irq_advertisements`. -/
theorem runCommand_eq (s : Firmware) :
    runCommand s = { s with bcpIrqAdvertisements := (runCommand s).bcpIrqAdvertisements } := by
  simp only [runCommand]
  split
  · rfl
  · split <;> rfl

/-- **The `SPI_SLAVE_XFER_DONE` handler is `ack`.** -/
theorem represents_xferDone {s : Firmware} {b : Outbox Event interruptEventQueueLen}
    (hR : Represents s b) :
    Represents (spiSlaveEventHandle .xferDone s).1 b.ack.1 ∧
      List.Forall₂ ObsRel (spiSlaveEventHandle .xferDone s).2 b.ack.2 := by
  have hqueue := hR.queue
  have hne := hR.nonempty
  simp only [spiSlaveEventHandle]
  rw [runCommand_eq]
  cases hb : b.queue with
  | nil =>
    -- nothing waits: the slot is freed, with the flag and the line
    obtain ⟨hs', hq', ho⟩ := ack_of_nil hb
    rw [hb] at hqueue
    have hpend := List.forall₂_nil_right_iff.mp hqueue
    rw [repopulate_of_empty (by exact hpend), ho]
    refine ⟨⟨hR.head, ?_, ?_, rfl, ?_, ?_⟩, .cons .acked (.cons .emptied .nil)⟩
    · rw [hq']; exact hqueue
    · rw [hs']; rfl
    · simp [hs']
    · simp [hq']
  | cons y ys =>
    -- the oldest event waiting moves up, and the line stays high
    obtain ⟨hs', hq', ho⟩ := ack_of_cons hb
    rw [hb] at hqueue hne
    obtain ⟨item, rest, hitem, hrest, hpend⟩ := List.forall₂_cons_right_iff.mp hqueue
    have hy : y.data ≠ [] := hne y List.mem_cons_self
    obtain ⟨q, tx, hq, hhead, htx, hrep⟩ := repopulate_of_cons
      (s := { s with bcpIrqAdvertisements := (runCommand s).bcpIrqAdvertisements })
      (by exact hpend) hR.head hitem hy
    rw [hrep, ho]
    simp only [hitem.len_pos hy, if_true]
    refine ⟨⟨hhead, ?_, ?_, rfl, ?_, ?_⟩, .cons .acked (.cons (.loaded htx) .nil)⟩
    · rw [hq', hq]; exact hrest
    · rw [hs']; rfl
    · intro e' he'
      rw [hs'] at he'
      obtain rfl : y = e' := by simpa using he'
      exact htx
    · rw [hq']
      exact fun e' he' => hne e' (List.mem_cons_of_mem _ he')

/-- Receiving command bytes does not touch the event path. -/
theorem represents_receive {s : Firmware} {b : Outbox Event interruptEventQueueLen}
    (hR : Represents s b) (mosi : List UInt8) : Represents (spiReceive mosi s) b :=
  ⟨hR.head, hR.queue, hR.full, hR.pin, hR.slot, hR.nonempty⟩

/-! ### Runs of the firmware -/

/-- The handlers that drive the event path: a caller queues an event, or a transfer ends with
    the bytes `mosi` received. -/
inductive Input
  | add (e : Event)
  | xferDone (mosi : List UInt8)

/-- The handler an input runs. -/
def Input.handle (s : Firmware) : Input → Firmware × List Obs
  | .add e => (interruptEventQueueAdd e s).2
  | .xferDone mosi => spiSlaveEventHandle .xferDone (spiReceive mosi s)

/-- The firmware, each handler running to completion. -/
def firmware : Machine Firmware Input Obs where
  init := Firmware.init
  step s i := some (i.handle s)

/-- One handler, as a run of the firmware. -/
theorem firmware_runFrom (s : Firmware) (i : Input) :
    firmware.runFrom (s, []) [i] = some ((i.handle s).1, (i.handle s).2) :=
  firmware.runFrom_singleton rfl []

/-- The abstract counterpart of an input. -/
def Input.abstract : Input → In Event
  | .add e => .offer e
  | .xferDone _ => .ack

/-- The events a run queues have data. -/
def Input.HasData : Input → Prop
  | .add e => e.data ≠ []
  | .xferDone _ => True

/-- **Refinement.**  Every run of the firmware is a run of the outbox, the loaded buffers
    showing the loaded events. -/
theorem firmware_simulates (is : List Input) (s : Firmware) (o : List Obs)
    (hdata : ∀ i ∈ is, i.HasData) (hrun : firmware.run is = some (s, o)) :
    ∃ b o', (Outbox.machine Event interruptEventQueueLen).run (is.map Input.abstract)
        = some (b, o') ∧ Represents s b ∧ List.Forall₂ ObsRel o o' := by
  refine Machine.simulate (C := fun _ _ i => i.HasData) Represents Input.abstract ObsRel
    represents_init ?_ is s o (Machine.along_of_forall hdata) hrun
  intro s b _ i s' e hR hi hs
  obtain ⟨rfl, rfl⟩ := Prod.mk.inj (Option.some.inj hs)
  -- one handler, one operation of the outbox
  cases i with
  | add ev => exact ⟨_, _, rfl, represents_add hR hi⟩
  | xferDone mosi => exact ⟨_, _, rfl, represents_xferDone (represents_receive hR mosi)⟩

/-! ### The buffer on offer stays as it was loaded -/

/-- The buffer on offer according to the firmware's own state. -/
def Firmware.onOffer (s : Firmware) : Option (Buf 64) :=
  if s.bufferFull then some s.spiTxBuf else none

theorem Firmware.bufferFull_of_onOffer {s : Firmware} {tx : Buf 64} (h : s.onOffer = some tx) :
    s.bufferFull = true ∧ s.spiTxBuf = tx := by
  rw [Firmware.onOffer] at h
  split at h
  · next hf => exact ⟨hf, Option.some.inj h⟩
  · cases h

theorem Firmware.onOffer_of_bufferFull {s : Firmware} (h : s.bufferFull = true) :
    s.onOffer = some s.spiTxBuf := if_pos h

/-- `repopulate` leaves the flag to its caller. -/
theorem repopulate_bufferFull (s : Firmware) : (repopulate s).2.bufferFull = s.bufferFull := by
  simp only [repopulate]
  split <;> rfl

/-- **What `spi_slave_notify` can do**: nothing to be seen, or a load into a free buffer. -/
theorem spiSlaveNotify_cases (s : Firmware) :
    ((spiSlaveNotify s).2 = [] ∧ (spiSlaveNotify s).1.onOffer = s.onOffer) ∨
      s.onOffer = none ∧
        ∃ tx, (spiSlaveNotify s).2 = [.loaded tx] ∧ (spiSlaveNotify s).1.onOffer = some tx := by
  cases hf : s.bufferFull with
  | true =>
    rw [spiSlaveNotify_of_full hf]
    exact .inl ⟨rfl, rfl⟩
  | false =>
    have hkeep := repopulate_bufferFull s
    rcases hrep : repopulate s with ⟨dataLen, s₁⟩
    rw [hrep, hf] at hkeep
    replace hkeep : s₁.bufferFull = false := hkeep
    by_cases hpos : dataLen > 0
    · exact .inr ⟨by simp [Firmware.onOffer, hf], s₁.spiTxBuf, by
        simp [spiSlaveNotify, Firmware.onOffer, hf, hrep, hpos]⟩
    · exact .inl (by simp [spiSlaveNotify, Firmware.onOffer, hf, hrep, hpos, hkeep])

/-- **What `interrupt_event_queue_add` can do**: refuse, accept, or accept and load into a free
    buffer. -/
theorem interruptEventQueueAdd_cases (e : Event) (s : Firmware) :
    interruptEventQueueAdd e s = (.noMem, s, [.refused e]) ∨
      ((interruptEventQueueAdd e s).2.2 = [.accepted e] ∧
        (interruptEventQueueAdd e s).2.1.onOffer = s.onOffer) ∨
      s.onOffer = none ∧ ∃ tx, (interruptEventQueueAdd e s).2.2 = [.accepted e, .loaded tx] ∧
        (interruptEventQueueAdd e s).2.1.onOffer = some tx := by
  by_cases hfull : s.eventQueue.itemsInQueue = interruptEventQueueLen
  · exact .inl (interruptEventQueueAdd_of_full hfull e)
  · rw [interruptEventQueueAdd_of_ne hfull]
    rcases spiSlaveNotify_cases { s with eventQueue := s.eventQueue.put e } with
      ⟨hnone, hkeep⟩ | ⟨hfree, tx, htx, hload⟩
    · exact .inr (.inl ⟨by rw [hnone], hkeep⟩)
    · exact .inr (.inr ⟨hfree, tx, by rw [htx], hload⟩)

/-- **What the `XFER_DONE` handler can do**: load the next frame, or release the buffer. -/
theorem xferDone_cases (s : Firmware) :
    (∃ tx, (spiSlaveEventHandle .xferDone s).2 = [.acked, .loaded tx] ∧
        (spiSlaveEventHandle .xferDone s).1.onOffer = some tx) ∨
      (spiSlaveEventHandle .xferDone s).2 = [.acked, .emptied] ∧
        (spiSlaveEventHandle .xferDone s).1.onOffer = none := by
  simp only [spiSlaveEventHandle]
  rcases repopulate (runCommand s) with ⟨dataLen, s₁⟩
  by_cases hpos : dataLen > 0
  · exact .inl ⟨s₁.spiTxBuf, by simp [hpos, Firmware.onOffer]⟩
  · exact .inr (by simp [hpos, Firmware.onOffer])

/-- **Run lemma.**  The buffer on offer is the first load since the last `XFER_DONE`, byte
    for byte. -/
theorem onOffer_eq_held (is : List Input) (s : Firmware) (o : List Obs)
    (hrun : firmware.run is = some (s, o)) : s.onOffer = Out.held o := by
  refine Machine.run_induct (P := fun _ s o => s.onOffer = Out.held o) rfl ?_ is s o hrun
  intro _ i s o s' e _ ih hs
  obtain ⟨rfl, rfl⟩ := Prod.mk.inj (Option.some.inj hs)
  rw [Out.held_append, ← ih]
  cases i with
  | add ev =>
    show (interruptEventQueueAdd ev s).2.1.onOffer
      = (interruptEventQueueAdd ev s).2.2.foldl Out.holdNext s.onOffer
    rcases interruptEventQueueAdd_cases ev s with h | ⟨ho, hs⟩ | ⟨hfree, tx, ho, hs⟩
    · rw [h]; rfl
    · rw [ho, hs]; rfl
    · rw [ho, hs, hfree]; rfl
  | xferDone mosi =>
    show (spiSlaveEventHandle .xferDone (spiReceive mosi s)).1.onOffer
      = (spiSlaveEventHandle .xferDone (spiReceive mosi s)).2.foldl Out.holdNext s.onOffer
    -- the buffer is released before another frame is loaded
    rcases xferDone_cases (spiReceive mosi s) with ⟨tx, ho, hs⟩ | ⟨ho, hs⟩
    · rw [ho, hs]; rfl
    · rw [ho, hs]; rfl

/-! ### Delivery -/

/-- The events a run queues are between 1 and 62 bytes long. -/
def Input.Fits : Input → Prop
  | .add e => 1 ≤ e.data.length ∧ e.data.length ≤ 62
  | .xferDone _ => True

theorem Input.Fits.hasData {i : Input} (h : i.Fits) : i.HasData := by
  cases i with
  | add e => exact List.ne_nil_of_length_pos h.1
  | xferDone _ => trivial

/-- The frames of the buffers loaded are the frames of the events they show. -/
theorem map_frameIn_eq {txs : List (Buf 64)} {es : List Event} (h : List.Forall₂ Carries txs es)
    (hfit : ∀ e ∈ es, e.data.length ≤ 62) : txs.map frameIn = es.map Event.frame := by
  induction h with
  | nil => rfl
  | cons hc _ ih =>
    rw [List.map_cons, List.map_cons, hc.frameIn_eq (hfit _ List.mem_cons_self),
      ih fun e he => hfit e (List.mem_cons_of_mem _ he)]

/-- An event is accepted when `interrupt_event_queue_add` returns `NRF_SUCCESS`. -/
theorem acceptedItems_add (e : Event) (s : Firmware) :
    Out.acceptedItems (interruptEventQueueAdd e s).2.2
      = if (interruptEventQueueAdd e s).1 = .success then [e] else [] := by
  by_cases hfull : s.eventQueue.itemsInQueue = interruptEventQueueLen
  · rw [interruptEventQueueAdd_of_full hfull]
    rfl
  · rw [interruptEventQueueAdd_of_ne hfull, if_pos rfl]
    rcases spiSlaveNotify_cases { s with eventQueue := s.eventQueue.put e } with
      ⟨hnone, -⟩ | ⟨-, tx, htx, -⟩
    · rw [hnone]
      rfl
    · rw [htx]
      rfl

/-- The `XFER_DONE` handler accepts nothing. -/
theorem acceptedItems_xferDone (s : Firmware) :
    Out.acceptedItems (spiSlaveEventHandle .xferDone s).2 = [] := by
  rcases xferDone_cases s with ⟨tx, ho, -⟩ | ⟨ho, -⟩
  · rw [ho]
    rfl
  · rw [ho]
    rfl

/-- A transfer is acknowledged when `XFER_DONE` is handled. -/
theorem acked_mem_handle (s : Firmware) (i : Input) :
    .acked ∈ (i.handle s).2 ↔ ∃ mosi, i = .xferDone mosi := by
  cases i with
  | add e =>
    have hout : .acked ∉ (interruptEventQueueAdd e s).2.2 := by
      rcases interruptEventQueueAdd_cases e s with h | ⟨ho, -⟩ | ⟨-, tx, ho, -⟩
      · rw [h]
        simp
      · rw [ho]
        simp
      · rw [ho]
        simp
    exact ⟨fun h => absurd h hout, fun ⟨mosi, h⟩ => by cases h⟩
  | xferDone mosi =>
    refine ⟨fun _ => ⟨mosi, rfl⟩, fun _ => ?_⟩
    show .acked ∈ (spiSlaveEventHandle .xferDone (spiReceive mosi s)).2
    rcases xferDone_cases (spiReceive mosi s) with ⟨tx, ho, -⟩ | ⟨ho, -⟩
    · rw [ho]
      exact List.mem_cons_self
    · rw [ho]
      exact List.mem_cons_self

/-- A step accepts no event but the one its input queues. -/
theorem acceptedItems_handle (s : Firmware) (i : Input) :
    ∀ e ∈ Out.acceptedItems (i.handle s).2, i = .add e := by
  intro e he
  cases i with
  | add ev =>
    rw [Input.handle, acceptedItems_add] at he
    split_ifs at he
    · rw [List.mem_singleton.mp he]
    · cases he
  | xferDone mosi =>
    rw [Input.handle, acceptedItems_xferDone] at he
    cases he

/-- Only queued events are accepted. -/
theorem acceptedItems_of_run (is : List Input) (s : Firmware) (o : List Obs)
    (hrun : firmware.run is = some (s, o)) : ∀ e ∈ Out.acceptedItems o, .add e ∈ is := by
  refine Machine.run_induct (P := fun is _ o => ∀ e ∈ Out.acceptedItems o, .add e ∈ is)
    (by simp [Out.acceptedItems]) ?_ is s o hrun
  intro is i s o s' out _ ih hs e he
  obtain ⟨rfl, rfl⟩ := Prod.mk.inj (Option.some.inj hs)
  rw [Out.acceptedItems_append, List.mem_append] at he
  rcases he with he | he
  · exact List.mem_append_left _ (ih e he)
  · rw [acceptedItems_handle s i e he]
    exact List.mem_append_right _ (List.mem_singleton_self _)

/-- **Accounting.**  The events accepted are those shown by the buffers loaded, in order, and
    then those held by the queue entries from `queue_tail` on. -/
theorem loads_of_run (is : List Input) (s : Firmware) (o : List Obs) (hfit : ∀ i ∈ is, i.Fits)
    (hrun : firmware.run is = some (s, o)) :
    ∃ loaded waiting, Out.acceptedItems o = loaded ++ waiting ∧
      List.Forall₂ Carries (Out.loadedItems o) loaded ∧
      List.Forall₂ Holds s.eventQueue.pending waiting ∧
      (Out.loadedItems o).map frameIn = loaded.map Event.frame := by
  obtain ⟨b, o', hrunb, hR, ho⟩ :=
    firmware_simulates is s o (fun i hi => (hfit i hi).hasData) hrun
  obtain ⟨hacc, -⟩ := Outbox.run_spec _ _ _ hrunb
  have hloads := Out.Rel.loadedItems ho
  -- the law of the outbox, read on the trace of the firmware
  rw [← Out.Rel.acceptedItems_eq ho] at hacc
  refine ⟨Out.loadedItems o', b.queue, hacc, hloads, hR.queue, map_frameIn_eq hloads ?_⟩
  intro e he
  have hmem : e ∈ Out.acceptedItems o := by rw [hacc]; exact List.mem_append_left _ he
  exact (hfit _ (acceptedItems_of_run is s o hrun e hmem)).2

/-- The loads are the first of the accepted events, and the others are queued. -/
theorem delivery_of_run (is : List Input) (s : Firmware) (o : List Obs) (hfit : ∀ i ∈ is, i.Fits)
    (hrun : firmware.run is = some (s, o)) :
    (Out.loadedItems o).map frameIn
        = ((Out.acceptedItems o).take (Out.loadedItems o).length).map Event.frame ∧
      List.Forall₂ Holds s.eventQueue.pending
        ((Out.acceptedItems o).drop (Out.loadedItems o).length) := by
  obtain ⟨loaded, waiting, hacc, hloads, hwaiting, hframes⟩ := loads_of_run is s o hfit hrun
  rw [hacc, hloads.length_eq, List.take_left, List.drop_left]
  exact ⟨hframes, hwaiting⟩

/-! ### The history of the calls -/

/-- What the calls of a run and their results add up to: the events answered with `NRF_SUCCESS`,
    the buffers loaded, and those loaded since the last `XFER_DONE` came in. -/
structure History where
  accepted : List Event
  loaded : List (Buf 64)
  unread : List (Buf 64)

/-- One more call, made in state `s`. -/
def History.next (h : History) (s : Firmware) : Input → History
  | .add e =>
    let r := interruptEventQueueAdd e s
    { accepted := if r.1 = .success then h.accepted ++ [e] else h.accepted
      loaded := h.loaded ++ Out.loadedItems r.2.2
      unread := h.unread ++ Out.loadedItems r.2.2 }
  | .xferDone mosi =>
    let r := spiSlaveEventHandle .xferDone (spiReceive mosi s)
    -- what was loaded before has been followed by this `XFER_DONE`
    { accepted := h.accepted
      loaded := h.loaded ++ Out.loadedItems r.2
      unread := Out.loadedItems r.2 }

/-- The state and the history behind one more call. -/
def record (p : Firmware × History) (i : Input) : Firmware × History :=
  ((i.handle p.1).1, p.2.next p.1 i)

/-- The history of a run from the initial state. -/
def historyOf (is : List Input) : History :=
  (is.foldl record (Firmware.init, ⟨[], [], []⟩)).2

/-- **Run lemma.**  The history is what the outputs say. -/
theorem history_of_run (is : List Input) (s : Firmware) (o : List Obs)
    (hrun : firmware.run is = some (s, o)) :
    is.foldl record (Firmware.init, ⟨[], [], []⟩)
      = (s, ⟨Out.acceptedItems o, Out.loadedItems o, (Out.held o).toList⟩) := by
  refine Machine.run_induct (P := fun is s o => is.foldl record (Firmware.init, ⟨[], [], []⟩)
      = (s, ⟨Out.acceptedItems o, Out.loadedItems o, (Out.held o).toList⟩)) rfl ?_ is s o hrun
  intro is i s o s' e hrun ih hs
  have hheld := onOffer_eq_held is s o hrun
  obtain ⟨rfl, rfl⟩ := Prod.mk.inj (Option.some.inj hs)
  rw [List.foldl_append, ih, List.foldl_cons, List.foldl_nil, Out.acceptedItems_append,
    Out.loadedItems_append, Out.held_append]
  cases i with
  | add ev =>
    simp only [record, Input.handle, History.next, acceptedItems_add]
    congr 2
    · split_ifs
      · rfl
      · rw [List.append_nil]
    · rcases interruptEventQueueAdd_cases ev s with h | ⟨ho, -⟩ | ⟨hfree, tx, ho, -⟩
      · rw [h]
        exact List.append_nil _
      · rw [ho]
        exact List.append_nil _
      · -- nothing is loaded over a frame that has not been read
        rw [ho, ← hheld, hfree]
        rfl
  | xferDone mosi =>
    simp only [record, Input.handle, History.next, acceptedItems_xferDone, List.append_nil]
    rcases xferDone_cases (spiReceive mosi s) with ⟨tx, ho, -⟩ | ⟨ho, -⟩
    · rw [ho]
      rfl
    · rw [ho]
      rfl

/-- **Event delivery.**  Over every run of the handlers in which the events queued are 1 to 62
    bytes long: the frames loaded are the frames of the accepted events, in order, none lost
    and none twice; the rest of the accepted events are the at most four queue entries from
    `queue_tail` on; between two `XFER_DONE`s at most one buffer is loaded, and it is kept; the
    line, the flag and an outstanding load agree; nothing is queued while the buffer is free; and
    an event refused with `NRF_ERROR_NO_MEM` changes nothing. -/
theorem event_delivery (is : List Input) (s : Firmware) (o : List Obs)
    (hfit : ∀ i ∈ is, i.Fits) (hrun : firmware.run is = some (s, o)) :
    (historyOf is).loaded.map frameIn
        = ((historyOf is).accepted.take (historyOf is).loaded.length).map Event.frame ∧
      List.Forall₂ Holds s.eventQueue.pending
        ((historyOf is).accepted.drop (historyOf is).loaded.length) ∧
      s.eventQueue.itemsInQueue ≤ interruptEventQueueLen ∧
      ((historyOf is).unread = [] ∨ (historyOf is).unread = [s.spiTxBuf]) ∧
      s.interruptPin = s.bufferFull ∧
      (s.bufferFull = true ↔ (historyOf is).unread ≠ []) ∧
      (s.eventQueue.itemsInQueue ≠ 0 → s.bufferFull = true) ∧
      ∀ e, (interruptEventQueueAdd e s).1 = .noMem →
        (interruptEventQueueAdd e s).2.1 = s ∧
          Out.loadedItems (interruptEventQueueAdd e s).2.2 = [] := by
  obtain ⟨b, o', hrunb, hR, ho⟩ :=
    firmware_simulates is s o (fun i hi => (hfit i hi).hasData) hrun
  obtain ⟨hframes, hwaiting⟩ := delivery_of_run is s o hfit hrun
  have hheld := onOffer_eq_held is s o hrun
  rw [historyOf, history_of_run is s o hrun]
  refine ⟨hframes, hwaiting, ?_, ?_, hR.pin, ?_, ?_, ?_⟩
  · rw [hR.itemsInQueue]; exact b.queue_le
  · -- what is outstanding is on offer, byte for byte
    rw [← hheld, Firmware.onOffer]
    split_ifs
    · exact .inr rfl
    · exact .inl rfl
  · -- the slot of the outbox is taken while a load is outstanding
    rw [hR.full, ← (Outbox.run_spec _ _ _ hrunb).2, ← Out.Rel.isSome_held ho]
    cases Out.held o with
    | none => simp
    | some tx => simp
  · intro hne
    rw [hR.itemsInQueue] at hne
    rw [hR.full]
    -- an outbox with a free slot has nothing waiting
    cases hslot : b.slot with
    | none => exact absurd (by rw [b.queue_nil hslot]; rfl) hne
    | some y => rfl
  · intro e he
    by_cases hfull : s.eventQueue.itemsInQueue = interruptEventQueueLen
    · rw [interruptEventQueueAdd_of_full hfull]
      exact ⟨rfl, rfl⟩
    · rw [interruptEventQueueAdd_of_ne hfull] at he
      exact absurd he (by simp)

/-- Three events are queued, one behind the other, and the first is read. -/
def threeEvents : List Input :=
  [.add .short, .add ⟨1, [8, 9], by decide⟩, .add ⟨1, [10], by decide⟩, .xferDone [1]]

/-- `event_delivery` on that run: two frames have been loaded, and the third event waits. -/
theorem event_delivery_threeEvents :
    ∃ s o, firmware.run threeEvents = some (s, o) ∧
      (historyOf threeEvents).accepted
        = [.short, ⟨1, [8, 9], by decide⟩, ⟨1, [10], by decide⟩] ∧
      (historyOf threeEvents).loaded.map frameIn = [[2, 1, 7], [3, 1, 8, 9]] ∧
      List.Forall₂ Holds s.eventQueue.pending [⟨1, [10], by decide⟩] ∧
      frameIn s.spiTxBuf = [3, 1, 8, 9] ∧ s.interruptPin = true := by
  obtain ⟨hframes, hwaiting, -, hkept, hpin, hfull, -, -⟩ :=
    event_delivery threeEvents _ _ (by simp [threeEvents, Input.Fits, Event.short]) rfl
  have haccepted : (historyOf threeEvents).accepted
      = [.short, ⟨1, [8, 9], by decide⟩, ⟨1, [10], by decide⟩] := by
    decide +kernel
  have hloaded : (historyOf threeEvents).loaded.length = 2 := by decide +kernel
  have hunread : (historyOf threeEvents).unread.map frameIn = [[3, 1, 8, 9]] := by
    decide +kernel
  rw [haccepted, hloaded] at hframes hwaiting
  have hne : (historyOf threeEvents).unread ≠ [] := by
    intro hnil
    rw [hnil] at hunread
    cases hunread
  refine ⟨_, _, rfl, haccepted, hframes, hwaiting, ?_, hpin.trans (hfull.mpr hne)⟩
  rw [hkept.resolve_left hne] at hunread
  exact List.head_eq_of_cons_eq hunread

end Gap.Bcp
