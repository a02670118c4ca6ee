import Gap.Lib.Bytes
import Gap.Lib.Ring

namespace Gap.Bcp

/-!
# Firmware — the interrupt event queue

`interrupt_event_queue.c`: a ring of `INTERRUPT_EVENT_QUEUE_LEN` items between the radio
callbacks and the SPI slave.

* `Event` — what a caller queues: a response type and the bytes `data[0 .. len)`.
* `EventQueue` — the module's four globals.
* `EventQueue.put` / `interruptEventQueueGet` — the copy in and the copy out.  The call of
  `spi_slave_notify` that ends `interrupt_event_queue_add` is in `SpiSlave.lean`.
* `EventQueue.pending` — the queued items, oldest first; `pending_put` and `pending_get` say
  what the two operations do to it, by the ring-buffer laws.
-/

/-- `INTERRUPT_EVENT_QUEUE_LEN`. -/
abbrev interruptEventQueueLen : ℕ := 4

/-- The arguments of one `interrupt_event_queue_add (interrupt_event, len, data)`; `len` is a
    `uint8_t` and `data` points to that many bytes. -/
structure Event where
  interruptEvent : UInt8
  data : List UInt8
  data_lt : data.length < 256
  deriving DecidableEq

/-- A short event. -/
def Event.short : Event := ⟨1, [7], by decide⟩

/-- The `len` argument. -/
def Event.len (e : Event) : UInt8 := UInt8.ofNat e.data.length

@[simp] theorem Event.toNat_len (e : Event) : e.len.toNat = e.data.length := by
  simp [Event.len, Nat.mod_eq_of_lt e.data_lt]

@[instance] theorem neZero_64 : NeZero 64 := ⟨by decide⟩

/-- `interrupt_event_queue_item_t`. -/
structure QueueItem where
  buffer : Buf 64
  len : UInt8
  interruptEvent : UInt8

/-- The globals `queue`, `queue_head`, `queue_tail` and `items_in_queue`.  The two indices
    only ever hold a value reduced `% INTERRUPT_EVENT_QUEUE_LEN`. -/
structure EventQueue where
  queue : Fin interruptEventQueueLen → QueueItem
  queueHead : Fin interruptEventQueueLen
  queueTail : Fin interruptEventQueueLen
  itemsInQueue : ℕ

namespace EventQueue

/-- The globals at reset. -/
def empty : EventQueue where
  queue := fun _ => ⟨fun _ => 0, 0, 0⟩
  queueHead := 0
  queueTail := 0
  itemsInQueue := 0

/-- The item `interrupt_event_queue_add` leaves in a cell that held `old`: at most 64 bytes
    are copied, the length is stored as given. -/
def fill (old : QueueItem) (e : Event) : QueueItem where
  buffer := old.buffer.copy 0 (e.data.take (min e.len.toNat 64))
  len := e.len
  interruptEvent := e.interruptEvent

/-- `interrupt_event_queue_add` past the full check: copy into the cell at `queue_head` and
    advance (the sum of two `Fin` wraps as `% INTERRUPT_EVENT_QUEUE_LEN` does). -/
def put (q : EventQueue) (e : Event) : EventQueue where
  queue := Function.update q.queue q.queueHead (fill (q.queue q.queueHead) e)
  queueHead := q.queueHead + 1
  queueTail := q.queueTail
  itemsInQueue := q.itemsInQueue + 1

end EventQueue

/-- The results of `interrupt_event_queue_get`: the returned length, the two buffers written
    through its pointers, and the globals. -/
structure GetResult (n : ℕ) where
  len : UInt16
  interruptEvent : UInt8
  data : Buf n
  eventQueue : EventQueue

/-- `interrupt_event_queue_get (&interrupt_event, data + off)`: an empty queue returns 0 and
    writes nothing. -/
def interruptEventQueueGet {n : ℕ} (q : EventQueue) (interruptEvent : UInt8) (data : Buf n)
    (off : ℕ) : GetResult n :=
  if q.itemsInQueue = 0 then ⟨0, interruptEvent, data, q⟩
  else
    let item := q.queue q.queueTail
    { len := item.len.toUInt16
      interruptEvent := item.interruptEvent
      data := data.copy off (item.buffer.front (min item.len.toNat 64))
      -- the cell keeps its contents until the head comes round
      eventQueue :=
        { q with itemsInQueue := q.itemsInQueue - 1, queueTail := q.queueTail + 1 } }

/-! ### What an item holds -/

/-- A queue item stores the event `e` (as far as its 64 bytes reach). -/
structure Holds (item : QueueItem) (e : Event) : Prop where
  len : item.len = e.len
  interruptEvent : item.interruptEvent = e.interruptEvent
  buffer : ∀ (i : ℕ) (h : i < e.data.length) (h' : i < 64), item.buffer ⟨i, h'⟩ = e.data[i]

theorem fill_holds (old : QueueItem) (e : Event) : Holds (EventQueue.fill old e) e where
  len := rfl
  interruptEvent := rfl
  buffer i h h' := by
    show old.buffer.copy 0 (e.data.take (min e.len.toNat 64)) ⟨i, h'⟩ = e.data[i]
    rw [Buf.copy_of_mem _ _ (Nat.zero_le _) (by simp; omega)]
    simp

/-! ### The queue as a list -/

namespace EventQueue

/-- The items queued, oldest first. -/
def pending (q : EventQueue) : List QueueItem :=
  Ring.contents q.queue q.queueTail q.itemsInQueue

/-- `queue_head` is where the next item goes: `items_in_queue` cells after `queue_tail`. -/
def HeadOk (q : EventQueue) : Prop := q.queueHead = Ring.slot q.queueTail q.itemsInQueue

@[simp] theorem length_pending (q : EventQueue) : q.pending.length = q.itemsInQueue := by
  simp [pending]

/-- Advancing an index of the ring is adding one to it. -/
theorem slot_one (i : Fin interruptEventQueueLen) : Ring.slot i 1 = i + 1 :=
  Fin.ext (by simp [Ring.slot, Fin.val_add])

theorem put_headOk {q : EventQueue} (h : q.HeadOk) (e : Event) : (q.put e).HeadOk := by
  show q.queueHead + 1 = Ring.slot q.queueTail (q.itemsInQueue + 1)
  rw [← slot_one, h, Ring.slot_slot]

/-- Queuing an event appends an item that holds it. -/
theorem pending_put {q : EventQueue} (h : q.HeadOk) (hn : q.itemsInQueue < 4) (e : Event) :
    ∃ item, Holds item e ∧ (q.put e).pending = q.pending ++ [item] := by
  refine ⟨fill (q.queue q.queueHead) e, fill_holds _ _, ?_⟩
  simp only [pending, put]
  -- the head is where the ring-buffer law writes
  rw [h]
  exact Ring.contents_push q.queue q.queueTail _ hn

/-- Taking an item advances the tail past it. -/
theorem get_headOk {n : ℕ} {q : EventQueue} (h : q.HeadOk) (t : UInt8) (data : Buf n) (off : ℕ) :
    (interruptEventQueueGet q t data off).eventQueue.HeadOk := by
  unfold interruptEventQueueGet
  split
  · exact h
  · next hne =>
    show q.queueHead = Ring.slot (q.queueTail + 1) (q.itemsInQueue - 1)
    have hpos : 1 + (q.itemsInQueue - 1) = q.itemsInQueue := by omega
    rw [← slot_one, Ring.slot_slot, hpos]
    exact h

/-- An empty queue gives nothing and stays as it is. -/
theorem get_of_empty {n : ℕ} {q : EventQueue} (h : q.pending = []) (t : UInt8) (data : Buf n)
    (off : ℕ) : interruptEventQueueGet q t data off = ⟨0, t, data, q⟩ := by
  have h0 : q.itemsInQueue = 0 := by rw [← length_pending, h]; rfl
  rw [interruptEventQueueGet, if_pos h0]

/-- A non-empty queue gives its oldest item and keeps the others. -/
theorem get_of_cons {n : ℕ} {q : EventQueue} {item : QueueItem} {rest : List QueueItem}
    (h : q.pending = item :: rest) (t : UInt8) (data : Buf n) (off : ℕ) :
    ∃ q', q'.pending = rest ∧ interruptEventQueueGet q t data off =
      ⟨item.len.toUInt16, item.interruptEvent,
        data.copy off (item.buffer.front (min item.len.toNat 64)), q'⟩ := by
  have hlen : q.itemsInQueue = rest.length + 1 := by rw [← length_pending, h]; rfl
  -- the oldest item is in the cell at the tail, the rest starts one cell further on
  have htail : q.queue q.queueTail = item ∧
      Ring.contents q.queue (Ring.slot q.queueTail 1) rest.length = rest := by
    rw [pending, hlen, Ring.contents_succ] at h
    exact List.cons.inj h
  refine ⟨{ q with itemsInQueue := q.itemsInQueue - 1, queueTail := q.queueTail + 1 }, ?_, ?_⟩
  · rw [pending, ← slot_one]
    simpa [hlen] using htail.2
  · rw [interruptEventQueueGet, if_neg (by omega), htail.1]

end EventQueue

end Gap.Bcp
