import Gap.Bcp.Delivery

namespace Gap.Bcp

open Outbox

/-!
# Firmware — the sizes of queue items and frames

An item of the queue holds 64 bytes of data, its length is the one it was queued with, and a length
of 0 stands for an empty queue.  `spi_tx_buf` has room for 62 bytes behind the two of the header.

* `Load` — what `repopulate` does with the oldest item, store by store; `repopulate_of_oldest`.
* `frames` — the firmware, with the loads its handlers make in the trace.
* `SizeSafe`, `sizeSafe_iff` — one load: the stores are inside, the length byte is honest, the item
  is loaded.
* `frame_sizes` — over every run, with events of any length.
-/

/-! ### One load -/

/-- What `repopulate` does with an item. -/
structure Load where
  item : QueueItem
  /-- The bytes stored, each with its index in `spi_tx_buf`. -/
  stores : List (UInt8 × ℕ)
  /-- The number of data bytes copied from the item. -/
  copied : ℕ
  /-- The buffer that is handed to the SPI module, if it is. -/
  frame : Option (Buf 64)

/-- The item at `queue_tail`. -/
def EventQueue.oldest (q : EventQueue) : Option QueueItem :=
  if q.itemsInQueue = 0 then none else some (q.queue q.queueTail)

/-- The header, if there are data. -/
def headerStores (item : QueueItem) : List (UInt8 × ℕ) :=
  if item.len > 0 then [(item.len + 1, 0), (item.interruptEvent, 1)] else []

/-- The data bytes that are copied. -/
def QueueItem.data (item : QueueItem) : List UInt8 := item.buffer.front (min item.len.toNat 64)

/-- The load of an item by `repopulate`. -/
def QueueItem.load (s : Firmware) (item : QueueItem) : Load where
  item
  stores := item.data.zipIdx 2 ++ headerStores item
  copied := item.data.length
  frame := if (repopulate s).1 > 0 then some (repopulate s).2.spiTxBuf else none

theorem EventQueue.pending_of_oldest {q : EventQueue} :
    (q.oldest = none ∧ q.pending = []) ∨
      ∃ item rest, q.oldest = some item ∧ q.pending = item :: rest := by
  unfold EventQueue.oldest
  by_cases h : q.itemsInQueue = 0
  · rw [if_pos h]
    exact .inl ⟨rfl, List.eq_nil_of_length_eq_zero (by rw [EventQueue.length_pending, h])⟩
  · rw [if_neg h]
    obtain ⟨n, hn⟩ := Nat.exists_eq_succ_of_ne_zero h
    refine .inr ⟨_, Ring.contents q.queue (Ring.slot q.queueTail 1) n, rfl, ?_⟩
    rw [EventQueue.pending, hn, Ring.contents_succ]

/-- **The stores of a load** leave what `repopulate` leaves, which returns the length of the item. -/
theorem repopulate_of_oldest {s : Firmware} {item : QueueItem}
    (h : s.eventQueue.oldest = some item) :
    (repopulate s).1 = item.len ∧
      (repopulate s).2.spiTxBuf = s.spiTxBuf.storeAll (item.load s).stores := by
  rcases EventQueue.pending_of_oldest (q := s.eventQueue) with ⟨hnone, -⟩ | ⟨item', rest, hsome, hp⟩
  · rw [h] at hnone
    cases hnone
  · obtain rfl : item = item' := Option.some.inj (h.symm.trans hsome)
    obtain ⟨q, -, -, hrep⟩ := repopulate_eq_of_cons hp
    rw [hrep]
    refine ⟨rfl, ?_⟩
    show (if item.len > 0 then shown s.spiTxBuf item else s.spiTxBuf)
      = s.spiTxBuf.storeAll (item.data.zipIdx 2 ++ headerStores item)
    rw [Buf.storeAll_append, ← Buf.copy_eq_storeAll, headerStores]
    by_cases hpos : item.len > 0
    · rw [if_pos hpos, if_pos hpos]
      simp only [shown, setHeader, Buf.storeAll, List.foldl_cons, List.foldl_nil]
      rw [← Buf.copy_singleton, ← Buf.copy_singleton]
      rfl
    · -- none of the item's bytes are copied
      have hzero : item.len = 0 := by
        rw [gt_iff_lt, UInt8.pos_iff_ne_zero, not_not] at hpos
        exact hpos
      rw [if_neg hpos, if_neg hpos, QueueItem.data, hzero]
      simp [Buf.storeAll]

/-- The oldest item is taken off the queue. -/
theorem repopulate_queue (s : Firmware) :
    (s.eventQueue.HeadOk → (repopulate s).2.eventQueue.HeadOk) ∧
      s.eventQueue.oldest.toList ++ (repopulate s).2.eventQueue.pending = s.eventQueue.pending := by
  rcases EventQueue.pending_of_oldest (q := s.eventQueue) with ⟨hnone, hp⟩ | ⟨item, rest, hsome, hp⟩
  · rw [repopulate_of_empty hp, hnone]
    exact ⟨id, rfl⟩
  · obtain ⟨q, hq, hhead, hrep⟩ := repopulate_eq_of_cons hp
    rw [hrep, hsome, hp]
    exact ⟨hhead, by rw [← hq]; rfl⟩

/-! ### The loads of a run -/

/-- The state in which a handler calls `interrupt_event_queue_get`, if it does. -/
def Input.before (s : Firmware) : Input → Option Firmware
  | .add e =>
    if s.eventQueue.itemsInQueue = interruptEventQueueLen then none
    else if s.bufferFull then none
    else some { s with eventQueue := s.eventQueue.put e }
  | .xferDone mosi => some (runCommand (spiReceive mosi s))

/-- The item it gets. -/
def Input.taken (s : Firmware) (i : Input) : Option QueueItem :=
  (i.before s).bind fun t => t.eventQueue.oldest

/-- What it does with the item. -/
def Input.loads (s : Firmware) (i : Input) : List Load :=
  (i.before s).toList.flatMap fun t => (t.eventQueue.oldest.map (QueueItem.load t)).toList

/-- What an observer of the stores sees: the outputs of the firmware, and the loads. -/
inductive FrameObs
  | seen (ob : Obs)
  | load (ld : Load)

/-- The outputs of the firmware. -/
def FrameObs.seenIn : List FrameObs → List Obs :=
  List.filterMap fun | .seen ob => some ob | .load _ => none

/-- The loads. -/
def FrameObs.loadsIn : List FrameObs → List Load :=
  List.filterMap fun | .seen _ => none | .load ld => some ld

/-- The firmware, with its loads. -/
def frames : Machine Firmware Input FrameObs where
  init := Firmware.init
  step s i := some ((i.handle s).1, (i.handle s).2.map .seen ++ (i.loads s).map .load)

/-- The outputs of a run and one more step. -/
theorem FrameObs.seenIn_step (o : List FrameObs) (s : Firmware) (i : Input) :
    FrameObs.seenIn (o ++ ((i.handle s).2.map .seen ++ (i.loads s).map .load))
      = FrameObs.seenIn o ++ (i.handle s).2 := by
  simp [FrameObs.seenIn, List.filterMap_append, List.filterMap_map]

theorem FrameObs.loadsIn_step (o : List FrameObs) (s : Firmware) (i : Input) :
    FrameObs.loadsIn (o ++ ((i.handle s).2.map .seen ++ (i.loads s).map .load))
      = FrameObs.loadsIn o ++ i.loads s := by
  simp [FrameObs.loadsIn, List.filterMap_append, List.filterMap_map]

/-- It is the firmware. -/
theorem frames_firmware (is : List Input) (s : Firmware) (o : List FrameObs)
    (hrun : frames.run is = some (s, o)) :
    firmware.run is = some (s, FrameObs.seenIn o) := by
  refine Machine.run_induct (P := fun is s o => firmware.run is = some (s, FrameObs.seenIn o)) rfl
    ?_ is s o hrun
  intro is i s o s' e _ ih hs
  obtain ⟨rfl, rfl⟩ := Prod.mk.inj (Option.some.inj hs)
  rw [firmware.run_concat_eq_some]
  exact ⟨s, FrameObs.seenIn o, (i.handle s).2, ih, rfl, FrameObs.seenIn_step o s i⟩

/-! ### What a handler takes off the queue -/

/-- A handler has called `interrupt_event_queue_get` in `t`, ended in `t'` and let `o` be seen. -/
structure Took (t t' : Firmware) (o : List Obs) : Prop where
  head : t.eventQueue.HeadOk → t'.eventQueue.HeadOk
  queue : t.eventQueue.oldest.toList ++ t'.eventQueue.pending = t.eventQueue.pending
  accepted : Out.acceptedItems o = []
  loaded : Out.loadedItems o
    = (t.eventQueue.oldest.map (QueueItem.load t)).toList.filterMap Load.frame

/-- Without data in the queue, nothing is loaded; with data, it depends on their length. -/
theorem loaded_of_oldest (t : Firmware) :
    (t.eventQueue.oldest.map (QueueItem.load t)).toList.filterMap Load.frame
      = if (repopulate t).1 > 0 then [(repopulate t).2.spiTxBuf] else [] := by
  rcases EventQueue.pending_of_oldest (q := t.eventQueue) with ⟨hnone, hp⟩ | ⟨item, rest, hsome, -⟩
  · rw [hnone, repopulate_of_empty hp]
    rfl
  · rw [hsome]
    by_cases hpos : (repopulate t).1 > 0
    · simp [QueueItem.load, hpos]
    · simp [QueueItem.load, hpos]

theorem spiSlaveNotify_took {t : Firmware} (h : t.bufferFull = false) :
    Took t (spiSlaveNotify t).1 (spiSlaveNotify t).2 := by
  obtain ⟨hhead, hqueue⟩ := repopulate_queue t
  have hloaded := loaded_of_oldest t
  by_cases hpos : (repopulate t).1 > 0
  · have hnotify : spiSlaveNotify t = ({ (repopulate t).2 with
        bufferFull := true, interruptPin := true }, [.loaded (repopulate t).2.spiTxBuf]) := by
      simp [spiSlaveNotify, h, hpos]
    rw [hnotify]
    refine ⟨hhead, hqueue, rfl, ?_⟩
    rw [hloaded, if_pos hpos]
    rfl
  · have hnotify : spiSlaveNotify t = ((repopulate t).2, []) := by
      simp [spiSlaveNotify, h, hpos]
    rw [hnotify]
    refine ⟨hhead, hqueue, rfl, ?_⟩
    rw [hloaded, if_neg hpos]
    rfl

theorem xferDone_took (s : Firmware) :
    Took (runCommand s) (spiSlaveEventHandle .xferDone s).1 (spiSlaveEventHandle .xferDone s).2 := by
  obtain ⟨hhead, hqueue⟩ := repopulate_queue (runCommand s)
  have hloaded := loaded_of_oldest (runCommand s)
  by_cases hpos : (repopulate (runCommand s)).1 > 0
  · have hdone : spiSlaveEventHandle .xferDone s = ({ (repopulate (runCommand s)).2 with
        interruptPin := true, bufferFull := true },
        [.acked, .loaded (repopulate (runCommand s)).2.spiTxBuf]) := by
      simp [spiSlaveEventHandle, hpos]
    rw [hdone]
    refine ⟨hhead, hqueue, rfl, ?_⟩
    rw [hloaded, if_pos hpos]
    rfl
  · have hdone : spiSlaveEventHandle .xferDone s = ({ (repopulate (runCommand s)).2 with
        bufferFull := false, interruptPin := false }, [.acked, .emptied]) := by
      simp [spiSlaveEventHandle, hpos]
    rw [hdone]
    refine ⟨hhead, hqueue, rfl, ?_⟩
    rw [hloaded, if_neg hpos]
    rfl

theorem map_item_loads (t : Firmware) :
    (t.eventQueue.oldest.map (QueueItem.load t)).toList.map Load.item
      = t.eventQueue.oldest.toList := by
  cases t.eventQueue.oldest <;> rfl

/-- No event is added. -/
theorem Took.itemsInQueue_le {t t' : Firmware} {o : List Obs} (h : Took t t' o) :
    t'.eventQueue.itemsInQueue ≤ t.eventQueue.itemsInQueue := by
  have hlen := congrArg List.length h.queue
  simp only [List.length_append, EventQueue.length_pending] at hlen
  omega

/-- The item of the load, and those behind it. -/
theorem Took.items {t t' : Firmware} {o : List Obs} (h : Took t t' o) :
    (t.eventQueue.oldest.map (QueueItem.load t)).toList.map Load.item ++ t'.eventQueue.pending
      = t.eventQueue.pending := by
  rw [map_item_loads, h.queue]

/-- The queue is as it should be. -/
def Firmware.QueueOk (s : Firmware) : Prop :=
  s.eventQueue.HeadOk ∧ s.eventQueue.itemsInQueue ≤ interruptEventQueueLen

/-- **Step lemma.**  The items taken are the oldest ones, and the event accepted goes behind the
    others; what is loaded are the frames of the items taken. -/
theorem Input.handle_took {s : Firmware} (h : s.QueueOk) (i : Input) :
    (i.handle s).1.QueueOk ∧
      Out.loadedItems (i.handle s).2 = (i.loads s).filterMap Load.frame ∧
      ∃ items, List.Forall₂ Holds items (Out.acceptedItems (i.handle s).2) ∧
        (i.loads s).map Load.item ++ (i.handle s).1.eventQueue.pending
          = s.eventQueue.pending ++ items := by
  cases i with
  | add e =>
    by_cases hfull : s.eventQueue.itemsInQueue = interruptEventQueueLen
    · have hloads : Input.loads s (.add e) = [] := by
        simp [Input.loads, Input.before, hfull]
      rw [Input.handle, interruptEventQueueAdd_of_full hfull, hloads]
      exact ⟨h, rfl, [], .nil, (List.append_nil _).symm⟩
    · have hroom : s.eventQueue.itemsInQueue < interruptEventQueueLen := lt_of_le_of_ne h.2 hfull
      obtain ⟨item, hitem, hpending⟩ := EventQueue.pending_put h.1 hroom e
      have hput := EventQueue.put_headOk h.1 e
      rw [Input.handle, interruptEventQueueAdd_of_ne hfull]
      by_cases hbuf : s.bufferFull = true
      · have hloads : Input.loads s (.add e) = [] := by
          simp [Input.loads, Input.before, hfull, hbuf]
        rw [spiSlaveNotify_of_full (by exact hbuf), hloads]
        exact ⟨⟨hput, hroom⟩, rfl, [item], .cons hitem .nil, hpending⟩
      · rw [Bool.not_eq_true] at hbuf
        have htook := spiSlaveNotify_took (t := { s with eventQueue := s.eventQueue.put e }) hbuf
        have hloads : Input.loads s (.add e) = ((s.eventQueue.put e).oldest.map
            (QueueItem.load { s with eventQueue := s.eventQueue.put e })).toList := by
          simp [Input.loads, Input.before, hfull, hbuf]
        rw [hloads]
        generalize spiSlaveNotify { s with eventQueue := s.eventQueue.put e } = x at htook ⊢
        refine ⟨⟨htook.head hput, htook.itemsInQueue_le.trans hroom⟩, htook.loaded, [item], ?_,
          htook.items.trans hpending⟩
        show List.Forall₂ Holds [item] (e :: Out.acceptedItems x.2)
        rw [htook.accepted]
        exact .cons hitem .nil
  | xferDone mosi =>
    have htook := xferDone_took (spiReceive mosi s)
    have hsame : (runCommand (spiReceive mosi s)).eventQueue = s.eventQueue := by
      rw [runCommand_eq]
      rfl
    have hloads : Input.loads s (.xferDone mosi)
        = ((runCommand (spiReceive mosi s)).eventQueue.oldest.map
          (QueueItem.load (runCommand (spiReceive mosi s)))).toList := by
      simp [Input.loads, Input.before]
    rw [Input.handle, hloads, ← hsame]
    generalize spiSlaveEventHandle .xferDone (spiReceive mosi s) = x at htook ⊢
    refine ⟨⟨htook.head (by rw [hsame]; exact h.1), htook.itemsInQueue_le.trans ?_⟩, htook.loaded,
      [], ?_, htook.items.trans (List.append_nil _).symm⟩
    · rw [hsame]
      exact h.2
    · rw [htook.accepted]
      exact .nil

/-! ### One load, by the length of its item -/

/-- What a load is to do: store inside `spi_tx_buf`, announce as many bytes as it has copied, and
    hand the frame over. -/
structure SizeSafe (ld : Load) : Prop where
  inside : ∀ st ∈ ld.stores, st.2 < 64
  honest : ∀ tx ∈ ld.frame, (tx 0).toNat = 1 + ld.copied
  kept : ld.frame ≠ none

theorem QueueItem.length_data (item : QueueItem) : item.data.length = min item.len.toNat 64 := by
  rw [QueueItem.data, Buf.length_front]
  omega

/-- The data are stored in the range of `memcpy`. -/
theorem inside_iff (s : Firmware) (item : QueueItem) :
    (∀ st ∈ (item.load s).stores, st.2 < 64) ↔ item.len.toNat ≤ 62 := by
  have hlen := item.length_data
  constructor
  · intro h
    by_contra hgt
    -- the byte behind the last one of the buffer
    have hlt : 62 < item.data.length := by omega
    have hmem : (item.data[62], 2 + 62) ∈ (item.load s).stores := by
      refine List.mem_append_left _ ?_
      rw [List.mk_mem_zipIdx_iff_le_and_getElem?_sub]
      exact ⟨by omega, by simp [List.getElem?_eq_getElem hlt]⟩
    have h64 := h _ hmem
    simp at h64
  · intro h st hst
    rcases List.mem_append.mp hst with hdata | hheader
    · have hidx := List.snd_lt_of_mem_zipIdx hdata
      omega
    · unfold headerStores at hheader
      split at hheader
      · simp only [List.mem_cons, List.not_mem_nil, or_false] at hheader
        rcases hheader with rfl | rfl
        · show 0 < 64
          decide
        · show 1 < 64
          decide
      · cases hheader

/-- A load is as it is to be exactly if the length of its item is between 1 and 62. -/
theorem sizeSafe_iff {s : Firmware} {item : QueueItem} (h : s.eventQueue.oldest = some item) :
    SizeSafe (item.load s) ↔ 1 ≤ item.len.toNat ∧ item.len.toNat ≤ 62 := by
  obtain ⟨hret, -⟩ := repopulate_of_oldest h
  have hframe : (item.load s).frame ≠ none ↔ 1 ≤ item.len.toNat := by
    have hpos : (repopulate s).1 > 0 ↔ 1 ≤ item.len.toNat := by
      rw [hret, gt_iff_lt, UInt8.lt_iff_toNat_lt]
      exact Iff.rfl
    rw [← hpos, QueueItem.load]
    by_cases hp : (repopulate s).1 > 0
    · simp [hp]
    · simp [hp]
  constructor
  · rintro ⟨hinside, -, hkept⟩
    exact ⟨hframe.mp hkept, (inside_iff s item).mp hinside⟩
  · rintro ⟨hpos, hle⟩
    refine ⟨(inside_iff s item).mpr hle, fun tx htx => ?_, hframe.mpr hpos⟩
    -- the length byte is that of the item, and one more
    have hlen : (item.len + 1).toNat = item.len.toNat + 1 := by
      rw [UInt8.toNat_add]
      exact Nat.mod_eq_of_lt (by simp; omega)
    have htx0 : tx 0 = item.len + 1 := by
      rcases EventQueue.pending_of_oldest (q := s.eventQueue) with
        ⟨hnone, -⟩ | ⟨item', rest, hsome, hp⟩
      · rw [h] at hnone
        cases hnone
      · obtain rfl : item = item' := Option.some.inj (h.symm.trans hsome)
        obtain ⟨q, -, -, hrep⟩ := repopulate_eq_of_cons hp
        have hgt : item.len > 0 := by
          rw [gt_iff_lt, UInt8.lt_iff_toNat_lt]
          exact hpos
        simp only [QueueItem.load, hrep, hgt, if_true, Option.mem_some_iff] at htx
        subst htx
        simp [shown, setHeader]
    show (tx 0).toNat = 1 + item.data.length
    rw [htx0, hlen, item.length_data]
    omega

/-! ### Runs -/

/-- The item a step takes holds 1 to 62 bytes. -/
def Input.TakesFit (s : Firmware) (i : Input) : Prop :=
  ∀ item ∈ i.taken s, 1 ≤ item.len.toNat ∧ item.len.toNat ≤ 62

instance decidableTakesFit (s : Firmware) (i : Input) : Decidable (i.TakesFit s) :=
  inferInstanceAs (Decidable (∀ item ∈ i.taken s, 1 ≤ item.len.toNat ∧ item.len.toNat ≤ 62))

theorem Input.takesFit_iff (s : Firmware) (i : Input) :
    (∀ ld ∈ i.loads s, SizeSafe ld) ↔ i.TakesFit s := by
  unfold Input.loads Input.TakesFit Input.taken
  cases i.before s with
  | none => simp
  | some t =>
    cases hold : t.eventQueue.oldest with
    | none => simp [hold]
    | some item => simpa [hold] using sizeSafe_iff hold

/-- **Sizes of items and frames.**  Over every run, with events of any length, the items that
    handlers take off the queue and those that are still queued hold the accepted events, in order,
    and the frames handed to the SPI module are those of the items taken.  Every load stores inside
    `spi_tx_buf`, announces as many data bytes as it has copied from its item, and hands its frame
    over, exactly if every item that is taken off the queue holds 1 to 62 bytes. -/
theorem frame_sizes (is : List Input) (s : Firmware) (o : List FrameObs)
    (hrun : frames.run is = some (s, o)) :
    firmware.run is = some (s, FrameObs.seenIn o) ∧
      List.Forall₂ Holds ((FrameObs.loadsIn o).map Load.item ++ s.eventQueue.pending)
        (Out.acceptedItems (FrameObs.seenIn o)) ∧
      Out.loadedItems (FrameObs.seenIn o) = (FrameObs.loadsIn o).filterMap Load.frame ∧
      ((∀ ld ∈ FrameObs.loadsIn o, SizeSafe ld) ↔ frames.Along (fun s _ i => i.TakesFit s) is) := by
  refine ⟨frames_firmware is s o hrun, ?_⟩
  suffices h : s.QueueOk ∧
      List.Forall₂ Holds ((FrameObs.loadsIn o).map Load.item ++ s.eventQueue.pending)
        (Out.acceptedItems (FrameObs.seenIn o)) ∧
      Out.loadedItems (FrameObs.seenIn o) = (FrameObs.loadsIn o).filterMap Load.frame by
    refine ⟨h.2.1, h.2.2, ?_⟩
    refine Machine.iff_along (I := fun _ o => ∀ ld ∈ FrameObs.loadsIn o, SizeSafe ld)
      (J := fun _ _ => True) (by simp [FrameObs.loadsIn]) trivial (fun _ _ _ _ _ _ _ => trivial) ?_
      is s o hrun
    intro s o i s' e _ hs
    obtain ⟨rfl, rfl⟩ := Prod.mk.inj (Option.some.inj hs)
    rw [FrameObs.loadsIn_step, List.forall_mem_append, Input.takesFit_iff]
  refine Machine.run_induct (P := fun _ s o => s.QueueOk ∧
      List.Forall₂ Holds ((FrameObs.loadsIn o).map Load.item ++ s.eventQueue.pending)
        (Out.acceptedItems (FrameObs.seenIn o)) ∧
      Out.loadedItems (FrameObs.seenIn o) = (FrameObs.loadsIn o).filterMap Load.frame)
    ⟨⟨rfl, Nat.zero_le _⟩, .nil, rfl⟩ ?_ is s o hrun
  rintro _ i s o s' e - ⟨hok, hholds, hloaded⟩ hs
  obtain ⟨rfl, rfl⟩ := Prod.mk.inj (Option.some.inj hs)
  obtain ⟨hok', hframes, items, hitems, hqueue⟩ := i.handle_took hok
  rw [FrameObs.seenIn_step, FrameObs.loadsIn_step, Out.acceptedItems_append,
    Out.loadedItems_append, hloaded, hframes, List.map_append, List.append_assoc, hqueue,
    ← List.append_assoc, List.filterMap_append]
  exact ⟨hok', List.rel_append hholds hitems, rfl⟩

/-- An event with that many bytes of data, at most 255. -/
def Event.zeros (n : ℕ) : Event := ⟨1, List.replicate (min n 255) 0, by simp⟩

/-- `frame_sizes` on a run with an event of each of the sizes at the bounds. -/
theorem frame_sizes_at_bounds :
    ∃ s o, frames.run [.add (.zeros 1), .add (.zeros 62), .xferDone [1]] = some (s, o) ∧
      (FrameObs.loadsIn o).length = 2 ∧ ∀ ld ∈ FrameObs.loadsIn o, SizeSafe ld := by
  obtain ⟨s, o, hrun, hlen⟩ : ∃ s o,
      frames.run [.add (.zeros 1), .add (.zeros 62), .xferDone [1]] = some (s, o) ∧
        (FrameObs.loadsIn o).length = 2 := frames.exists_run (by decide +kernel)
  refine ⟨s, o, hrun, hlen, (frame_sizes _ s o hrun).2.2.2.mpr ?_⟩
  exact Machine.along_of_alongFrom (by decide +kernel)

/-- An event without data is accepted and gone; one of 63 bytes is stored up to the byte behind
    `spi_tx_buf`; the length byte of one of 255 bytes is 0. -/
theorem frame_sizes_violated :
    (∃ s o, frames.run [.add (.zeros 0)] = some (s, o) ∧
      Out.acceptedItems (FrameObs.seenIn o) = [.zeros 0] ∧
      Out.loadedItems (FrameObs.seenIn o) = [] ∧ s.eventQueue.itemsInQueue = 0) ∧
    (∃ s o, frames.run [.add (.zeros 63)] = some (s, o) ∧
      ∃ ld ∈ FrameObs.loadsIn o, ∃ st ∈ ld.stores, st.2 = 64) ∧
    ∃ s o, frames.run [.add (.zeros 255)] = some (s, o) ∧
      ∃ ld ∈ FrameObs.loadsIn o, ld.copied = 64 ∧ ∃ tx ∈ ld.frame, tx 0 = 0 := by
  refine ⟨frames.exists_run (by decide +kernel), frames.exists_run (by decide +kernel),
    frames.exists_run (by decide +kernel)⟩

end Gap.Bcp
