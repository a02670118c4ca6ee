import Gap.Bcp.Sniff

namespace Gap.Bcp

/-!
# Advertisement reports in the event queue

`on_ble_evt` queues the front of a cast `ble_gap_evt_adv_report_t`: the data bytes, and a header
whose size is counted by hand.

* `GapAdvReport` — the structure as it lies in memory: address, RSSI, a byte of bit-fields, data.
* `onBleEvt_cell` — the cell of the queue that takes the report.
* `report_data` — what is queued: all that belongs to the report, but its last byte.
* `report_never_whole`, `exists_same_event` — so no report arrives whole, and none can be told
  from every other.
-/

/-- `ble_gap_evt_adv_report_t`. -/
structure GapAdvReport where
  peerAddr : Buf 7
  rssi : UInt8
  scanRsp : BitVec 1
  type : BitVec 2
  dlen : BitVec 5
  data : Buf 31

namespace GapAdvReport

variable (r : GapAdvReport)

/-- The byte of `scan_rsp : 1`, `type : 2` and `dlen : 5`. -/
def bitFields : UInt8 := UInt8.ofNat (r.scanRsp.toNat + 2 * r.type.toNat + 8 * r.dlen.toNat)

/-- All in front of the data. -/
def header : List UInt8 := List.ofFn r.peerAddr ++ [r.rssi, r.bitFields]

/-- The structure in memory. -/
def bytes : List UInt8 := r.header ++ List.ofFn r.data

@[simp] theorem length_header : r.header.length = 9 := by simp [header]

@[simp] theorem length_bytes : r.bytes.length = 40 := by simp [bytes]

/-- The structure as `on_ble_evt` is given it. -/
def advReport : AdvReport := ⟨fun i => r.bytes.get (i.cast r.length_bytes.symm), r.dlen.toFin⟩

/-- The header, and the data bytes that are there. -/
def whole : List UInt8 := r.header ++ r.data.front r.dlen.toNat

@[simp] theorem length_whole : r.whole.length = r.dlen.toNat + 9 := by
  have hlt := r.dlen.isLt
  simp [whole]
  omega

end GapAdvReport

/-- The bytes an item of the queue holds. -/
def QueueItem.bytes (item : QueueItem) : List UInt8 := item.buffer.front item.len.toNat

/-! ### What is queued -/

/-- `spi_slave_notify` takes items out of the queue and leaves their cells as they are. -/
theorem spiSlaveNotify_queue (s : Firmware) :
    (spiSlaveNotify s).1.eventQueue.queue = s.eventQueue.queue := by
  have hget : (interruptEventQueueGet s.eventQueue 0 s.spiTxBuf 2).eventQueue.queue
      = s.eventQueue.queue := by
    unfold interruptEventQueueGet
    split <;> rfl
  have hrep : (repopulate s).2.eventQueue.queue = s.eventQueue.queue := by
    simp only [repopulate]
    split
    · exact hget
    · exact hget
  simp only [spiSlaveNotify]
  split
  · split
    · exact hrep
    · exact hrep
  · rfl

/-- **The cell that takes the report**, while reports are wanted and there is room. -/
theorem onBleEvt_cell (r : AdvReport) {s : Firmware} (hon : s.bcpIrqAdvertisements = true)
    (hroom : s.eventQueue.itemsInQueue ≠ interruptEventQueueLen) :
    (onBleEvt r s).1.eventQueue.queue s.eventQueue.queueHead
      = EventQueue.fill (s.eventQueue.queue s.eventQueue.queueHead) r.event := by
  rw [onBleEvt, if_pos hon, interruptEventQueueAdd, if_neg hroom]
  show (spiSlaveNotify _).1.eventQueue.queue _ = _
  rw [spiSlaveNotify_queue]
  exact Function.update_self _ _ _

/-- An event of at most 64 bytes is queued as it is. -/
theorem bytes_fill (old : QueueItem) {e : Event} (h : e.data.length ≤ 64) :
    (EventQueue.fill old e).bytes = e.data := by
  show (old.buffer.copy 0 (e.data.take (min e.len.toNat 64))).front e.len.toNat = _
  rw [Event.toNat_len, Nat.min_eq_left h, List.take_length, Buf.front_copy _ le_rfl h,
    List.take_length]

/-- **What is queued of a report** is all of it but the last byte. -/
theorem report_data (r : GapAdvReport) : r.advReport.event.data = r.whole.dropLast := by
  have hbytes : List.ofFn r.advReport.raw = r.bytes := by
    refine List.ext_getElem (by rw [List.length_ofFn, r.length_bytes]) fun i h₁ h₂ => ?_
    rw [List.getElem_ofFn]
    rfl
  show (List.ofFn r.advReport.raw).take (r.dlen.toNat + 8) = _
  rw [hbytes, List.dropLast_eq_take, r.length_whole, GapAdvReport.bytes, GapAdvReport.whole,
    List.take_append, List.take_append, Buf.front, List.take_take]
  -- of the data, one byte less than `dlen` is taken
  congr 2
  simp

/-! ### No report is whole -/

/-- The bytes queued for the report contain its header and all its data bytes. -/
def QueuedWhole (r : GapAdvReport) (s : Firmware) : Prop :=
  r.whole <:+: ((onBleEvt r.advReport s).1.eventQueue.queue s.eventQueue.queueHead).bytes

/-- **No report is queued whole**: the header has nine bytes, and eight are counted. -/
theorem report_never_whole (r : GapAdvReport) (s : Firmware)
    (hon : s.bcpIrqAdvertisements = true)
    (hroom : s.eventQueue.itemsInQueue ≠ interruptEventQueueLen) : ¬ QueuedWhole r s := by
  intro hwhole
  have hdata := report_data r
  have hlen : r.whole.dropLast.length = r.dlen.toNat + 8 := by simp
  rw [QueuedWhole, onBleEvt_cell _ hon hroom, bytes_fill _ (by rw [hdata, hlen]; omega),
    hdata] at hwhole
  have hle := hwhole.length_le
  rw [hlen, r.length_whole] at hle
  omega

/-- The bit-fields of a report with the other `scan_rsp`. -/
theorem bitFields_scanRsp_ne (r : GapAdvReport) :
    GapAdvReport.bitFields { r with scanRsp := r.scanRsp + 1 } ≠ r.bitFields := by
  intro h
  have hnat := congrArg UInt8.toNat h
  have hbit := r.scanRsp.isLt
  have hlt := r.dlen.isLt
  simp only [GapAdvReport.bitFields, UInt8.toNat_ofNat', BitVec.toNat_add] at hnat
  simp at hnat
  omega

/-- Another report that only differs in the last byte of its header or its data. -/
theorem exists_same_but_last (r : GapAdvReport) :
    ∃ r' : GapAdvReport, r'.whole ≠ r.whole ∧ r'.whole.dropLast = r.whole.dropLast := by
  by_cases hdlen : r.dlen.toNat = 0
  · -- without data, the header is what is cut
    have hwhole : ∀ scanRsp, GapAdvReport.whole { r with scanRsp }
        = (List.ofFn r.peerAddr ++ [r.rssi]) ++ [GapAdvReport.bitFields { r with scanRsp }] := by
      intro scanRsp
      simp [GapAdvReport.whole, GapAdvReport.header, hdlen]
    refine ⟨{ r with scanRsp := r.scanRsp + 1 }, fun h => ?_, ?_⟩
    · have hlast := (hwhole _).symm.trans (h.trans (hwhole r.scanRsp))
      exact bitFields_scanRsp_ne r (List.singleton_inj.mp (List.append_cancel_left hlast))
    · rw [hwhole, hwhole r.scanRsp, List.dropLast_concat, List.dropLast_concat]
  · -- with data, the last byte of it
    obtain ⟨d, hd⟩ := Nat.exists_eq_succ_of_ne_zero hdlen
    have hlt : d < 31 := by have := r.dlen.isLt; omega
    have hwhole : ∀ data : Buf 31, GapAdvReport.whole { r with data }
        = (r.header ++ data.front d) ++ [data ⟨d, hlt⟩] := by
      intro data
      show r.header ++ (List.ofFn data).take r.dlen.toNat = _
      rw [hd, List.take_succ_eq_append_getElem (by simpa using hlt), List.getElem_ofFn,
        List.append_assoc]
      rfl
    refine ⟨{ r with data := Function.update r.data ⟨d, hlt⟩ (r.data ⟨d, hlt⟩ + 1) },
      fun h => ?_, ?_⟩
    · have hlast := (hwhole _).symm.trans (h.trans (hwhole r.data))
      have heq := List.singleton_inj.mp (List.append_inj_right' hlast rfl)
      rw [Function.update_self] at heq
      simp at heq
    · rw [hwhole, hwhole r.data, List.dropLast_concat, List.dropLast_concat]
      congr 1
      -- the bytes in front of it are the same
      refine List.ext_getElem (by simp) fun i h₁ h₂ => ?_
      have hi : i < d := by simp at h₁; omega
      rw [Buf.getElem_front, Buf.getElem_front, Function.update_of_ne]
      exact fun h => hi.ne (congrArg Fin.val h)

/-- **No report can be recovered**: another one is queued as the same event. -/
theorem exists_same_event (r : GapAdvReport) :
    ∃ r' : GapAdvReport, r'.whole ≠ r.whole ∧ r'.advReport.event = r.advReport.event := by
  obtain ⟨r', hne, heq⟩ := exists_same_but_last r
  refine ⟨r', hne, ?_⟩
  rw [← report_data, ← report_data] at heq
  show Event.mk _ _ _ = Event.mk _ _ _
  congr 1

/-- The firmware at reset, with reports wanted. -/
def Firmware.sniffing : Firmware := { Firmware.init with bcpIrqAdvertisements := true }

/-- A report with the three data bytes of a flags structure. -/
def GapAdvReport.flags : GapAdvReport :=
  ⟨fun _ => 0x11, 0xc8, 0, 0, 3, Buf.copy (fun _ => 0) 0 [2, 1, 6]⟩

/-- `report_never_whole` at that report: two of the three bytes are queued. -/
theorem report_never_whole_flags :
    GapAdvReport.flags.advReport.event.data = GapAdvReport.flags.header ++ [2, 1] ∧
      ¬ QueuedWhole .flags .sniffing :=
  ⟨by decide, report_never_whole _ _ rfl (by decide)⟩

/-- Its last data byte is not queued. -/
theorem flags_report_cut : ¬ QueuedWhole .flags .sniffing :=
  fun h => absurd h.length_le (by decide)

end Gap.Bcp
