import Gap.Bcp.Delivery
import Gap.Bcp.Driver

namespace Gap.Bcp

/-!
# The frame between firmware and driver

The firmware writes `[len + 1, type] ++ data` to the front of `spi_tx_buf`; the driver clocks
`spiTransferLen` bytes and publishes as many as the length byte announces.

* `LoadedBy` — the firmware states in which a handler has just loaded a given event.
* `afterTransfer_of_carries` — what either callback makes of a transfer of that buffer.
* `frame_round_trip` — the frame arrives whole exactly when it fits the transfer.
-/

/-- The states a handler leaves after loading the event `e` from the queue, whatever the
    transmit buffer held before. -/
inductive LoadedBy (e : Event) : Firmware → Prop
  | notify {s : Firmware} {item : QueueItem} {rest : List QueueItem} (hfree : s.bufferFull = false)
      (hhead : s.eventQueue.HeadOk) (hp : s.eventQueue.pending = item :: rest)
      (hitem : Holds item e) : LoadedBy e (spiSlaveNotify s).1
  | xferDone {s : Firmware} {item : QueueItem} {rest : List QueueItem}
      (hhead : s.eventQueue.HeadOk) (hp : s.eventQueue.pending = item :: rest)
      (hitem : Holds item e) : LoadedBy e (spiSlaveEventHandle .xferDone s).1

/-- Whichever handler loaded it, the transmit buffer shows the event. -/
theorem LoadedBy.carries {e : Event} {s : Firmware} (h : LoadedBy e s) (he : e.data ≠ []) :
    Carries s.spiTxBuf e := by
  cases h with
  | notify hfree hhead hp hitem =>
    obtain ⟨q, tx, -, -, htx, hn⟩ := spiSlaveNotify_of_cons hfree hp hhead hitem he
    rw [hn]
    exact htx
  | @xferDone s item _ hhead hp hitem =>
    -- the command that came with the transfer does not touch the queue
    obtain ⟨q, tx, -, -, htx, hrep⟩ := repopulate_of_cons
      (s := { s with bcpIrqAdvertisements := (runCommand s).bcpIrqAdvertisements })
      (by exact hp) hhead hitem he
    simp only [spiSlaveEventHandle]
    rw [runCommand_eq, hrep]
    simp only [hitem.len_pos he, if_true]
    exact htx

/-! ### What the driver publishes -/

/-- The driver state after a transfer of `tx` and the decoding part of its callback. -/
def afterTransfer (tx : Buf 64) (c : Completion) (dev : Driver) : Driver :=
  (c.done (dev.receive (tx.front spiTransferLen))).1

/-- A received buffer starts with the bytes of the transfer. -/
theorem receive_front (dev : Driver) (tx : Buf 64) {k : ℕ} (hk : k ≤ spiTransferLen) :
    (dev.receive (tx.front spiTransferLen)).spiDataBuffer.front k = tx.front k := by
  have hlen : spiTransferLen = 40 := rfl
  rw [Driver.receive, Buf.front_copy _ (by simp; omega) (by omega), Buf.take_front]
  congr 1
  omega

theorem receive_apply (dev : Driver) (tx : Buf 64) {i : ℕ} (hi : i < 40) :
    (dev.receive (tx.front spiTransferLen)).spiDataBuffer ⟨i, by omega⟩ = tx ⟨i, by omega⟩ := by
  have hlen : i < (tx.front spiTransferLen).length := by
    rw [Buf.length_front]
    exact lt_min hi (by omega)
  rw [receive_getElem dev hlen, Buf.getElem_front]

/-- **Decoding.**  From a buffer that shows an event of at most 62 bytes, both callbacks take
    the length from the first byte. -/
theorem afterTransfer_of_carries {tx : Buf 64} {e : Event} (h : Carries tx e)
    (hlen : e.data.length ≤ 62) (c : Completion) (dev : Driver) :
    afterTransfer tx c dev
      = copyToUser (dev.receive (tx.front spiTransferLen)) (e.data.length + 2) := by
  have hfirst : (dev.receive (tx.front spiTransferLen)).spiDataBuffer 0 = e.len + 1 :=
    (receive_apply dev tx (by decide)).trans h.length
  have hnat := Event.toNat_len_add_one hlen
  -- it counts the type byte, so it is not zero
  have hne : (dev.receive (tx.front spiTransferLen)).spiDataBuffer 0 ≠ 0 := by
    rw [hfirst]
    intro h0
    rw [h0] at hnat
    simp at hnat
  rw [afterTransfer, done_of_ne_zero hne, hfirst, hnat]

/-- The frame arrives as it was sent, and no byte of it is older than the transfer. -/
def RoundTrip (e : Event) (tx : Buf 64) (c : Completion) (dev : Driver) : Prop :=
  (afterTransfer tx c dev).bufToUserLen = e.data.length + 2 ∧
    (afterTransfer tx c dev).published = e.frame ∧
    (afterTransfer tx c dev).published <+: tx.front spiTransferLen

/-- A frame that fits the transfer makes the round trip. -/
theorem roundTrip_of_le {tx : Buf 64} {e : Event} (h : Carries tx e)
    (hlen : e.data.length + 2 ≤ spiTransferLen) (c : Completion) (dev : Driver) :
    RoundTrip e tx c dev := by
  have h40 : spiTransferLen = 40 := rfl
  have hdecode := afterTransfer_of_carries h (by omega) c dev
  -- all bytes of the frame are among those of the transfer
  have hpub : (afterTransfer tx c dev).published = e.frame := by
    rw [hdecode, published_copyToUser _ (by omega), List.take_append_of_le_length (by simp; omega),
      Buf.take_front, Nat.min_eq_left (by omega), receive_front _ _ hlen]
    exact h.front_eq (by omega)
  refine ⟨by rw [hdecode]; rfl, hpub, ?_⟩
  rw [hpub, ← h.front_eq (by omega), ← Nat.min_eq_left hlen, ← Buf.take_front]
  exact List.take_prefix _ _

/-- A longer frame does not: its last bytes are not of this transfer. -/
theorem not_roundTrip_of_lt {tx : Buf 64} {e : Event} (h : Carries tx e)
    (hlen : e.data.length ≤ 62) (hlt : spiTransferLen < e.data.length + 2) (c : Completion)
    (dev : Driver) : ¬ RoundTrip e tx c dev := by
  rintro ⟨-, -, hprefix⟩
  have h40 : spiTransferLen = 40 := rfl
  -- more bytes are published than were transferred
  have hle := hprefix.length_le
  rw [afterTransfer_of_carries h hlen, published_copyToUser _ (by omega)] at hle
  simp at hle
  omega

/-- **Frame round trip.**  For an advertisement report of `dlen` data bytes, queued as `dlen + 8`
    bytes and loaded by either handler, the frame makes the round trip exactly when `dlen` is
    at most 30: the longest report does not fit the 40 bytes the driver reads. -/
theorem frame_round_trip (dlen : ℕ) (hdlen : dlen ≤ 31) (e : Event) (he : e.data.length = dlen + 8)
    (s : Firmware) (hload : LoadedBy e s) (c : Completion) (dev : Driver) :
    RoundTrip e s.spiTxBuf c dev ↔ dlen ≤ 30 := by
  have h40 : spiTransferLen = 40 := rfl
  have hcarries := hload.carries (List.ne_nil_of_length_pos (by omega))
  constructor
  · intro hrt
    by_contra hgt
    exact not_roundTrip_of_lt hcarries (by omega) (by omega) c dev hrt
  · intro hle
    exact roundTrip_of_le hcarries (by omega) c dev

/-- The longest advertisement report: 39 bytes of `0xAA`. -/
def longestReport : Event := ⟨1, List.replicate 39 0xAA, by decide⟩

/-- The firmware with that report queued, before it notifies the SPI slave. -/
def longestQueued : Firmware :=
  { Firmware.init with eventQueue := EventQueue.empty.put longestReport }

theorem longestQueued_loads : LoadedBy longestReport (spiSlaveNotify longestQueued).1 :=
  @LoadedBy.notify longestReport longestQueued (EventQueue.fill ⟨fun _ => 0, 0, 0⟩ longestReport) []
    rfl rfl rfl (fill_holds _ _)

/-- `frame_round_trip` at a report of 31 data bytes. -/
theorem frame_round_trip_longest :
    ¬ RoundTrip longestReport (spiSlaveNotify longestQueued).1.spiTxBuf .readIrqDone Driver.init :=
  fun h => absurd ((frame_round_trip 31 (by decide) longestReport (by decide) _
    longestQueued_loads .readIrqDone Driver.init).mp h) (by decide)

/-- The longest report is published with a last byte that is not the report's. -/
theorem longest_report_truncated :
    LoadedBy longestReport (spiSlaveNotify longestQueued).1 ∧
      (afterTransfer (spiSlaveNotify longestQueued).1.spiTxBuf .readIrqDone
        Driver.init).published ≠ longestReport.frame :=
  ⟨longestQueued_loads, by decide +kernel⟩

end Gap.Bcp
