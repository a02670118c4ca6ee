import Gap.Bcp.EventQueue
import Gap.Lib.Outbox

namespace Gap.Bcp

/-!
# Firmware — the SPI slave

`bcp_spi_slave.c`, with the parts of `main.c` it calls (`bcp_sniff_advertisements`, the
interrupt line).  Both handlers that pop the queue into `spi_tx_buf` share the block
`repopulate`; what each does around it (the flag, the line, the empty branch) is its own.

`spi_slave_buffers_set` is taken to succeed; a call that hands over a new frame is the output
`loaded`, so the trace of the firmware is a trace of `Outbox.Out` whose loaded items are
whole contents of `spi_tx_buf`.
-/

/-- The globals of the firmware that its event path reads or writes. -/
structure Firmware where
  eventQueue : EventQueue
  spiTxBuf : Buf 64
  spiRxBuf : Buf 64
  bufferFull : Bool
  /-- The level of `INTERRUPT_PIN`. -/
  interruptPin : Bool
  bcpIrqAdvertisements : Bool

/-- The state at reset. -/
def Firmware.init : Firmware where
  eventQueue := EventQueue.empty
  spiTxBuf := fun _ => 0
  spiRxBuf := fun _ => 0
  bufferFull := false
  interruptPin := false
  bcpIrqAdvertisements := false

/-- What the firmware lets an observer see. -/
abbrev Obs := Outbox.Out Event (Buf 64)

/-- The results of `interrupt_event_queue_add`. -/
inductive ErrCode
  | success
  | noMem
  deriving DecidableEq

/-- The events of the SPI slave module. -/
inductive SpiSlaveEvt
  | buffersSetDone
  | xferDone
  deriving DecidableEq

/-- `BCP_CMD_READ_IRQ`. -/
def bcpCmdReadIrq : UInt8 := 1

/-- `BCP_CMD_SNIFF_ADVERTISEMENTS`. -/
def bcpCmdSniffAdvertisements : UInt8 := 2

/-! ### The handlers -/

/-- The frame header: a length byte that counts the response type, then the type. -/
def setHeader (tx : Buf 64) (dataLen responseType : UInt8) : Buf 64 :=
  Function.update (Function.update tx 0 (dataLen + 1)) 1 responseType

/-- The block both handlers open with: pop the queue to `spi_tx_buf + 2` and, if that gave
    data, write the header.  Returns `data_len`.  The local `response_type` starts
    indeterminate and is only read after the queue has written it. -/
def repopulate (s : Firmware) : UInt8 × Firmware :=
  let r := interruptEventQueueGet s.eventQueue 0 s.spiTxBuf 2
  -- the 16-bit result goes into a `uint8_t`
  let dataLen := r.len.toUInt8
  if dataLen > 0 then
    (dataLen, { s with
      eventQueue := r.eventQueue, spiTxBuf := setHeader r.data dataLen r.interruptEvent })
  else (dataLen, { s with eventQueue := r.eventQueue, spiTxBuf := r.data })

/-- `spi_slave_notify`. -/
def spiSlaveNotify (s : Firmware) : Firmware × List Obs :=
  if !s.bufferFull then
    let (dataLen, s) := repopulate s
    if dataLen > 0 then
      ({ s with bufferFull := true, interruptPin := true }, [.loaded s.spiTxBuf])
    else (s, [])
  -- the frame on offer has not been read: leave the event in the queue
  else (s, [])

/-- `interrupt_event_queue_add`. -/
def interruptEventQueueAdd (e : Event) (s : Firmware) : ErrCode × Firmware × List Obs :=
  if s.eventQueue.itemsInQueue = interruptEventQueueLen then (.noMem, s, [.refused e])
  else
    let (s, o) := spiSlaveNotify { s with eventQueue := s.eventQueue.put e }
    (.success, s, .accepted e :: o)

/-- The command switch of `spi_slave_event_handle`. -/
def runCommand (s : Firmware) : Firmware :=
  let command := s.spiRxBuf 0
  -- "This message was only to read data"
  if command = bcpCmdReadIrq then s
  else if command = bcpCmdSniffAdvertisements then { s with bcpIrqAdvertisements := true }
  else s

/-- `spi_slave_event_handle`. -/
def spiSlaveEventHandle (evt : SpiSlaveEvt) (s : Firmware) : Firmware × List Obs :=
  match evt with
  | .buffersSetDone => (s, [])
  | .xferDone =>
    let (dataLen, s) := repopulate (runCommand s)
    if dataLen > 0 then
      ({ s with interruptPin := true, bufferFull := true }, [.acked, .loaded s.spiTxBuf])
    else
      -- the buffer is handed back as it is: only the flag and the line change
      ({ s with bufferFull := false, interruptPin := false }, [.acked, .emptied])

/-- The bytes a transfer clocked in, as the SPI module leaves them in `spi_rx_buf`. -/
def spiReceive (mosi : List UInt8) (s : Firmware) : Firmware :=
  { s with spiRxBuf := s.spiRxBuf.copy 0 mosi }

/-! ### Frames -/

/-- The frame of an event: length byte (counting the type), response type, data. -/
def Event.frame (e : Event) : List UInt8 := (e.len + 1) :: e.interruptEvent :: e.data

/-- The frame a transmit buffer announces: as many bytes as its length byte counts, and the
    length byte itself. -/
def frameIn (tx : Buf 64) : List UInt8 := tx.front ((tx 0).toNat + 1)

/-- A transmit buffer shows the event `e` (as far as its 64 bytes reach). -/
structure Carries (tx : Buf 64) (e : Event) : Prop where
  length : tx 0 = e.len + 1
  responseType : tx 1 = e.interruptEvent
  data : ∀ (i : ℕ) (h : i < e.data.length) (h' : i + 2 < 64), tx ⟨i + 2, h'⟩ = e.data[i]

/-- The length byte of an event that fits its frame. -/
theorem Event.toNat_len_add_one {e : Event} (h : e.data.length ≤ 62) :
    (e.len + 1).toNat = e.data.length + 1 := by
  rw [UInt8.toNat_add, Event.toNat_len]
  exact Nat.mod_eq_of_lt (by simp; omega)

theorem Event.length_frame (e : Event) : e.frame.length = e.data.length + 2 := rfl

/-- **Encoding.**  A buffer that shows an event of at most 62 bytes starts with its frame,
    and its length byte says where the frame ends. -/
theorem Carries.front_eq {tx : Buf 64} {e : Event} (h : Carries tx e)
    (hlen : e.data.length ≤ 62) : tx.front (e.data.length + 2) = e.frame := by
  refine List.ext_getElem (by simp [Event.length_frame]; omega) fun i h₁ h₂ => ?_
  rw [Buf.getElem_front]
  -- length byte, response type, data
  match i with
  | 0 => exact h.length
  | 1 => exact h.responseType
  | i + 2 =>
    rw [Event.length_frame] at h₂
    exact h.data i (by omega) (by omega)

theorem Carries.frameIn_eq {tx : Buf 64} {e : Event} (h : Carries tx e)
    (hlen : e.data.length ≤ 62) : frameIn tx = e.frame := by
  rw [frameIn, h.length, Event.toNat_len_add_one hlen]
  exact h.front_eq hlen

end Gap.Bcp
