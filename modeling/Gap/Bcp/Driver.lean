import Gap.Lib.Bytes
import Mathlib.Algebra.Ring.Nat

namespace Gap.Bcp

/-!
# Driver — one radio of `nrf51822.c`

The state is the part of `struct nrf51822_dev` that the SPI path reads or writes.  A
completion callback is split at the points where other code can run in between:

* `nrf51822ReadIrqDone` / `nrf51822IssueSimpleCommandDone` — decode `spi_data_buffer` and
  publish the frame in `buf_to_user`;
* `clearSpiPending` — the critical section that releases the SPI buffer;
* `nrf51822CheckIrq` — sample the interrupt line, and read again while it is high.

`nrf51822ReadIrq` and `nrf51822IssueSimpleCommand` claim the SPI buffer and hand one message
to the SPI core; `gap_spi_async` is taken to queue it.
-/

@[instance] theorem neZero_128 : NeZero 128 := ⟨by decide⟩

/-- The two completion callbacks a message can carry. -/
inductive Completion
  | readIrqDone
  | issueSimpleCommandDone
  deriving DecidableEq

/-- `BCP_COMMAND_READ_IRQ`. -/
def bcpCommandReadIrq : UInt8 := 1

/-- The length both paths give their transfer: "right now just read the maximum length". -/
def spiTransferLen : ℕ := 40

/-- The one transfer of a message, `spi_tsfers[0]`: it clocks `len` bytes out of
    `spi_command_buffer` and into `spi_data_buffer`. -/
structure SpiTransfer where
  len : ℕ
  csChange : Bool
  deriving DecidableEq

/-- What the SPI core is handed: `spi_msg` with the transfer linked into it. -/
structure SpiMessage where
  complete : Completion
  transfer : SpiTransfer
  deriving DecidableEq

/-- `struct nrf51822_dev`. -/
structure Driver where
  spiCommandBuffer : Buf 128
  spiDataBuffer : Buf 128
  /-- The bytes of the structure that follow `spi_data_buffer`, which a `memcpy` of more than
      128 bytes out of it reads. -/
  afterSpiDataBuffer : Buf 128
  /-- `spi_tsfers[0]`, the only element used. -/
  spiTsfer : SpiTransfer
  /-- `spi_msg.complete`. -/
  spiMsgComplete : Option Completion
  spiPending : Bool
  bufToUser : Buf 256
  bufToUserLen : ℕ

/-- The state `nrf51822_probe` leaves. -/
def Driver.init : Driver where
  spiCommandBuffer := fun _ => 0
  spiDataBuffer := fun _ => 0
  afterSpiDataBuffer := fun _ => 0
  spiTsfer := ⟨0, false⟩
  spiMsgComplete := none
  spiPending := false
  bufToUser := fun _ => 0
  bufToUserLen := 0

/-! ### Decoding -/

/-- The test both callbacks start with: the first two bytes are zero. -/
def NoData (rx : Buf 128) : Prop := rx 0 = 0 ∧ rx 1 = 0

instance (rx : Buf 128) : Decidable (NoData rx) := inferInstanceAs (Decidable (_ ∧ _))

/-- `memcpy (dev->buf_to_user, dev->spi_data_buffer, len); dev->buf_to_user_len = len`. -/
def copyToUser (dev : Driver) (len : ℕ) : Driver :=
  { dev with
    bufToUser := dev.bufToUser.copy 0
      ((dev.spiDataBuffer.front 128 ++ dev.afterSpiDataBuffer.front 128).take len)
    bufToUserLen := len }

/-- `nrf51822_read_irq_done` up to its critical section; the flag says whether it goes on to
    wake the readers. -/
def nrf51822ReadIrqDone (dev : Driver) : Driver × Bool :=
  -- "This was an invalid transfer": the callback returns early
  if dev.spiDataBuffer 0 = 0 ∧ dev.spiDataBuffer 1 = 0 then (dev, false)
  else if dev.spiDataBuffer 0 = 0 then
    -- the first byte was an error: the second one is the length
    (copyToUser dev ((dev.spiDataBuffer 1).toNat + 1), true)
  else (copyToUser dev ((dev.spiDataBuffer 0).toNat + 1), true)

/-- `nrf51822_issue_simple_command_done` up to its critical section, with
    `received_valid_data`. -/
def nrf51822IssueSimpleCommandDone (dev : Driver) : Driver × Bool :=
  -- "No data to be transfered to the host"
  if dev.spiDataBuffer 0 = 0 ∧ dev.spiDataBuffer 1 = 0 then (dev, false)
  else if dev.spiDataBuffer 0 = 0 then
    (copyToUser dev ((dev.spiDataBuffer 1).toNat + 1), true)
  else (copyToUser dev ((dev.spiDataBuffer 0).toNat + 1), true)

/-- The decoding part of a completion callback. -/
def Completion.done (c : Completion) (dev : Driver) : Driver × Bool :=
  match c with
  | .readIrqDone => nrf51822ReadIrqDone dev
  | .issueSimpleCommandDone => nrf51822IssueSimpleCommandDone dev

/-- The frame user space reads: `buf_to_user[0 .. buf_to_user_len)`. -/
def Driver.published (dev : Driver) : List UInt8 := dev.bufToUser.front dev.bufToUserLen

/-! ### Claiming and releasing the SPI buffer -/

/-- The critical section of both callbacks. -/
def clearSpiPending (dev : Driver) : Driver := { dev with spiPending := false }

/-- The set-up both paths make after their claim: the one transfer, the command byte and the
    message, handed to `gap_spi_async`. -/
def submitMessage (command : UInt8) (complete : Completion) (dev : Driver) :
    Driver × SpiMessage :=
  let transfer := { len := spiTransferLen, csChange := true }
  ({ dev with
      spiTsfer := transfer
      spiCommandBuffer := Function.update dev.spiCommandBuffer 0 command
      spiMsgComplete := some complete },
    { complete, transfer })

/-- `nrf51822_read_irq`: skipped while the SPI buffer is claimed. -/
def nrf51822ReadIrq (dev : Driver) : Driver × Option SpiMessage :=
  -- "Something else is using the SPI. Just skip this interrupt."
  if dev.spiPending then (dev, none)
  else
    let (dev, msg) := submitMessage bcpCommandReadIrq .readIrqDone { dev with spiPending := true }
    (dev, some msg)

/-- The results of the `SIMPLE_COMMAND` path. -/
inductive CommandResult
  | issued
  | eintr
  deriving DecidableEq

/-- `nrf51822_issue_simple_command`. -/
def nrf51822IssueSimpleCommand (command : UInt8) (dev : Driver) :
    CommandResult × Driver × Option SpiMessage :=
  if dev.spiPending then (.eintr, dev, none)
  else
    let (dev, msg) :=
      submitMessage command .issueSimpleCommandDone { dev with spiPending := true }
    (.issued, dev, some msg)

/-- `nrf51822_interrupt_handler`. -/
def nrf51822InterruptHandler (dev : Driver) : Driver × Option SpiMessage := nrf51822ReadIrq dev

/-- `nrf51822_check_irq` with the line at the level `gpio_get_value` returned. -/
def nrf51822CheckIrq (line : Bool) (dev : Driver) : Driver × Option SpiMessage :=
  if line then nrf51822ReadIrq dev else (dev, none)

/-- Both paths ask for `spiTransferLen` bytes. -/
theorem nrf51822ReadIrq_len (dev : Driver) :
    ∀ msg ∈ (nrf51822ReadIrq dev).2, msg.transfer.len = spiTransferLen := by
  intro msg hmsg
  unfold nrf51822ReadIrq at hmsg
  split at hmsg
  · cases hmsg
  · obtain rfl := Option.some.inj hmsg
    rfl

theorem nrf51822IssueSimpleCommand_len (command : UInt8) (dev : Driver) :
    ∀ msg ∈ (nrf51822IssueSimpleCommand command dev).2.2, msg.transfer.len = spiTransferLen := by
  intro msg hmsg
  unfold nrf51822IssueSimpleCommand at hmsg
  split at hmsg
  · cases hmsg
  · obtain rfl := Option.some.inj hmsg
    rfl

/-- The bytes a message clocks out of `spi_command_buffer`. -/
def Driver.mosi (dev : Driver) (msg : SpiMessage) : List UInt8 :=
  dev.spiCommandBuffer.front msg.transfer.len

/-- The bytes a message clocked in, as the SPI core leaves them in `spi_data_buffer`. -/
def Driver.receive (miso : List UInt8) (dev : Driver) : Driver :=
  { dev with spiDataBuffer := dev.spiDataBuffer.copy 0 miso }

/-- They are at the front of it. -/
theorem receive_getElem (dev : Driver) {miso : List UInt8} {i : ℕ} (h : i < miso.length)
    (h128 : i < 128) : (dev.receive miso).spiDataBuffer ⟨i, h128⟩ = miso[i] := by
  show dev.spiDataBuffer.copy 0 miso ⟨i, h128⟩ = _
  rw [Buf.copy_of_mem _ _ (Nat.zero_le _) h]
  rfl

/-! ### What the callbacks do -/

/-- The two callbacks decode in the same way. -/
theorem done_eq (c c' : Completion) (dev : Driver) : c.done dev = c'.done dev := by
  cases c <;> cases c' <;> rfl

/-- A transfer without data publishes nothing. -/
theorem done_of_noData {dev : Driver} (h : NoData dev.spiDataBuffer) (c : Completion) :
    c.done dev = (dev, false) := by
  rw [done_eq c .readIrqDone]
  exact if_pos h

/-- Without the first-byte error, the first byte is the length. -/
theorem done_of_ne_zero {dev : Driver} (h : dev.spiDataBuffer 0 ≠ 0) (c : Completion) :
    c.done dev = (copyToUser dev ((dev.spiDataBuffer 0).toNat + 1), true) := by
  rw [done_eq c .readIrqDone]
  simp [Completion.done, nrf51822ReadIrqDone, h]

/-- With it, the second byte is. -/
theorem done_of_eq_zero {dev : Driver} (h : dev.spiDataBuffer 0 = 0)
    (hno : ¬ NoData dev.spiDataBuffer) (c : Completion) :
    c.done dev = (copyToUser dev ((dev.spiDataBuffer 1).toNat + 1), true) := by
  rw [done_eq c .readIrqDone]
  have hsecond : dev.spiDataBuffer 1 ≠ 0 := fun h1 => hno ⟨h, h1⟩
  simp [Completion.done, nrf51822ReadIrqDone, h, hsecond]

/-- Everything but two zero bytes is published. -/
theorem done_snd (c : Completion) (dev : Driver) :
    (c.done dev).2 = true ↔ ¬ NoData dev.spiDataBuffer := by
  rw [done_eq c .readIrqDone]
  simp only [Completion.done, nrf51822ReadIrqDone, NoData]
  split
  · next h => simp [h]
  · next h => split <;> simpa using h

/-- What is published after a copy of at most 256 bytes. -/
theorem published_copyToUser (dev : Driver) {len : ℕ} (h : len ≤ 256) :
    (copyToUser dev len).published
      = (dev.spiDataBuffer.front 128 ++ dev.afterSpiDataBuffer.front 128).take len := by
  simp only [Driver.published, copyToUser]
  -- what is read back is what was copied, since it fits `buf_to_user`
  rw [Buf.front_copy _ (by simp [h]) h, List.take_take, Nat.min_self]

end Gap.Bcp
