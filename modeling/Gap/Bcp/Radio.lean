import Gap.Bcp.Driver
import Gap.Lib.Machine

namespace Gap.Bcp

/-!
# One radio, statement by statement

The paths of `nrf51822.c` that share one `struct nrf51822_dev` run as interrupt handlers, ioctl
and read calls and completion callbacks, and get in between each other's statements.  Only the two
critical sections under `spi_spin_lock` are single steps.

* `Stmt` — the statements; `Stmt.exec` is one of them, with the statements its path goes on with.
* `readIrq`, `issueSimpleCommand`, `readIrqDone`, `issueSimpleCommandDone`, `checkIrq`, `read` —
  the paths as lists of statements.
* `radio` — any number of threads taking their statements in any order, the SPI core transferring
  messages meanwhile.
* `alone_readIrq`, `alone_issueSimpleCommand`, `alone_done` — a path that is not interrupted does
  what the function of `Driver.lean` does.
-/

/-! ### Shared memory -/

/-- The pointers of `spi_tsfers[0]` and `spi_msg`: each is null, or points where the set-up lets it
    point. -/
structure Pointers where
  /-- `tx_buf` is `spi_command_buffer`. -/
  txBuf : Bool
  /-- `rx_buf` is `spi_data_buffer`. -/
  rxBuf : Bool
  /-- `context` is the device. -/
  context : Bool
  /-- `spi_tsfers[0]` is on the list of the message. -/
  transfers : Bool
  deriving DecidableEq

/-- What the SPI core works from during a transfer. -/
structure Handed where
  spiCommandBuffer : Buf 128
  spiTsfer : SpiTransfer
  spiMsgComplete : Option Completion
  pointers : Pointers

/-- A message at the SPI core: its number, and what it was when it was submitted. -/
structure Submission where
  number : ℕ
  handed : Handed

/-- What the paths of one radio share, and the messages at the SPI core. -/
structure Radio where
  dev : Driver
  pointers : Pointers
  outstanding : List Submission
  /-- The number of messages submitted so far. -/
  submitted : ℕ

/-- A probed radio. -/
def Radio.init : Radio := ⟨Driver.init, ⟨false, false, false, false⟩, [], 0⟩

/-- What the SPI core would find now. -/
def Radio.handed (r : Radio) : Handed where
  spiCommandBuffer := r.dev.spiCommandBuffer
  spiTsfer := r.dev.spiTsfer
  spiMsgComplete := r.dev.spiMsgComplete
  pointers := r.pointers

/-- What an observer sees. -/
inductive RadioObs
  /-- `gap_spi_async` has queued the message `n`. -/
  | submitted (n : ℕ)
  /-- The transfer of the message `n` has ended with `rx` in `spi_data_buffer`. -/
  | completed (n : ℕ) (rx : Buf 128)
  /-- A statement has written `spi_msg`, `spi_tsfers` or `spi_command_buffer`. -/
  | wrote
  /-- The callback of the message `n` has read `spi_data_buffer`, which held `rx`. -/
  | readData (n : ℕ) (rx : Buf 128)
  /-- The callback of the message `n` has made its frame readable. -/
  | stored (n : ℕ) (frame : List UInt8)
  /-- `nrf51822_read` returns `userLen`, with `buf` copied to its caller. -/
  | returned (buf : List UInt8) (userLen : ℕ)

/-! ### Statements -/

/-- The statements that set up a transfer: all between the claim and `gap_spi_async`. -/
inductive SetUp
  | clearTsfers
  | txBuf
  | rxBuf
  | len
  | csChange
  | command (byte : UInt8)
  | messageInit
  | complete (c : Completion)
  | context
  | addTail

/-- One statement of the set-up. -/
def SetUp.apply (r : Radio) : SetUp → Radio
  | .clearTsfers =>
    { r with
      dev.spiTsfer := ⟨0, false⟩
      pointers := { r.pointers with txBuf := false, rxBuf := false } }
  | .txBuf => { r with pointers.txBuf := true }
  | .rxBuf => { r with pointers.rxBuf := true }
  | .len => { r with dev.spiTsfer.len := spiTransferLen }
  | .csChange => { r with dev.spiTsfer.csChange := true }
  | .command byte =>
    { r with dev.spiCommandBuffer := Function.update r.dev.spiCommandBuffer 0 byte }
  | .messageInit =>
    { r with
      dev.spiMsgComplete := none
      pointers := { r.pointers with context := false, transfers := false } }
  | .complete c => { r with dev.spiMsgComplete := some c }
  | .context => { r with pointers.context := true }
  | .addTail => { r with pointers.transfers := true }

/-- The statements of a callback that decode `spi_data_buffer`. -/
inductive Decode
  /-- Are the first two bytes zero? -/
  | noData
  /-- Is the first byte zero? -/
  | firstByte
  /-- `len = spi_data_buffer[i] + 1`. -/
  | lenAt (i : Fin 2)

/-- The statements, each with the locals it uses: `n` is the message a callback was called for,
    `b` the length byte it has read, `buf` and `userLen` are what a read has got so far. -/
inductive Stmt
  | claim
  | setUp (w : SetUp)
  | async
  | decode (n : ℕ) (d : Decode)
  | copyToUser (n : ℕ) (b : UInt8)
  | storeLen (n : ℕ) (b : UInt8) (frame : List UInt8)
  | clearPending
  | wakeUp
  | checkIrq
  | waitEvent
  | copyOut
  | takeLen (buf : List UInt8)
  | resetLen (buf : List UInt8) (userLen : ℕ)

/-! ### The paths -/

/-- The statements both paths make that hand a message to the SPI core. -/
def submission (command : UInt8) (complete : Completion) : List Stmt :=
  [.claim, .setUp .clearTsfers, .setUp .txBuf, .setUp .rxBuf, .setUp .len, .setUp .csChange,
    .setUp (.command command), .setUp .messageInit, .setUp (.complete complete), .setUp .context,
    .setUp .addTail, .async]

/-- `nrf51822_read_irq`, the only statement of `nrf51822_interrupt_handler`. -/
def readIrq : List Stmt := submission bcpCommandReadIrq .readIrqDone

/-- `nrf51822_issue_simple_command`. -/
def issueSimpleCommand (command : UInt8) : List Stmt :=
  submission command .issueSimpleCommandDone

/-- `nrf51822_read_irq_done`, for the message `n`. -/
def readIrqDone (n : ℕ) : List Stmt := [.decode n .noData, .clearPending, .checkIrq]

/-- `nrf51822_issue_simple_command_done`: the readers are only woken if there is data. -/
def issueSimpleCommandDone (n : ℕ) : List Stmt := [.decode n .noData, .clearPending, .checkIrq]

/-- The callback of a message. -/
def Completion.stmts (n : ℕ) : Completion → List Stmt
  | .readIrqDone => Bcp.readIrqDone n
  | .issueSimpleCommandDone => Bcp.issueSimpleCommandDone n

/-- `nrf51822_read`. -/
def read : List Stmt := [.waitEvent, .copyOut]

/-- How a callback goes on after reading `rx`; `rest` is the path without data. -/
def Decode.next (n : ℕ) (rx : Buf 128) (rest : List Stmt) : Decode → List Stmt
  | .noData =>
    if NoData rx then rest
    else [.decode n .firstByte, .clearPending, .wakeUp, .checkIrq]
  | .firstByte => .decode n (.lenAt (if rx 0 = 0 then 1 else 0)) :: rest
  | .lenAt i => .copyToUser n (rx (i.castLE (by decide))) :: rest

/-- What comes from outside with a statement: the level of the interrupt line, whether
    `gap_spi_async` queues the message, whether a signal ends a wait, whether a copy to user space
    succeeds. -/
structure Env where
  line : Bool
  queued : Bool
  signal : Bool
  copied : Bool

/-- One statement of a thread that has `rest` to go: the shared memory, the statements the thread
    goes on with, and what is to be seen.  A wait is `none` while it blocks. -/
def Stmt.exec (env : Env) (rest : List Stmt) (r : Radio) :
    Stmt → Option (Radio × List Stmt × List RadioObs)
  -- the first critical section: "something else is using the SPI" returns
  | .claim =>
    if r.dev.spiPending then some (r, [], [])
    else some ({ r with dev.spiPending := true }, rest, [])
  | .setUp w => some (w.apply r, rest, [.wrote])
  -- the result of `gap_spi_async` is not looked at
  | .async =>
    let n := r.submitted + 1
    if env.queued then
      some ({ r with submitted := n, outstanding := r.outstanding ++ [⟨n, r.handed⟩] }, rest,
        [.submitted n])
    else some (r, rest, [])
  | .decode n d =>
    some (r, d.next n r.dev.spiDataBuffer rest, [.readData n r.dev.spiDataBuffer])
  | .copyToUser n b =>
    let frame := (r.dev.spiDataBuffer.front 128 ++ r.dev.afterSpiDataBuffer.front 128).take
      (b.toNat + 1)
    some ({ r with dev.bufToUser := r.dev.bufToUser.copy 0 frame }, .storeLen n b frame :: rest,
      [.readData n r.dev.spiDataBuffer])
  | .storeLen n b frame =>
    some ({ r with dev.bufToUserLen := b.toNat + 1 }, rest, [.stored n frame])
  -- the second critical section
  | .clearPending => some ({ r with dev.spiPending := false }, rest, [])
  | .wakeUp => some (r, rest, [])
  -- `nrf51822_check_irq`, after which its callers do nothing more
  | .checkIrq => some (r, if env.line then readIrq else [], [])
  -- the result of `wait_event_interruptible` is not looked at
  | .waitEvent =>
    if 0 < r.dev.bufToUserLen ∨ env.signal then some (r, rest, []) else none
  | .copyOut =>
    if env.copied then
      some (r, .takeLen (r.dev.bufToUser.front r.dev.bufToUserLen) :: rest, [])
    else some (r, [], [])
  | .takeLen buf => some (r, .resetLen buf r.dev.bufToUserLen :: rest, [])
  | .resetLen buf userLen =>
    some ({ r with dev.bufToUserLen := 0 }, rest, [.returned buf userLen])

/-! ### All threads of one radio -/

/-- One radio and the threads that run on it, each with the statements it has to go. -/
structure Running where
  radio : Radio
  threads : List (List Stmt)

/-- A path is entered, thread `k` makes its next statement, or the SPI core is at work. -/
inductive RadioInput
  | interrupt
  | ioctl (command : UInt8)
  | read
  | resume (k : ℕ) (env : Env)
  | clocks (miso : List UInt8)
  | transferEnds (j : ℕ) (miso : List UInt8)

/-- The statements of the callback a message completes with. -/
def Radio.callback (r : Radio) (n : ℕ) : List Stmt :=
  match r.dev.spiMsgComplete with
  | none => []
  | some complete => complete.stmts n

/-- One step of the radio. -/
def Running.step (s : Running) : RadioInput → Option (Running × List RadioObs)
  | .interrupt => some ({ s with threads := s.threads ++ [readIrq] }, [])
  | .ioctl command => some ({ s with threads := s.threads ++ [issueSimpleCommand command] }, [])
  | .read => some ({ s with threads := s.threads ++ [Bcp.read] }, [])
  | .resume k env =>
    match s.threads[k]? with
    | some (stmt :: rest) =>
      (stmt.exec env rest s.radio).map fun x => (⟨x.1, s.threads.set k x.2.1⟩, x.2.2)
    | _ => none
  -- while a message is transferred, its bytes come in
  | .clocks miso =>
    if s.radio.outstanding.isEmpty then none
    else some ({ s with radio.dev := s.radio.dev.receive miso }, [])
  | .transferEnds j miso =>
    match s.radio.outstanding[j]? with
    | none => none
    | some m =>
      let dev := s.radio.dev.receive miso
      some ({ s with
          radio := { s.radio with dev, outstanding := s.radio.outstanding.eraseIdx j }
          threads := s.threads ++ [s.radio.callback m.number] },
        [.completed m.number dev.spiDataBuffer])

/-- One radio as a machine. -/
def radio : Machine Running RadioInput RadioObs := ⟨⟨Radio.init, []⟩, Running.step⟩

/-! ### A path on its own -/

/-- Up to `fuel` statements of one thread, with nothing in between. -/
def alone (env : Env) : ℕ → Radio × List Stmt → Radio × List Stmt
  | fuel + 1, (r, stmt :: rest) =>
    match stmt.exec env rest r with
    | none => (r, stmt :: rest)
    | some x => alone env fuel (x.1, x.2.1)
  | _, x => x

/-- A message at the SPI core, as `Driver.lean` has it. -/
def Submission.message (m : Submission) : Option SpiMessage :=
  m.handed.spiMsgComplete.map fun complete => ⟨complete, m.handed.spiTsfer⟩

/-- The paths lead from `r` to `r'` what a function of `Driver.lean` returns as `x`. -/
structure Does (r r' : Radio) (x : Driver × Option SpiMessage) : Prop where
  dev : r'.dev = x.1
  messages : r'.outstanding.map Submission.message =
    r.outstanding.map Submission.message ++ x.2.toList.map some

/-- A submission on its own: nothing without the claim, else the message of `submitMessage`. -/
theorem alone_submission (env : Env) (henv : env.queued = true) (command : UInt8)
    (complete : Completion) (r : Radio) :
    ∃ r', alone env 12 (r, submission command complete) = (r', []) ∧
      Does r r' (if r.dev.spiPending then (r.dev, none)
        else (submitMessage command complete { r.dev with spiPending := true }).map id some) := by
  cases hp : r.dev.spiPending with
  | true => exact ⟨r, by simp [alone, submission, Stmt.exec, hp], ⟨rfl, by simp⟩⟩
  | false =>
    refine ⟨_, by simp [alone, submission, Stmt.exec, hp, henv]; rfl, ?_⟩
    exact ⟨by simp [SetUp.apply, submitMessage],
      by simp [SetUp.apply, submitMessage, Radio.handed, Submission.message]⟩

/-- **`nrf51822_read_irq` on its own.** -/
theorem alone_readIrq (env : Env) (henv : env.queued = true) (r : Radio) :
    ∃ r', alone env 12 (r, readIrq) = (r', []) ∧ Does r r' (nrf51822ReadIrq r.dev) := by
  obtain ⟨r', halone, hdoes⟩ := alone_submission env henv bcpCommandReadIrq .readIrqDone r
  refine ⟨r', halone, ?_⟩
  unfold nrf51822ReadIrq
  exact hdoes

/-- **`nrf51822_issue_simple_command` on its own.** -/
theorem alone_issueSimpleCommand (env : Env) (henv : env.queued = true) (command : UInt8)
    (r : Radio) :
    ∃ r', alone env 12 (r, issueSimpleCommand command) = (r', []) ∧
      Does r r' (nrf51822IssueSimpleCommand command r.dev).2 := by
  obtain ⟨r', halone, hdoes⟩ :=
    alone_submission env henv command .issueSimpleCommandDone r
  refine ⟨r', halone, ?_⟩
  unfold nrf51822IssueSimpleCommand
  split
  · next hp =>
    rw [if_pos hp] at hdoes
    exact hdoes
  · next hp =>
    rw [if_neg hp] at hdoes
    exact hdoes

/-- **A callback on its own**, up to a low interrupt line: it decodes and releases the buffer. -/
theorem alone_done (env : Env) (henv : env.line = false) (c : Completion) (n : ℕ) (r : Radio) :
    alone env 8 (r, c.stmts n) = ({ r with dev := clearSpiPending (c.done r.dev).1 }, []) := by
  have hstmts : c.stmts n = [.decode n .noData, .clearPending, .checkIrq] := by cases c <;> rfl
  rw [hstmts]
  by_cases hno : NoData r.dev.spiDataBuffer
  · rw [done_of_noData hno]
    simp [alone, Stmt.exec, Decode.next, hno, henv, clearSpiPending]
  · by_cases hfirst : r.dev.spiDataBuffer 0 = 0
    · rw [done_of_eq_zero hfirst hno]
      simp [alone, Stmt.exec, Decode.next, hno, hfirst, henv, clearSpiPending, copyToUser]
    · rw [done_of_ne_zero hfirst]
      simp [alone, Stmt.exec, Decode.next, hno, hfirst, henv, clearSpiPending, copyToUser]

end Gap.Bcp
