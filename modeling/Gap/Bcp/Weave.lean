import Gap.Bcp.Exclusive
import Gap.Bcp.Transit

namespace Gap.Bcp

open Claim

/-!
# The link, statement by statement

In `link` a callback of the driver is three steps, and a read or a command is one.  Here the
driver's paths are interrupted after every statement, by the firmware, by the SPI core and by each
other, and user space reads meanwhile.

* `weave` — the firmware, and the driver's threads taking turns.
* `Thread` — what a thread can have to go, and what it knows of the radio.
* `Turn`, `turn_of_exec` — what one statement does.
* `Sound` — the invariant of the threads together: the claim is exclusive and what they know is so.
-/

/-! ### The woven system -/

/-- The firmware and the threads of the driver, and what is pending between them. -/
structure Weave where
  fw : Firmware
  /-- A rising edge is latched and its interrupt handler not entered yet. -/
  edge : Bool
  xferDone : ℕ
  drv : Running

/-- The line is low, and the driver has no threads. -/
def Weave.init : Weave := ⟨Firmware.init, false, 0, ⟨Radio.init, []⟩⟩

/-- The firmware's handlers run to their end; a path of the driver is entered, or thread `k` makes
    its next statement; the SPI core is at work. -/
inductive WeaveInput
  | advertisement (e : Event)
  | firmwareXferDone
  | interrupt
  | ioctl (command : UInt8)
  | read
  | resume (k : ℕ) (signal copied : Bool)
  | clocks (miso : List UInt8)
  | transferEnds (miso : List UInt8)

/-- What the firmware shows, and what the threads do. -/
inductive WeaveObs
  | firmware (o : Obs)
  | driver (o : RadioObs)

/-- A firmware handler has run. -/
def Weave.setFirmware (s : Weave) (fw : Firmware) : Weave :=
  { s with fw, edge := s.edge || (!s.fw.interruptPin && fw.interruptPin) }

/-- A step of the driver's threads or of the SPI core. -/
def Weave.drive (s : Weave) (i : RadioInput) : Option (Weave × List WeaveObs) :=
  (s.drv.step i).map fun r => ({ s with drv := r.1 }, r.2.map .driver)

/-- One step of the woven system. -/
def Weave.step (s : Weave) : WeaveInput → Option (Weave × List WeaveObs)
  | .advertisement e =>
    let (_, fw, o) := interruptEventQueueAdd e s.fw
    some (s.setFirmware fw, o.map .firmware)
  | .firmwareXferDone =>
    if s.xferDone = 0 then none
    else
      let (fw, o) := spiSlaveEventHandle .xferDone s.fw
      some ({ s.setFirmware fw with xferDone := s.xferDone - 1 }, o.map .firmware)
  | .interrupt => if s.edge then { s with edge := false }.drive .interrupt else none
  | .ioctl command => s.drive (.ioctl command)
  | .read => s.drive .read
  -- the interrupt line is the firmware's, and `gap_spi_async` queues the message
  | .resume k signal copied => s.drive (.resume k ⟨s.fw.interruptPin, true, signal, copied⟩)
  | .clocks miso =>
    match s.drv.radio.outstanding with
    | [] => none
    | m :: _ => if miso.length ≤ m.handed.spiTsfer.len then s.drive (.clocks miso) else none
  | .transferEnds miso =>
    match s.drv.radio.outstanding with
    | [] => none
    | m :: _ =>
      if miso.length = m.handed.spiTsfer.len then
        Weave.drive { s with
          fw := spiReceive (s.drv.radio.dev.spiCommandBuffer.front m.handed.spiTsfer.len) s.fw
          xferDone := s.xferDone + 1 } (.transferEnds 0 miso)
      else none

/-- The woven system as a machine. -/
def weave : Machine Weave WeaveInput WeaveObs := ⟨Weave.init, Weave.step⟩

/-- The firmware's part of a trace. -/
def firmwareIn : List WeaveObs → List Obs :=
  List.filterMap fun | .firmware o => some o | .driver _ => none

/-- The driver's part. -/
def driverIn : List WeaveObs → List RadioObs :=
  List.filterMap fun | .firmware _ => none | .driver o => some o

/-- The frames that threads have stored in `buf_to_user`. -/
def framesIn : List RadioObs → List (List UInt8) :=
  List.filterMap fun | .stored _ frame => some frame | _ => none

/-! ### Threads -/

/-- The set-up of a transfer. -/
def setUps (command : UInt8) (complete : Completion) : List SetUp :=
  [.clearTsfers, .txBuf, .rxBuf, .len, .csChange, .command command, .messageInit,
    .complete complete, .context, .addTail]

/-- What is left of a submission past its claim. -/
def setUpAndHandOver (ws : List SetUp) : List Stmt := ws.map .setUp ++ [.async]

/-- The bytes a callback copies for the length byte `b`. -/
def Driver.frame (dev : Driver) (b : UInt8) : List UInt8 :=
  (dev.spiDataBuffer.front 128 ++ dev.afterSpiDataBuffer.front 128).take (b.toNat + 1)

/-- What a thread can have to go, with what it knows of the radio. -/
inductive Thread (r : Radio) : List Stmt → Prop
  | done : Thread r []
  | irq : Thread r readIrq
  | ioctl (command : UInt8) : Thread r (issueSimpleCommand command)
  /-- The transfer will have been set up. -/
  | preparing (ws : List SetUp) (hleft : ws.length ≤ 10)
      (hlen : (ws.foldl SetUp.apply r).dev.spiTsfer.len = spiTransferLen)
      (hcomplete : (ws.foldl SetUp.apply r).dev.spiMsgComplete ≠ none) :
      Thread r (setUpAndHandOver ws)
  | noData (n : ℕ) : Thread r [.decode n .noData, .clearPending, .checkIrq]
  | firstByte (n : ℕ) (hdata : ¬ NoData r.dev.spiDataBuffer) :
      Thread r [.decode n .firstByte, .clearPending, .wakeUp, .checkIrq]
  | lenAt (n : ℕ) (i : Fin 2)
      (hframe : r.dev.decoded = some (r.dev.frame (r.dev.spiDataBuffer (i.castLE (by decide))))) :
      Thread r [.decode n (.lenAt i), .clearPending, .wakeUp, .checkIrq]
  | copyToUser (n : ℕ) (b : UInt8) (hframe : r.dev.decoded = some (r.dev.frame b)) :
      Thread r [.copyToUser n b, .clearPending, .wakeUp, .checkIrq]
  | storeLen (n : ℕ) (b : UInt8) (frame : List UInt8) (hframe : r.dev.decoded = some frame) :
      Thread r [.storeLen n b frame, .clearPending, .wakeUp, .checkIrq]
  | stored (hframe : r.dev.decoded ≠ none) : Thread r [.clearPending, .wakeUp, .checkIrq]
  | nothing (hframe : r.dev.decoded = none) : Thread r [.clearPending, .checkIrq]
  | waking : Thread r [.wakeUp, .checkIrq]
  | checking : Thread r [.checkIrq]
  | waiting : Thread r Bcp.read
  | copyOut : Thread r [.copyOut]
  | takeLen (buf : List UInt8) : Thread r [.takeLen buf]
  | resetLen (buf : List UInt8) (userLen : ℕ) : Thread r [.resetLen buf userLen]

/-- The stage of the callback that a thread is: past its decoding it is one until it has sampled
    the line, and before its claim a read is one that has found the line high. -/
def stageOf : List Stmt → Option Stage
  | .claim :: rest =>
    if rest.any fun | .setUp (.complete .readIrqDone) => true | _ => false then
      some (.sampled true)
    else none
  | .decode _ _ :: _ => some .entered
  | .copyToUser _ _ :: _ => some .entered
  | .storeLen _ _ _ :: _ => some .entered
  | .clearPending :: _ => some .entered
  | .wakeUp :: _ => some .cleared
  | .checkIrq :: _ => some .cleared
  | _ => none

/-- The thread has claimed the SPI buffer and not yet handed its message over. -/
def preparing : List Stmt → Bool
  | .setUp _ :: _ => true
  | .async :: _ => true
  | _ => false

/-- The thread has stored a frame and not yet given up its claim. -/
def handing : List Stmt → Bool
  | .clearPending :: .wakeUp :: _ => true
  | _ => false

/-- The statements a thread has to go at most, up to the next test of the line; one that prepares
    a message, or may do so, counts it. -/
def stmtsLeft (t : List Stmt) : ℕ :=
  match t with
  | .claim :: rest => rest.length + 1 + if stageOf t = none then 70 else 0
  | .setUp _ :: rest => rest.length + 71
  | .async :: _ => 71
  | .decode _ .noData :: _ => 8
  | .decode _ .firstByte :: _ => 7
  | .decode _ (.lenAt _) :: _ => 6
  | .copyToUser _ _ :: _ => 5
  | .storeLen _ _ _ :: _ => 4
  | .waitEvent :: _ => 4
  | .copyOut :: _ => 3
  | .takeLen _ :: _ => 2
  | .resetLen _ _ :: _ => 1
  | t => t.length

/-! ### What the threads know -/

section
variable {r r' : Radio} {t : List Stmt}

/-- What a callback decodes, as bytes of the two buffers. -/
theorem decoded_eq_frame (dev : Driver) :
    dev.decoded = if NoData dev.spiDataBuffer then none
      else some (dev.frame (dev.spiDataBuffer (if dev.spiDataBuffer 0 = 0 then 1 else 0))) := by
  have hlen (b : UInt8) : b.toNat + 1 ≤ 256 := b.toNat_lt
  by_cases hno : NoData dev.spiDataBuffer
  · have hdone := done_of_noData hno .readIrqDone
    rw [Completion.done] at hdone
    rw [Driver.decoded, hdone, if_pos hno]
    rfl
  · rw [if_neg hno]
    by_cases hfirst : dev.spiDataBuffer 0 = 0
    · have hdone := done_of_eq_zero hfirst hno .readIrqDone
      rw [Completion.done] at hdone
      rw [Driver.decoded, hdone, if_pos rfl, published_copyToUser dev (hlen _), if_pos hfirst]
      rfl
    · have hdone := done_of_ne_zero hfirst .readIrqDone
      rw [Completion.done] at hdone
      rw [Driver.decoded, hdone, if_pos rfl, published_copyToUser dev (hlen _), if_neg hfirst]
      rfl

/-- The same SPI memory: what the core and the callbacks work from. -/
structure Unmoved (r r' : Radio) : Prop where
  same : Same r r'
  after : r'.dev.afterSpiDataBuffer = r.dev.afterSpiDataBuffer
  pending : r'.dev.spiPending = r.dev.spiPending

theorem Unmoved.refl (r : Radio) : Unmoved r r := ⟨⟨rfl, rfl, rfl⟩, rfl, rfl⟩

/-- What is decoded depends on the two data buffers. -/
theorem decoded_of_data {dev dev' : Driver} (hdata : dev'.spiDataBuffer = dev.spiDataBuffer)
    (hafter : dev'.afterSpiDataBuffer = dev.afterSpiDataBuffer) : dev'.decoded = dev.decoded := by
  rw [decoded_eq_frame, decoded_eq_frame]
  simp only [Driver.frame, hdata, hafter]

/-- A set-up statement does the same to what the SPI core works from. -/
theorem handed_apply (w : SetUp) (h : r'.handed = r.handed) :
    (w.apply r').handed = (w.apply r).handed := by
  obtain ⟨hcommand, htsfer, hcomplete, hpointers⟩ := Handed.mk.inj h
  cases w <;> simp only [SetUp.apply, Radio.handed, hcommand, htsfer, hcomplete, hpointers]

theorem handed_foldl (ws : List SetUp) (h : r'.handed = r.handed) :
    (ws.foldl SetUp.apply r').handed = (ws.foldl SetUp.apply r).handed := by
  induction ws generalizing r r' with
  | nil => exact h
  | cons w ws ih => exact ih (handed_apply w h)

/-- **Frame.**  What a thread knows stays true while the SPI memory is left alone. -/
theorem Thread.unmoved (h : Thread r t) (hsame : Unmoved r r') : Thread r' t := by
  have hdata := hsame.same.data
  have hdecoded := decoded_of_data hdata hsame.after
  have hframe (b : UInt8) : r'.dev.frame b = r.dev.frame b := by
    rw [Driver.frame, Driver.frame, hdata, hsame.after]
  cases h with
  | done => exact .done
  | irq => exact .irq
  | ioctl command => exact .ioctl command
  | preparing ws hleft hlen hcomplete =>
    obtain ⟨-, htsfer, hmsg, -⟩ := Handed.mk.inj (handed_foldl ws hsame.same.handed)
    exact .preparing ws hleft (htsfer ▸ hlen) (hmsg ▸ hcomplete)
  | noData n => exact .noData n
  | firstByte n hno => exact .firstByte n (hdata ▸ hno)
  | lenAt n i hi => exact .lenAt n i (by rw [hdecoded, hframe, hdata]; exact hi)
  | copyToUser n b hb => exact .copyToUser n b (by rw [hdecoded, hframe]; exact hb)
  | storeLen n b frame hf => exact .storeLen n b frame (hdecoded.trans hf)
  | stored hf => exact .stored (hdecoded ▸ hf)
  | nothing hf => exact .nothing (hdecoded.trans hf)
  | waking => exact .waking
  | checking => exact .checking
  | waiting => exact .waiting
  | copyOut => exact .copyOut
  | takeLen buf => exact .takeLen buf
  | resetLen buf userLen => exact .resetLen buf userLen

/-- What a thread that does not hold the claim knows is always true. -/
theorem Thread.of_not_holds (h : Thread r t) (hholds : holds Stmt.use t = false) (r' : Radio) :
    Thread r' t := by
  cases h with
  | done => exact .done
  | irq => exact .irq
  | ioctl command => exact .ioctl command
  | preparing ws => cases ws <;> cases hholds
  | waking => exact .waking
  | checking => exact .checking
  | waiting => exact .waiting
  | copyOut => exact .copyOut
  | takeLen buf => exact .takeLen buf
  | resetLen buf userLen => exact .resetLen buf userLen
  | _ => cases hholds

end

/-! ### What one statement does -/

/-- One statement of a thread: a claim fails or succeeds, a message is set up and handed over, a
    frame is stored, the claim is given up, the line is tested, or nothing happens that another
    thread or the SPI core could see. -/
inductive Turn (env : Env) (r : Radio) : List Stmt → Radio → List Stmt → List RadioObs → Prop
  | skip {t : List Stmt} (ht : t = readIrq ∨ ∃ command, t = issueSimpleCommand command)
      (hpending : r.dev.spiPending = true) : Turn env r t r [] []
  | claim {command : UInt8} {complete : Completion} {t : List Stmt}
      (ht : t = submission command complete)
      (hirq : complete = .readIrqDone → command = bcpCommandReadIrq)
      (hfree : r.dev.spiPending = false) :
      Turn env r t { r with dev.spiPending := true } (setUpAndHandOver (setUps command complete)) []
  | prepare (w : SetUp) (ws : List SetUp) :
      Turn env r (setUpAndHandOver (w :: ws)) (w.apply r) (setUpAndHandOver ws) [.wrote]
  | handOver : Turn env r (setUpAndHandOver [])
      { r with
        submitted := r.submitted + 1
        outstanding := r.outstanding ++ [⟨r.submitted + 1, r.handed⟩] } []
      [.submitted (r.submitted + 1)]
  | store (n : ℕ) (b : UInt8) (frame : List UInt8) (hframe : r.dev.decoded = some frame) :
      Turn env r [.storeLen n b frame, .clearPending, .wakeUp, .checkIrq]
        { r with dev.bufToUserLen := b.toNat + 1 } [.clearPending, .wakeUp, .checkIrq]
        [.stored n frame]
  | clear {t : List Stmt} (ht : t = [.wakeUp, .checkIrq] ∨ t = [.checkIrq])
      (hframe : handing (.clearPending :: t) = r.dev.decoded.isSome) :
      Turn env r (.clearPending :: t) { r with dev.spiPending := false } t []
  | check : Turn env r [.checkIrq] r (if env.line then readIrq else []) []
  | quiet {t t' : List Stmt} {r' : Radio} {e : List RadioObs} (hsame : Unmoved r r')
      (hstage : stageOf t' = stageOf t) (hprep : preparing t = false ∧ preparing t' = false)
      (hhand : handing t = false ∧ handing t' = false) (hleft : stmtsLeft t' + 1 ≤ stmtsLeft t)
      (hframes : framesIn e = []) : Turn env r t r' t' e

/-- A submission sets its transfer up. -/
theorem thread_setUps (r : Radio) (command : UInt8) (complete : Completion) :
    Thread r (setUpAndHandOver (setUps command complete)) := by
  refine .preparing _ (Nat.le_refl 10) ?_ ?_
  · simp [setUps, SetUp.apply]
  · simp [setUps, SetUp.apply]

/-- **Inversion.**  What a statement does, and what its thread knows then. -/
theorem turn_of_exec {env : Env} (henv : env.queued = true) {r : Radio} {stmt : Stmt}
    {rest : List Stmt} (ht : Thread r (stmt :: rest)) {x : Radio × List Stmt × List RadioObs}
    (hx : stmt.exec env rest r = some x) :
    Thread x.1 x.2.1 ∧ Turn env r (stmt :: rest) x.1 x.2.1 x.2.2 := by
  -- the frame for user space is nothing to the SPI core
  have hstill (bufToUser : Buf 256) (bufToUserLen : ℕ) :
      Unmoved r { r with dev := { r.dev with bufToUser, bufToUserLen } } :=
    ⟨⟨rfl, rfl, rfl⟩, rfl, rfl⟩
  have hdecoded (bufToUser : Buf 256) (bufToUserLen : ℕ) :
      ({ r.dev with bufToUser, bufToUserLen } : Driver).decoded = r.dev.decoded :=
    decoded_of_data rfl rfl
  generalize hthread : stmt :: rest = t at ht
  cases ht with
  | done => cases hthread
  | irq =>
    obtain ⟨rfl, rfl⟩ := List.cons.inj hthread
    simp only [Stmt.exec] at hx
    split at hx
    · next hpending =>
      obtain rfl := Option.some.inj hx
      exact ⟨.done, .skip (.inl rfl) hpending⟩
    · next hfree =>
      obtain rfl := Option.some.inj hx
      exact ⟨thread_setUps _ _ .readIrqDone,
        .claim rfl (fun _ => rfl) (Bool.eq_false_of_not_eq_true hfree)⟩
  | ioctl command =>
    obtain ⟨rfl, rfl⟩ := List.cons.inj hthread
    simp only [Stmt.exec] at hx
    split at hx
    · next hpending =>
      obtain rfl := Option.some.inj hx
      exact ⟨.done, .skip (.inr ⟨command, rfl⟩) hpending⟩
    · next hfree =>
      obtain rfl := Option.some.inj hx
      exact ⟨thread_setUps _ _ .issueSimpleCommandDone,
        .claim rfl (fun h => by cases h) (Bool.eq_false_of_not_eq_true hfree)⟩
  | preparing ws hleft hlen hcomplete =>
    cases ws with
    | nil =>
      obtain ⟨rfl, rfl⟩ := List.cons.inj hthread
      simp only [Stmt.exec, henv, if_true] at hx
      obtain rfl := Option.some.inj hx
      exact ⟨.done, .handOver⟩
    | cons w ws =>
      obtain ⟨rfl, rfl⟩ := List.cons.inj hthread
      obtain rfl := Option.some.inj hx
      exact ⟨.preparing ws (Nat.le_of_succ_le hleft) hlen hcomplete, .prepare w ws⟩
  | noData n =>
    obtain ⟨rfl, rfl⟩ := List.cons.inj hthread
    obtain rfl := Option.some.inj hx
    simp only [Decode.next]
    split
    · next hno =>
      refine ⟨.nothing ?_, .quiet (.refl r) rfl ⟨rfl, rfl⟩ ⟨rfl, rfl⟩ (by simp [stmtsLeft]) rfl⟩
      rw [decoded_eq_frame, if_pos hno]
    · next hno =>
      exact ⟨.firstByte n hno,
        .quiet (.refl r) rfl ⟨rfl, rfl⟩ ⟨rfl, rfl⟩ (by simp [stmtsLeft]) rfl⟩
  | firstByte n hno =>
    obtain ⟨rfl, rfl⟩ := List.cons.inj hthread
    obtain rfl := Option.some.inj hx
    refine ⟨.lenAt n _ ?_, .quiet (.refl r) rfl ⟨rfl, rfl⟩ ⟨rfl, rfl⟩ (Nat.le_refl 7) rfl⟩
    rw [decoded_eq_frame, if_neg hno]
    split <;> rfl
  | lenAt n i hi =>
    obtain ⟨rfl, rfl⟩ := List.cons.inj hthread
    obtain rfl := Option.some.inj hx
    exact ⟨.copyToUser n _ hi, .quiet (.refl r) rfl ⟨rfl, rfl⟩ ⟨rfl, rfl⟩ (Nat.le_refl 6) rfl⟩
  | copyToUser n b hb =>
    obtain ⟨rfl, rfl⟩ := List.cons.inj hthread
    obtain rfl := Option.some.inj hx
    exact ⟨.storeLen n b _ ((hdecoded _ _).trans hb),
      .quiet (hstill _ _) rfl ⟨rfl, rfl⟩ ⟨rfl, rfl⟩ (by simp [stmtsLeft]) rfl⟩
  | storeLen n b frame hf =>
    obtain ⟨rfl, rfl⟩ := List.cons.inj hthread
    obtain rfl := Option.some.inj hx
    refine ⟨.stored fun hnone => ?_, .store n b frame hf⟩
    rw [(hdecoded _ _).symm.trans hnone] at hf
    cases hf
  | stored hf =>
    obtain ⟨rfl, rfl⟩ := List.cons.inj hthread
    obtain rfl := Option.some.inj hx
    exact ⟨.waking, .clear (.inl rfl) (Option.isSome_iff_ne_none.mpr hf).symm⟩
  | nothing hf =>
    obtain ⟨rfl, rfl⟩ := List.cons.inj hthread
    obtain rfl := Option.some.inj hx
    exact ⟨.checking, .clear (.inr rfl) (by rw [hf]; rfl)⟩
  | waking =>
    obtain ⟨rfl, rfl⟩ := List.cons.inj hthread
    obtain rfl := Option.some.inj hx
    exact ⟨.checking, .quiet (.refl r) rfl ⟨rfl, rfl⟩ ⟨rfl, rfl⟩ (by simp [stmtsLeft]) rfl⟩
  | checking =>
    obtain ⟨rfl, rfl⟩ := List.cons.inj hthread
    obtain rfl := Option.some.inj hx
    refine ⟨?_, .check⟩
    cases env.line with
    | true => exact .irq
    | false => exact .done
  | waiting =>
    obtain ⟨rfl, rfl⟩ := List.cons.inj hthread
    obtain ⟨-, hx⟩ := Option.ite_none_right_eq_some.mp hx
    obtain rfl := Option.some.inj hx
    exact ⟨.copyOut, .quiet (.refl r) rfl ⟨rfl, rfl⟩ ⟨rfl, rfl⟩ (Nat.le_refl _) rfl⟩
  | copyOut =>
    obtain ⟨rfl, rfl⟩ := List.cons.inj hthread
    simp only [Stmt.exec] at hx
    split at hx
    · obtain rfl := Option.some.inj hx
      exact ⟨.takeLen _, .quiet (.refl r) rfl ⟨rfl, rfl⟩ ⟨rfl, rfl⟩ (by simp [stmtsLeft]) rfl⟩
    · obtain rfl := Option.some.inj hx
      exact ⟨.done, .quiet (.refl r) rfl ⟨rfl, rfl⟩ ⟨rfl, rfl⟩ (by simp [stmtsLeft]) rfl⟩
  | takeLen buf =>
    obtain ⟨rfl, rfl⟩ := List.cons.inj hthread
    obtain rfl := Option.some.inj hx
    exact ⟨.resetLen _ _, .quiet (.refl r) rfl ⟨rfl, rfl⟩ ⟨rfl, rfl⟩ (by simp [stmtsLeft]) rfl⟩
  | resetLen buf userLen =>
    obtain ⟨rfl, rfl⟩ := List.cons.inj hthread
    obtain rfl := Option.some.inj hx
    exact ⟨.done, .quiet (hstill _ _) rfl ⟨rfl, rfl⟩ ⟨rfl, rfl⟩ (by simp [stmtsLeft]) rfl⟩

/-! ### The threads together -/

/-- The claim is exclusive, every thread is one of the paths, and a message at the SPI core has been
    set up. -/
structure Sound (s : Running) (o : List RadioObs) : Prop where
  exclusive : Exclusive s o
  threads : ∀ t ∈ s.threads, Thread s.radio t
  sized : s.radio.outstanding ≠ [] →
    s.radio.dev.spiTsfer.len = spiTransferLen ∧ s.radio.dev.spiMsgComplete ≠ none

theorem sound_init : Sound radio.init [] where
  exclusive := exclusive_init
  threads := by simp [radio]
  sized h := absurd rfl h

section
variable {s : Running} {o : List RadioObs} {pre post : List (List Stmt)} {t t' : List Stmt}
  {env : Env} {r' : Radio} {e : List RadioObs}

/-- Nobody has claimed a free SPI buffer. -/
theorem Exclusive.of_free (h : Exclusive s o) (hfree : s.radio.dev.spiPending = false) :
    s.radio.outstanding = [] ∧ ∀ u ∈ s.threads, holds Stmt.use u = false := by
  have hclaims := h.claims
  rw [hfree, Bool.toNat_false] at hclaims
  exact ⟨List.eq_nil_of_length_eq_zero (by omega),
    fun u hu => holds_eq_false_of_holders (by omega) hu⟩

/-- **A statement and the others.**  It leaves the SPI memory alone, or nothing is at the SPI core
    and no other thread holds the claim. -/
theorem Exclusive.others (h : Exclusive s o) (hthreads : s.threads = pre ++ t :: post)
    (hturn : Turn env s.radio t r' t' e) :
    Unmoved s.radio r' ∨
      (s.radio.outstanding = [] ∧ ∀ u ∈ pre ++ post, holds Stmt.use u = false) := by
  cases hturn with
  | skip ht hpending => exact .inl (.refl _)
  | claim ht hirq hfree =>
    obtain ⟨hnil, hnone⟩ := h.of_free hfree
    refine .inr ⟨hnil, fun u hu => hnone u ?_⟩
    rw [hthreads]
    rcases List.mem_append.mp hu with hu | hu
    · exact List.mem_append_left _ hu
    · exact List.mem_append_right _ (List.mem_cons_of_mem _ hu)
  | prepare w ws => exact .inr (h.of_holds hthreads (holds_of_needs rfl))
  | handOver => exact .inr (h.of_holds hthreads (holds_of_yields rfl))
  | store n b frame hframe => exact .inl ⟨⟨rfl, rfl, rfl⟩, rfl, rfl⟩
  | clear ht hframe => exact .inr (h.of_holds hthreads (holds_of_yields rfl))
  | check => exact .inl (.refl _)
  | quiet hsame => exact .inl hsame

/-- A path is entered. -/
theorem Sound.start (h : Sound s o) (ht : Thread s.radio t) (hpath : Path t)
    (hholds : holds Stmt.use t = false) (hreads : reads t = none) :
    Sound { s with threads := s.threads ++ [t] } (o ++ []) := by
  refine ⟨exclusive_start h.exclusive hpath hholds hreads, ?_, h.sized⟩
  exact forall_mem_middle.mpr ⟨ht, by simpa using h.threads⟩

/-- A statement is made. -/
theorem Sound.resume (h : Sound s o) {k : ℕ} {stmt : Stmt} {rest : List Stmt}
    (hk : s.threads[k]? = some (stmt :: rest)) {x : Radio × List Stmt × List RadioObs}
    (henv : env.queued = true) (hx : stmt.exec env rest s.radio = some x) :
    Sound ⟨x.1, s.threads.set k x.2.1⟩ (o ++ x.2.2) := by
  obtain ⟨pre, post, hthreads, hset, -⟩ := split_of_getElem? hk
  have hknown := h.threads
  rw [hthreads] at hknown
  obtain ⟨hthread, hothers⟩ := forall_mem_middle.mp hknown
  obtain ⟨hthread', hturn⟩ := turn_of_exec henv hthread hx
  refine ⟨exclusive_resume h.exclusive hk hx, ?_, ?_⟩
  · rw [hset]
    refine forall_mem_middle.mpr ⟨hthread', fun u hu => ?_⟩
    rcases h.exclusive.others hthreads hturn with hsame | ⟨-, hnone⟩
    · exact (hothers u hu).unmoved hsame
    · exact (hothers u hu).of_not_holds (hnone u hu) _
  · intro hout
    rcases h.exclusive.others hthreads hturn with hsame | ⟨hnil, -⟩
    · obtain ⟨-, htsfer, hcomplete, -⟩ := Handed.mk.inj hsame.same.handed
      rw [htsfer, hcomplete]
      exact h.sized (by rwa [hsame.same.outstanding] at hout)
    · -- the message that is outstanding now has just been handed over
      generalize x.1 = r₁, x.2.1 = t₁, x.2.2 = e₁ at hturn hout ⊢
      generalize hstmts : stmt :: rest = t₀ at hturn hthread
      cases hturn with
      | skip ht hpending => exact absurd hnil hout
      | claim ht hirq hfree => exact absurd hnil hout
      | prepare w ws => exact absurd (by cases w <;> exact hnil) hout
      | handOver =>
        generalize hws : setUpAndHandOver [] = t₂ at hthread
        cases hthread with
        | preparing ws hleft hlen hcomplete =>
          cases ws with
          | nil => exact ⟨hlen, hcomplete⟩
          | cons w ws => cases hws
        | _ => cases hws
      | store n b frame hframe => exact absurd hnil hout
      | clear ht hframe => exact absurd hnil hout
      | check => exact absurd hnil hout
      | quiet hsame => exact absurd (hsame.same.outstanding.trans hnil) hout

/-- Bytes come in. -/
theorem Sound.clocks (h : Sound s o) (hout : s.radio.outstanding ≠ []) (miso : List UInt8) :
    Sound { s with radio.dev := s.radio.dev.receive miso } (o ++ []) := by
  refine ⟨exclusive_clocks h.exclusive hout miso, fun u hu => ?_, h.sized⟩
  obtain ⟨m, ms, hm⟩ := List.exists_cons_of_ne_nil hout
  obtain ⟨-, -, -, hnone⟩ := h.exclusive.of_outstanding (j := 0) (m := m) (by simp [hm])
  exact (h.threads u hu).of_not_holds (hnone u hu) _

/-- A transfer ends, and its callback is entered. -/
theorem Sound.transferEnds (h : Sound s o) {m : Submission} {ms : List Submission}
    (hout : s.radio.outstanding = m :: ms) (miso : List UInt8) :
    ms = [] ∧ m.handed.spiTsfer.len = spiTransferLen ∧
      s.radio.callback m.number = [.decode m.number .noData, .clearPending, .checkIrq] ∧
      (∀ u ∈ s.threads, holds Stmt.use u = false) ∧
      Sound
        { s with
          radio := { s.radio with
            dev := s.radio.dev.receive miso, outstanding := [] }
          threads := s.threads ++ [[.decode m.number .noData, .clearPending, .checkIrq]] }
        (o ++ [RadioObs.completed m.number (s.radio.dev.receive miso).spiDataBuffer]) := by
  have hj : s.radio.outstanding[0]? = some m := by rw [hout]; rfl
  obtain ⟨hone, -, -, hnone⟩ := h.exclusive.of_outstanding hj
  have hms : ms = [] := by
    rw [hout] at hone
    exact (List.cons.inj hone).2
  obtain ⟨hlen, hcomplete⟩ := h.sized (by rw [hout]; exact List.cons_ne_nil _ _)
  have hcallback : s.radio.callback m.number
      = [.decode m.number .noData, .clearPending, .checkIrq] := by
    unfold Radio.callback
    split
    · next hc => exact absurd hc hcomplete
    · next c _ => cases c <;> rfl
  have hexclusive := exclusive_transferEnds h.exclusive hj miso
  have herase : s.radio.outstanding.eraseIdx 0 = [] := by rw [hone]; rfl
  rw [hcallback, herase] at hexclusive
  refine ⟨hms, ?_, hcallback, hnone, hexclusive, ?_, fun hne => absurd rfl hne⟩
  · rw [(h.exclusive.handed m (by rw [hout]; exact List.mem_cons_self)).1]
    exact hlen
  · refine forall_mem_middle.mpr ⟨.noData _, fun u hu => ?_⟩
    rw [List.append_nil] at hu
    exact (h.threads u hu).of_not_holds (hnone u hu) _

end

end Gap.Bcp
