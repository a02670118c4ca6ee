import Gap.Bcp.Idle

namespace Gap.Bcp

open Outbox

/-!
# Commands against the firmware's switch

The driver's `bcp.h` declares three commands; the firmware carries its own copy of the list.
What they have to agree on is when advertisement reports reach the event queue.

* `BcpCommand` — the driver's list, `onBleEvt` — the firmware's use of the switch.
* `sniffing` — commands, each one transfer, interrupts and reports in any order.
* `ReportsAgree` — reports are offered to the queue from a `SNIFF_ADVERTISEMENTS` on until the
  next `SNIFF_ADVERTISEMENTS_STOP`.
* `switched` — what a transfer does to the switch: only one of the two commands is known.
* `reports_agree` — the runs after which driver and firmware agree.
-/

/-! ### The two lists of commands -/

/-- The commands of the driver's `bcp.h`. -/
inductive BcpCommand
  | readIrq
  | sniffAdvertisements
  | sniffAdvertisementsStop
  deriving DecidableEq

/-- The command byte: `BCP_COMMAND_READ_IRQ`, `BCP_COMMAND_SNIFF_ADVERTISEMENTS`,
    `BCP_COMMAND_SNIFF_ADVERTISEMENTS_STOP`. -/
def BcpCommand.byte : BcpCommand → UInt8
  | .readIrq => bcpCommandReadIrq
  | .sniffAdvertisements => 2
  | .sniffAdvertisementsStop => 3

/-- `BCP_RSP_ADVERTISEMENT`. -/
def bcpRspAdvertisement : UInt8 := 1

/-- `ble_gap_evt_adv_report_t`: the bytes of the structure, whose last 31 are the data, and its
    5-bit field `dlen`. -/
structure AdvReport where
  raw : Buf 40
  dlen : Fin 32

/-- What `on_ble_evt` queues of a report: `dlen + 8` bytes from its start. -/
def AdvReport.event (r : AdvReport) : Event where
  interruptEvent := bcpRspAdvertisement
  data := r.raw.front (r.dlen + 8)
  data_lt := by simp; omega

/-- `on_ble_evt` on `BLE_GAP_EVT_ADV_REPORT`. -/
def onBleEvt (r : AdvReport) (s : Firmware) : Firmware × List Obs :=
  if s.bcpIrqAdvertisements then (interruptEventQueueAdd r.event s).2
  else (s, [])

/-- `on_ble_evt` called `interrupt_event_queue_add` on the report. -/
def Offered (r : AdvReport) (o : List Obs) : Prop := .accepted r.event ∈ o ∨ .refused r.event ∈ o

/-! ### Histories of commands and reports -/

/-- A report arrives, user space issues a command, or the firmware's interrupt is handled. -/
inductive SniffInput
  | report (r : AdvReport)
  | command (c : BcpCommand)
  | interrupt

/-- A report was handled, a command has completed its transfer. -/
inductive SniffObs
  | reported (r : AdvReport) (o : List Obs)
  | completed (c : BcpCommand)

/-- A command from its claim to the end of its transfer; nothing completes without the claim. -/
def Host.complete (s : Host) (c : BcpCommand) (r : Driver × Option SpiMessage) :
    Host × List SniffObs :=
  ((s.transfer r).1, if r.2.isSome then [.completed c] else [])

/-- One step of driver and firmware. -/
def Host.sniff (s : Host) : SniffInput → Host × List SniffObs
  | .report r => ({ s with fw := (onBleEvt r s.fw).1 }, [.reported r (onBleEvt r s.fw).2])
  | .command c => s.complete c (nrf51822IssueSimpleCommand c.byte s.drv).2
  | .interrupt => s.complete .readIrq (nrf51822InterruptHandler s.drv)

/-- Commands and reports as a machine. -/
def sniffing : Machine Host SniffInput SniffObs :=
  ⟨⟨Firmware.init, Driver.init⟩, fun s i => some (s.sniff i)⟩

/-- The `SNIFF` or `STOP` command an output completes. -/
def SniffObs.switch : SniffObs → Option BcpCommand
  | .completed .sniffAdvertisements => some .sniffAdvertisements
  | .completed .sniffAdvertisementsStop => some .sniffAdvertisementsStop
  | _ => none

/-- The `SNIFF` and `STOP` commands completed so far. -/
def switches (o : List SniffObs) : List BcpCommand := o.filterMap SniffObs.switch

/-- The last of them. -/
def lastSwitch (o : List SniffObs) : Option BcpCommand := (switches o).getLast?

/-- A report is offered exactly while the last of the two commands is `SNIFF_ADVERTISEMENTS`. -/
def Agrees (before : List SniffObs) : SniffObs → Prop
  | .reported r o => Offered r o ↔ lastSwitch before = some .sniffAdvertisements
  | .completed _ => True

/-- Driver and firmware agree on every report of the history. -/
def ReportsAgree (o : List SniffObs) : Prop := AtEach Agrees o

/-- No report arrives while a `STOP` is the last of the two commands and some `SNIFF` came
    before it. -/
def NotStopped (_ : Host) (o : List SniffObs) : SniffInput → Prop
  | .report _ => ¬ (lastSwitch o = some .sniffAdvertisementsStop ∧
      .sniffAdvertisements ∈ switches o)
  | .command _ => True
  | .interrupt => True

instance (s : Host) (o : List SniffObs) : (i : SniffInput) → Decidable (NotStopped s o i)
  | .report _ => inferInstanceAs (Decidable (¬ _))
  | .command _ => isTrue trivial
  | .interrupt => isTrue trivial

/-! ### The switch -/

theorem repopulate_bcpIrqAdvertisements (s : Firmware) :
    (repopulate s).2.bcpIrqAdvertisements = s.bcpIrqAdvertisements := by
  simp only [repopulate]
  split <;> rfl

theorem spiSlaveNotify_bcpIrqAdvertisements (s : Firmware) :
    (spiSlaveNotify s).1.bcpIrqAdvertisements = s.bcpIrqAdvertisements := by
  cases hf : s.bufferFull with
  | true => rw [spiSlaveNotify_of_full hf]
  | false =>
    have hkeep := repopulate_bcpIrqAdvertisements s
    rcases hrep : repopulate s with ⟨dataLen, s₁⟩
    rw [hrep] at hkeep
    by_cases hpos : dataLen > 0 <;> simpa [spiSlaveNotify, hf, hrep, hpos] using hkeep

/-- A report does not touch the switch. -/
theorem onBleEvt_bcpIrqAdvertisements (r : AdvReport) (s : Firmware) :
    (onBleEvt r s).1.bcpIrqAdvertisements = s.bcpIrqAdvertisements := by
  unfold onBleEvt
  split
  · by_cases hfull : s.eventQueue.itemsInQueue = interruptEventQueueLen
    · rw [interruptEventQueueAdd_of_full hfull]
    · rw [interruptEventQueueAdd_of_ne hfull]
      exact spiSlaveNotify_bcpIrqAdvertisements { s with eventQueue := s.eventQueue.put r.event }
  · rfl

/-- Whether the report is offered is read off the switch. -/
theorem offered_onBleEvt (r : AdvReport) (s : Firmware) :
    Offered r (onBleEvt r s).2 ↔ s.bcpIrqAdvertisements = true := by
  unfold onBleEvt
  split
  · next hon =>
    -- the queue accepts the event or refuses it
    refine iff_of_true ?_ hon
    rcases interruptEventQueueAdd_cases r.event s with hadd | ⟨hadd, -⟩ | ⟨-, tx, hadd, -⟩
    · exact .inr (by simp [hadd])
    · exact .inl (by simp [hadd])
    · exact .inl (by simp [hadd])
  · next hoff => exact iff_of_false (by simp [Offered]) hoff

/-- The command byte alone decides what the `XFER_DONE` handler does to the switch. -/
theorem xferDone_bcpIrqAdvertisements (s : Firmware) :
    (spiSlaveEventHandle .xferDone s).1.bcpIrqAdvertisements =
      (s.bcpIrqAdvertisements || s.spiRxBuf 0 == bcpCmdSniffAdvertisements) := by
  have hcommand : (runCommand s).bcpIrqAdvertisements =
      (s.bcpIrqAdvertisements || s.spiRxBuf 0 == bcpCmdSniffAdvertisements) := by
    simp only [runCommand]
    split
    · next h => simp [h, bcpCmdReadIrq, bcpCmdSniffAdvertisements]
    · split
      · next h => simp [h]
      · next h => simp [h]
  rw [← hcommand, ← repopulate_bcpIrqAdvertisements (runCommand s)]
  simp only [spiSlaveEventHandle]
  rcases repopulate (runCommand s) with ⟨dataLen, s₁⟩
  by_cases hpos : dataLen > 0 <;> simp [hpos]

/-- The end of a transfer gives the claim back. -/
theorem transfer_spiPending (s : Host) (drv : Driver) (msg : SpiMessage) :
    (s.transfer (drv, some msg)).1.drv.spiPending = false := rfl

/-- A transfer that gets the claim hands its command byte to the firmware. -/
theorem transfer_submit (s : Host) (command : UInt8) (complete : Completion) (dev : Driver) :
    (s.transfer ((submitMessage command complete dev).1,
        some (submitMessage command complete dev).2)).1.fw.bcpIrqAdvertisements =
      (s.fw.bcpIrqAdvertisements || command == bcpCmdSniffAdvertisements) := by
  have hlen : (submitMessage command complete dev).2.transfer.len = spiTransferLen := rfl
  rw [(s.transfer_some (submitMessage command complete dev).1 hlen).1, Input.handle,
    xferDone_bcpIrqAdvertisements]
  rfl

/-- **What a step can do.**  A report is handled, or a command completes its transfer: the
    firmware's switch goes on with a `SNIFF` and is never turned off. -/
theorem sniff_cases (s : Host) (h : s.drv.spiPending = false) (i : SniffInput) :
    (∃ r, i = .report r) ∨ (∀ o, NotStopped s o i) ∧ ∃ c,
      (s.sniff i).2 = [.completed c] ∧ (s.sniff i).1.drv.spiPending = false ∧
        (s.sniff i).1.fw.bcpIrqAdvertisements =
          (s.fw.bcpIrqAdvertisements || c == .sniffAdvertisements) := by
  cases i with
  | report r => exact .inl ⟨r, rfl⟩
  | command c =>
    have hissue : (nrf51822IssueSimpleCommand c.byte s.drv).2 =
        ((submitMessage c.byte .issueSimpleCommandDone { s.drv with spiPending := true }).1,
          some (submitMessage c.byte .issueSimpleCommandDone
            { s.drv with spiPending := true }).2) := by
      simp [nrf51822IssueSimpleCommand, h]
    simp only [Host.sniff, Host.complete, hissue]
    refine .inr ⟨fun _ => trivial, c, rfl, transfer_spiPending s _ _, ?_⟩
    rw [transfer_submit]
    cases c <;> rfl
  | interrupt =>
    have hread : nrf51822InterruptHandler s.drv =
        ((submitMessage bcpCommandReadIrq .readIrqDone { s.drv with spiPending := true }).1,
          some (submitMessage bcpCommandReadIrq .readIrqDone
            { s.drv with spiPending := true }).2) := by
      simp [nrf51822InterruptHandler, nrf51822ReadIrq, h]
    simp only [Host.sniff, Host.complete, hread]
    refine .inr ⟨fun _ => trivial, .readIrq, rfl, transfer_spiPending s _ _, ?_⟩
    rw [transfer_submit]
    rfl

/-! ### Agreement -/

theorem switches_append (o e : List SniffObs) : switches (o ++ e) = switches o ++ switches e :=
  List.filterMap_append

/-- A report completes neither command. -/
theorem switches_reported (o : List SniffObs) (r : AdvReport) (obs : List Obs) :
    switches (o ++ [.reported r obs]) = switches o := by
  rw [switches_append]
  exact List.append_nil _

/-- The last switch is a `SNIFF`, unless there is none or it is a `STOP`. -/
theorem lastSwitch_cases (o : List SniffObs) :
    (lastSwitch o = none ∧ .sniffAdvertisements ∉ switches o) ∨
      (lastSwitch o = some .sniffAdvertisements ∧ .sniffAdvertisements ∈ switches o) ∨
      lastSwitch o = some .sniffAdvertisementsStop := by
  cases hlast : lastSwitch o with
  | none =>
    have hnil : switches o = [] := List.getLast?_eq_none_iff.mp hlast
    exact .inl ⟨rfl, by simp [hnil]⟩
  | some c =>
    have hmem : c ∈ switches o := List.mem_of_getLast? hlast
    -- outputs name only the two commands
    obtain ⟨x, -, hx⟩ := List.mem_filterMap.mp hmem
    cases c with
    | readIrq => cases x with
      | reported r obs => cases hx
      | completed c => cases c <;> cases hx
    | sniffAdvertisements => exact .inr (.inl ⟨rfl, hmem⟩)
    | sniffAdvertisementsStop => exact .inr (.inr rfl)

/-- Between two steps the claim is free, and the firmware's switch says whether a `SNIFF` was
    ever completed. -/
structure Latched (s : Host) (o : List SniffObs) : Prop where
  free : s.drv.spiPending = false
  switch : s.fw.bcpIrqAdvertisements = true ↔ .sniffAdvertisements ∈ switches o

theorem latched_init : Latched sniffing.init [] := ⟨rfl, by decide⟩

theorem latched_step {s : Host} {o : List SniffObs} (h : Latched s o) (i : SniffInput) :
    Latched (s.sniff i).1 (o ++ (s.sniff i).2) := by
  rcases sniff_cases s h.free i with ⟨r, rfl⟩ | ⟨-, c, ho, hfree, hswitch⟩
  · refine ⟨h.free, ?_⟩
    show (onBleEvt r s.fw).1.bcpIrqAdvertisements = true ↔
      _ ∈ switches (o ++ [.reported r (onBleEvt r s.fw).2])
    rw [onBleEvt_bcpIrqAdvertisements, switches_reported, h.switch]
  · refine ⟨hfree, ?_⟩
    rw [hswitch, ho, switches_append, List.mem_append, ← h.switch]
    cases c <;> simp [switches, SniffObs.switch]

/-- The law holds of a step exactly if the step meets the condition. -/
theorem reportsAgree_step {s : Host} {o : List SniffObs} (h : Latched s o) (i : SniffInput) :
    ReportsAgree (o ++ (s.sniff i).2) ↔ ReportsAgree o ∧ NotStopped s o i := by
  rcases sniff_cases s h.free i with ⟨r, rfl⟩ | ⟨hmet, c, ho, -, -⟩
  · rw [ReportsAgree, Host.sniff, atEach_concat]
    refine and_congr_right fun _ => ?_
    rw [Agrees, offered_onBleEvt, h.switch, NotStopped]
    rcases lastSwitch_cases o with ⟨hlast, hno⟩ | ⟨hlast, hyes⟩ | hlast
    · simp [hlast, hno]
    · simp [hlast, hyes]
    · simp [hlast]
  · rw [ReportsAgree, ho, atEach_concat]
    exact and_congr_right fun _ => iff_of_true trivial (hmet o)

/-- **Command agreement.**  After every run, the firmware has offered each report exactly when the
    last switch completed before it was `SNIFF_ADVERTISEMENTS` if and only if no report came
    after a `STOP` that followed a `SNIFF`. -/
theorem reports_agree (is : List SniffInput) (s : Host) (o : List SniffObs)
    (hrun : sniffing.run is = some (s, o)) : ReportsAgree o ↔ sniffing.Along NotStopped is := by
  refine Machine.iff_along (I := fun _ o => ReportsAgree o) (J := Latched)
    (atEach_nil _) latched_init ?_ ?_ is s o hrun
  · intro s o i s' e hlatched hs
    obtain ⟨rfl, rfl⟩ : (s.sniff i).1 = s' ∧ (s.sniff i).2 = e := Prod.mk.inj (Option.some.inj hs)
    exact latched_step hlatched i
  · intro s o i s' e hlatched hs
    obtain ⟨rfl, rfl⟩ : (s.sniff i).1 = s' ∧ (s.sniff i).2 = e := Prod.mk.inj (Option.some.inj hs)
    exact reportsAgree_step hlatched i

/-- A report without data. -/
def emptyReport : AdvReport := ⟨fun _ => 0, 0⟩

/-- Reports before and after a first `SNIFF`, which a `STOP` has not reached yet. -/
def sniffThenReport : List SniffInput :=
  [.report emptyReport, .command .sniffAdvertisementsStop, .report emptyReport,
    .command .sniffAdvertisements, .interrupt, .report emptyReport]

/-- `reports_agree` on that run. -/
theorem reports_agree_sniffThenReport :
    ∃ s o, sniffing.run sniffThenReport = some (s, o) ∧ o.length = 6 ∧ ReportsAgree o := by
  obtain ⟨s, o, hrun, hlen⟩ :
      ∃ s o, sniffing.run sniffThenReport = some (s, o) ∧ o.length = 6 :=
    sniffing.exists_run (by decide +kernel)
  exact ⟨s, o, hrun, hlen, (reports_agree sniffThenReport s o hrun).mpr
    (Machine.along_of_alongFrom (by decide +kernel))⟩

/-- A `STOP` after a `SNIFF`, and then a report: it is queued all the same. -/
theorem stop_ignored :
    ∃ s o, sniffing.run [.command .sniffAdvertisements, .command .sniffAdvertisementsStop,
        .report emptyReport] = some (s, o) ∧
      lastSwitch o = some .sniffAdvertisementsStop ∧ ¬ ReportsAgree o := by
  obtain ⟨s, o, hrun, hon, hlast⟩ :
      ∃ s o, sniffing.run [.command .sniffAdvertisements, .command .sniffAdvertisementsStop] =
        some (s, o) ∧ s.fw.bcpIrqAdvertisements = true ∧
          lastSwitch o = some .sniffAdvertisementsStop :=
    sniffing.exists_run (by decide +kernel)
  have hreport := (sniffing.run_concat_eq_some (i := .report emptyReport)).mpr
    ⟨s, o, _, hrun, rfl, rfl⟩
  simp only [List.cons_append, List.nil_append] at hreport
  refine ⟨_, o ++ [.reported emptyReport (onBleEvt emptyReport s.fw).2], hreport, ?_, ?_⟩
  · rw [lastSwitch, switches_reported]
    exact hlast
  · -- the switch is still on, so the report is offered
    intro hagree
    have hoffered := (atEach_concat.mp hagree).2.mp ((offered_onBleEvt emptyReport s.fw).mpr hon)
    rw [hlast] at hoffered
    cases hoffered

end Gap.Bcp
