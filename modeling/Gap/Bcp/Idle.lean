import Gap.Bcp.Frame

namespace Gap.Bcp

open Outbox

/-!
# Idle transfers

With nothing on offer, the firmware hands the SPI slave the transmit buffer as it is, so a
transfer made then clocks out the frame that was loaded last.

* `Silent` — the transmit buffers both callbacks take for "no data".
* `Host`, `host` — firmware and driver, each transfer one step.
* `Owes` — the events the firmware may still show, which no run of the handlers repeats.
* `idle_transfer` — when idle transfers are silent, and when no event is published twice.
-/

/-! ### Silent buffers -/

/-- Neither callback publishes anything from a transfer of `tx`. -/
def Silent (tx : Buf 64) : Prop :=
  ∀ (c : Completion) (dev : Driver), (c.done (dev.receive (tx.front spiTransferLen))).2 = false

/-- Only two leading zero bytes are silent. -/
theorem silent_iff (tx : Buf 64) : Silent tx ↔ tx 0 = 0 ∧ tx 1 = 0 := by
  -- the callbacks test the first two bytes of the transfer, which are those of the buffer
  have hbytes : ∀ dev : Driver, NoData (dev.receive (tx.front spiTransferLen)).spiDataBuffer
      ↔ tx 0 = 0 ∧ tx 1 = 0 := by
    intro dev
    have h0 : (dev.receive (tx.front spiTransferLen)).spiDataBuffer 0 = tx 0 :=
      receive_apply dev tx (by decide)
    have h1 : (dev.receive (tx.front spiTransferLen)).spiDataBuffer 1 = tx 1 :=
      receive_apply dev tx (by decide)
    rw [NoData, h0, h1]
  constructor
  · intro h
    have hdone := done_snd .readIrqDone (Driver.init.receive (tx.front spiTransferLen))
    rw [h .readIrqDone Driver.init] at hdone
    by_contra hne
    exact absurd (hdone.mpr fun hno => hne ((hbytes _).mp hno)) (by decide)
  · intro h c dev
    rw [done_of_noData ((hbytes dev).mpr h)]

/-- Nothing has been loaded so far, or the buffer loaded last starts with two zero bytes. -/
def Blank (o : List Obs) : Prop := ∀ tx ∈ (Out.loadedItems o).getLast?, tx 0 = 0 ∧ tx 1 = 0

instance (o : List Obs) : Decidable (Blank o) := Option.decidableForallMem _

/-! ### The transmit buffer keeps the last load -/

/-- `repopulate` without data leaves the transmit buffer alone. -/
theorem repopulate_spiTxBuf {s : Firmware} (h : ¬ (repopulate s).1 > 0) :
    (repopulate s).2.spiTxBuf = s.spiTxBuf := by
  cases hp : s.eventQueue.pending with
  | nil => rw [repopulate_of_empty hp]
  | cons item rest =>
    obtain ⟨q, -, -, hrep⟩ := repopulate_eq_of_cons hp
    rw [hrep] at h ⊢
    exact if_neg h

theorem spiSlaveNotify_spiTxBuf (s : Firmware) : (spiSlaveNotify s).1.spiTxBuf
    = (Out.loadedItems (spiSlaveNotify s).2).getLast?.getD s.spiTxBuf := by
  cases hf : s.bufferFull with
  | true => rw [spiSlaveNotify_of_full hf]; rfl
  | false =>
    have hkeep := @repopulate_spiTxBuf s
    rcases hrep : repopulate s with ⟨dataLen, s₁⟩
    rw [hrep] at hkeep
    by_cases hpos : dataLen > 0
    · simp [spiSlaveNotify, hf, hrep, hpos, Out.loadedItems]
    · simpa [spiSlaveNotify, hf, hrep, hpos, Out.loadedItems] using hkeep hpos

theorem xferDone_spiTxBuf (s : Firmware) : (spiSlaveEventHandle .xferDone s).1.spiTxBuf
    = (Out.loadedItems (spiSlaveEventHandle .xferDone s).2).getLast?.getD s.spiTxBuf := by
  have hkeep := @repopulate_spiTxBuf (runCommand s)
  have hcommand : (runCommand s).spiTxBuf = s.spiTxBuf := by rw [runCommand_eq]
  rw [hcommand] at hkeep
  simp only [spiSlaveEventHandle]
  rcases hrep : repopulate (runCommand s) with ⟨dataLen, s₁⟩
  rw [hrep] at hkeep
  by_cases hpos : dataLen > 0
  · simp [hpos, Out.loadedItems]
  · simpa [hpos, Out.loadedItems] using hkeep hpos

/-- A handler changes the transmit buffer only by loading it. -/
theorem handle_spiTxBuf (s : Firmware) (i : Input) : (i.handle s).1.spiTxBuf
    = (Out.loadedItems (i.handle s).2).getLast?.getD s.spiTxBuf := by
  cases i with
  | add e =>
    by_cases hfull : s.eventQueue.itemsInQueue = interruptEventQueueLen
    · rw [Input.handle, interruptEventQueueAdd_of_full hfull]; rfl
    · rw [Input.handle, interruptEventQueueAdd_of_ne hfull]
      exact spiSlaveNotify_spiTxBuf { s with eventQueue := s.eventQueue.put e }
  | xferDone mosi =>
    rw [Input.handle]
    exact xferDone_spiTxBuf (spiReceive mosi s)

/-- **Run lemma.**  The transmit buffer holds the last load, or zeros. -/
theorem spiTxBuf_of_run (is : List Input) (s : Firmware) (o : List Obs)
    (hrun : firmware.run is = some (s, o)) :
    s.spiTxBuf = (Out.loadedItems o).getLast?.getD fun _ => 0 := by
  refine Machine.run_induct
    (P := fun _ s o => s.spiTxBuf = (Out.loadedItems o).getLast?.getD fun _ => 0) rfl ?_ is s o hrun
  intro _ i s o s' e _ ih hs
  obtain ⟨rfl, rfl⟩ : (i.handle s).1 = s' ∧ (i.handle s).2 = e :=
    Prod.mk.inj (Option.some.inj hs)
  -- the last load is one of this step, or else the last one before it
  rw [handle_spiTxBuf, Out.loadedItems_append, List.getLast?_append, ih]
  cases (Out.loadedItems (i.handle s).2).getLast? <;> rfl

/-- After every run of the handlers, the transmit buffer is silent exactly when nothing has been
    loaded, or a frame of two leading zero bytes last. -/
theorem silent_iff_blank (is : List Input) (s : Firmware) (o : List Obs)
    (hrun : firmware.run is = some (s, o)) : Silent s.spiTxBuf ↔ Blank o := by
  rw [silent_iff, spiTxBuf_of_run is s o hrun, Blank]
  cases hlast : (Out.loadedItems o).getLast? with
  | none => simp
  | some tx => simp

/-! ### The events still to be shown -/

/-- The firmware may still show the events `offered`, in its transmit buffer, and then
    `waiting`, in its queue. -/
structure Owes (s : Firmware) (offered waiting : List Event) : Prop where
  head : s.eventQueue.HeadOk
  items : s.eventQueue.itemsInQueue ≤ interruptEventQueueLen
  offered : List.Forall₂ Carries s.onOffer.toList offered
  waiting : List.Forall₂ Holds s.eventQueue.pending waiting

/-- `repopulate` shows the first event waiting; one of length 0 it drops. -/
theorem owes_repopulate {s : Firmware} {offered waiting : List Event} (h : Owes s offered waiting) :
    ((repopulate s).1 > 0 ∧ ∃ e rest, waiting = e :: rest ∧
        Owes { (repopulate s).2 with bufferFull := true } [e] rest) ∨
      ¬ (repopulate s).1 > 0 ∧ ∃ rest, rest.Sublist waiting ∧
        Owes { (repopulate s).2 with bufferFull := false } [] rest := by
  have hwaiting := h.waiting
  have hitems := h.items
  rw [← EventQueue.length_pending] at hitems
  cases hp : s.eventQueue.pending with
  | nil =>
    rw [hp] at hwaiting
    rw [repopulate_of_empty hp]
    exact .inr ⟨by simp, [], List.nil_sublist _, h.head, h.items, .nil, by rw [hp]; exact .nil⟩
  | cons item rest =>
    rw [hp] at hwaiting hitems
    obtain ⟨e, waiting', hitem, hrest, rfl⟩ := List.forall₂_cons_left_iff.mp hwaiting
    obtain ⟨q, hq, hhead, hrep⟩ := repopulate_eq_of_cons hp
    have hle : q.itemsInQueue ≤ interruptEventQueueLen := by
      rw [← EventQueue.length_pending, hq]
      exact (Nat.le_succ _).trans hitems
    rw [← hq] at hrest
    rw [hrep]
    by_cases hpos : item.len > 0
    · refine .inl ⟨hpos, e, waiting', rfl, hhead h.head, hle, ?_, hrest⟩
      rw [if_pos hpos]
      exact .cons (carries_of_holds hitem s.spiTxBuf) .nil
    · exact .inr ⟨hpos, waiting', List.sublist_cons_self _ _, hhead h.head, hle, .nil, hrest⟩

/-- `spi_slave_notify` repeats no event: if the buffer is free, the first one waiting moves up. -/
theorem owes_notify {s : Firmware} {offered waiting : List Event} (h : Owes s offered waiting) :
    ∃ offered' waiting', Owes (spiSlaveNotify s).1 offered' waiting' ∧
      (offered' ++ waiting').Sublist (offered ++ waiting) := by
  cases hf : s.bufferFull with
  | true =>
    rw [spiSlaveNotify_of_full hf]
    exact ⟨offered, waiting, h, List.Sublist.refl _⟩
  | false =>
    -- nothing is on offer while the buffer is free
    have hoff : offered = [] := by
      have hnone := h.offered
      rw [Firmware.onOffer, if_neg (by simp [hf])] at hnone
      exact List.forall₂_nil_left_iff.mp hnone
    have hkeep := repopulate_bufferFull s
    have hcases := owes_repopulate h
    unfold spiSlaveNotify
    rw [hf] at hkeep ⊢
    generalize repopulate s = r at hkeep hcases ⊢
    obtain ⟨dataLen, s₁⟩ := r
    rw [hoff, List.nil_append]
    rcases hcases with ⟨hpos, e, rest, rfl, hO⟩ | ⟨hpos, rest, hsub, hO⟩
    · refine ⟨[e], rest, ?_, List.Sublist.refl _⟩
      simp only [hpos, if_true, Bool.not_false]
      exact ⟨hO.head, hO.items, hO.offered, hO.waiting⟩
    · refine ⟨[], rest, ?_, hsub⟩
      simp only [hpos, if_false, if_true, Bool.not_false]
      refine ⟨hO.head, hO.items, ?_, hO.waiting⟩
      rw [Firmware.onOffer, if_neg (ne_true_of_eq_false hkeep)]
      exact .nil

/-- **An arrival adds at most its own event.** -/
theorem owes_add {s : Firmware} {offered waiting : List Event} (h : Owes s offered waiting)
    (e : Event) :
    ∃ offered' waiting', Owes (interruptEventQueueAdd e s).2.1 offered' waiting' ∧
      (offered' ++ waiting').Sublist
        (offered ++ waiting ++ Out.acceptedItems (interruptEventQueueAdd e s).2.2) := by
  by_cases hfull : s.eventQueue.itemsInQueue = interruptEventQueueLen
  · rw [interruptEventQueueAdd_of_full hfull]
    exact ⟨offered, waiting, h, List.sublist_append_left _ _⟩
  · rw [interruptEventQueueAdd_of_ne hfull]
    have hlt : s.eventQueue.itemsInQueue < interruptEventQueueLen := h.items.lt_of_ne hfull
    obtain ⟨item, hitem, hpending⟩ := EventQueue.pending_put h.head hlt e
    have hput : Owes { s with eventQueue := s.eventQueue.put e } offered (waiting ++ [e]) := by
      refine ⟨EventQueue.put_headOk h.head e, Nat.succ_le_of_lt hlt, h.offered, ?_⟩
      show List.Forall₂ Holds (s.eventQueue.put e).pending (waiting ++ [e])
      rw [hpending]
      exact List.rel_append h.waiting (.cons hitem .nil)
    have hacc : Out.acceptedItems (.accepted e ::
        (spiSlaveNotify { s with eventQueue := s.eventQueue.put e }).2) = [e] := by
      rcases spiSlaveNotify_cases { s with eventQueue := s.eventQueue.put e } with
        ⟨ho, -⟩ | ⟨-, tx, ho, -⟩
      · rw [ho]; rfl
      · rw [ho]; rfl
    rw [hacc, List.append_assoc]
    exact owes_notify hput

/-- **A transfer gives up the event on offer.** -/
theorem owes_xferDone {s : Firmware} {offered waiting : List Event} (h : Owes s offered waiting) :
    ∃ offered' waiting', Owes (spiSlaveEventHandle .xferDone s).1 offered' waiting' ∧
      (offered' ++ waiting').Sublist waiting := by
  have hcommand : Owes (runCommand s) offered waiting := by
    rw [runCommand_eq]
    exact ⟨h.head, h.items, h.offered, h.waiting⟩
  simp only [spiSlaveEventHandle]
  have hcases := owes_repopulate hcommand
  generalize repopulate (runCommand s) = r at hcases ⊢
  rcases hcases with ⟨hpos, e, rest, rfl, hO⟩ | ⟨hpos, rest, hsub, hO⟩
  · rw [if_pos hpos]
    exact ⟨[e], rest, ⟨hO.head, hO.items, hO.offered, hO.waiting⟩, List.Sublist.refl _⟩
  · rw [if_neg hpos]
    exact ⟨[], rest, ⟨hO.head, hO.items, hO.offered, hO.waiting⟩, hsub⟩

/-! ### Firmware and driver, transfer by transfer -/

/-- The firmware and the driver between two transfers. -/
structure Host where
  fw : Firmware
  drv : Driver

/-- An event arrives, or the driver makes a transfer of either kind. -/
inductive HostInput
  | arrive (e : Event)
  | readIrq
  | command (command : UInt8)

/-- What the firmware shows, and the frames the driver publishes. -/
inductive HostObs
  | firmware (o : Obs)
  | published (frame : List UInt8)

/-- A transfer from claim to callback, if the driver's path got the claim. -/
def Host.transfer (s : Host) (r : Driver × Option SpiMessage) : Host × List HostObs :=
  match r with
  | (drv, none) => ({ s with drv }, [])
  | (drv, some msg) =>
    let (fw, o) := (Input.xferDone (drv.mosi msg)).handle s.fw
    let (drv, valid) := msg.complete.done (drv.receive (s.fw.spiTxBuf.front msg.transfer.len))
    (⟨fw, clearSpiPending drv⟩,
      (if valid then [.published drv.published] else []) ++ o.map .firmware)

/-- One step of firmware and driver. -/
def Host.step (s : Host) : HostInput → Host × List HostObs
  | .arrive e =>
    let (fw, o) := (Input.add e).handle s.fw
    ({ s with fw }, o.map .firmware)
  | .readIrq => s.transfer (nrf51822ReadIrq s.drv)
  | .command command => s.transfer (nrf51822IssueSimpleCommand command s.drv).2

/-- Firmware and driver as a machine. -/
def host : Machine Host HostInput HostObs :=
  ⟨⟨Firmware.init, Driver.init⟩, fun s i => some (s.step i)⟩

/-- The firmware's part of a trace. -/
def HostObs.firmwareObs : List HostObs → List Obs :=
  List.filterMap fun | .firmware o => some o | .published _ => none

/-- The frames published, in order. -/
def HostObs.frames : List HostObs → List (List UInt8) :=
  List.filterMap fun | .firmware _ => none | .published frame => some frame

/-- A frame the driver can make of a transfer of a buffer that shows the event. -/
def Delivers (frame : List UInt8) (e : Event) : Prop :=
  ∃ tx c dev, Carries tx e ∧ frame = (afterTransfer tx c dev).published

theorem HostObs.firmwareObs_append (o e : List HostObs) :
    firmwareObs (o ++ e) = firmwareObs o ++ firmwareObs e :=
  List.filterMap_append

theorem HostObs.frames_append (o e : List HostObs) : frames (o ++ e) = frames o ++ frames e :=
  List.filterMap_append

@[simp] theorem HostObs.firmwareObs_firmware (o : List Obs) :
    firmwareObs (o.map .firmware) = o := by
  simp [firmwareObs, List.filterMap_map]

@[simp] theorem HostObs.firmwareObs_published (frames : List (List UInt8)) :
    firmwareObs (frames.map .published) = [] := by
  simp [firmwareObs, List.filterMap_map]

@[simp] theorem HostObs.frames_firmware (o : List Obs) : frames (o.map .firmware) = [] := by
  simp [frames, List.filterMap_map]

@[simp] theorem HostObs.frames_published (fs : List (List UInt8)) :
    frames (fs.map .published) = fs := by
  simp [frames, List.filterMap_map]

/-- The transfers made while a frame is on offer, or while idle transfers are still silent. -/
def Requested (s : Host) (o : List HostObs) : HostInput → Prop
  | .arrive _ => True
  | .readIrq => s.fw.bufferFull = true ∨ Blank (HostObs.firmwareObs o)
  | .command _ => s.fw.bufferFull = true ∨ Blank (HostObs.firmwareObs o)

instance (s : Host) (o : List HostObs) : (i : HostInput) → Decidable (Requested s o i)
  | .arrive _ => isTrue trivial
  | .readIrq => inferInstanceAs (Decidable (_ ∨ _))
  | .command _ => inferInstanceAs (Decidable (_ ∨ _))

/-- A transfer runs the firmware's handler and the callback of its message. -/
theorem Host.transfer_some (s : Host) (drv : Driver) {msg : SpiMessage}
    (hlen : msg.transfer.len = spiTransferLen) :
    (s.transfer (drv, some msg)).1.fw = ((Input.xferDone (drv.mosi msg)).handle s.fw).1 ∧
      (s.transfer (drv, some msg)).2 =
        (if (msg.complete.done (drv.receive (s.fw.spiTxBuf.front spiTransferLen))).2 then
          [.published (afterTransfer s.fw.spiTxBuf msg.complete drv).published] else []) ++
        ((Input.xferDone (drv.mosi msg)).handle s.fw).2.map .firmware := by
  simp only [Host.transfer, afterTransfer, ← hlen, and_self]

/-- **What a transfer can do**: nothing, without the claim; else run the firmware's handler, and
    publish the frame made of the transmit buffer unless that is silent. -/
theorem transfer_cases (s : Host) {r : Driver × Option SpiMessage}
    (hlen : ∀ msg ∈ r.2, msg.transfer.len = spiTransferLen) :
    (s.transfer r).1.fw = s.fw ∧ (s.transfer r).2 = [] ∨
      ∃ mosi frames, (s.transfer r).1.fw = ((Input.xferDone mosi).handle s.fw).1 ∧
        (s.transfer r).2 = frames.map .published ++
          ((Input.xferDone mosi).handle s.fw).2.map .firmware ∧
        (frames = [] ∨ ¬ Silent s.fw.spiTxBuf ∧
          ∃ c dev, frames = [(afterTransfer s.fw.spiTxBuf c dev).published]) := by
  obtain ⟨drv, _ | msg⟩ := r
  · exact .inl ⟨rfl, rfl⟩
  · obtain ⟨hfw, ho⟩ := s.transfer_some drv (hlen msg rfl)
    by_cases hvalid : (msg.complete.done
        (drv.receive (s.fw.spiTxBuf.front spiTransferLen))).2 = true
    · rw [if_pos hvalid] at ho
      refine .inr ⟨drv.mosi msg, [_], hfw, ho, .inr ⟨fun hsilent => ?_, msg.complete, drv, rfl⟩⟩
      rw [hsilent msg.complete drv] at hvalid
      cases hvalid
    · rw [if_neg hvalid] at ho
      exact .inr ⟨drv.mosi msg, [], hfw, ho, .inl rfl⟩

/-- The steps of the machine, as transfers and arrivals. -/
theorem step_cases (s : Host) (i : HostInput) :
    (∃ e, i = .arrive e) ∨ (∀ o, Requested s o i →
      s.fw.bufferFull = true ∨ Blank (HostObs.firmwareObs o)) ∧
      ∃ r : Driver × Option SpiMessage, s.step i = s.transfer r ∧
        ∀ msg ∈ r.2, msg.transfer.len = spiTransferLen := by
  cases i with
  | arrive e => exact .inl ⟨e, rfl⟩
  | readIrq => exact .inr ⟨fun _ h => h, _, rfl, nrf51822ReadIrq_len s.drv⟩
  | command command =>
    exact .inr ⟨fun _ h => h, _, rfl, nrf51822IssueSimpleCommand_len command s.drv⟩

/-- The firmware's part of a run is a run of the firmware. -/
theorem firmware_run_of_host (is : List HostInput) (s : Host) (o : List HostObs)
    (hrun : host.run is = some (s, o)) :
    ∃ js, firmware.run js = some (s.fw, HostObs.firmwareObs o) := by
  have hproj : ∃ js, (∀ j ∈ js, True) ∧
      firmware.run js = some (s.fw, HostObs.firmwareObs o) := by
    refine Machine.project (D := fun _ => True) Host.fw _ rfl ?_ is s o (fun _ _ => trivial) hrun
    intro s i s' e _ hs
    obtain ⟨rfl, rfl⟩ : (s.step i).1 = s' ∧ (s.step i).2 = e := Prod.mk.inj (Option.some.inj hs)
    show ∃ js, _ ∧ _ = some (_, HostObs.firmwareObs _)
    rcases step_cases s i with ⟨e, rfl⟩ | ⟨-, r, hstep, hlen⟩
    · refine ⟨[.add e], by simp, ?_⟩
      show _ = some (_, HostObs.firmwareObs (((Input.add e).handle s.fw).2.map .firmware))
      rw [HostObs.firmwareObs_firmware]
      exact firmware_runFrom _ _
    · rw [hstep]
      rcases transfer_cases s hlen with ⟨hfw, ho⟩ | ⟨mosi, frames, hfw, ho, -⟩
      · rw [hfw, ho]
        exact ⟨[], by simp, rfl⟩
      · refine ⟨[.xferDone mosi], by simp, ?_⟩
        rw [hfw, ho, HostObs.firmwareObs_append, HostObs.firmwareObs_published,
          HostObs.firmwareObs_firmware, List.nil_append]
        exact firmware_runFrom _ _
  exact hproj.imp fun js h => h.2

/-! ### Nothing is published twice -/

/-- The frames published so far and the events still to be shown come from the accepted events,
    each used once. -/
def PublishedOnce (s : Host) (o : List HostObs) : Prop :=
  ∃ events offered waiting, List.Forall₂ Delivers (HostObs.frames o) events ∧
    Owes s.fw offered waiting ∧
    (events ++ (offered ++ waiting)).Sublist (Out.acceptedItems (HostObs.firmwareObs o))

theorem publishedOnce_init : PublishedOnce host.init [] :=
  ⟨[], [], [], .nil, ⟨rfl, Nat.zero_le _, .nil, .nil⟩, List.Sublist.refl _⟩

theorem publishedOnce_arrive {s : Host} {o : List HostObs} (h : PublishedOnce s o) (e : Event) :
    PublishedOnce (s.step (.arrive e)).1 (o ++ (s.step (.arrive e)).2) := by
  obtain ⟨events, offered, waiting, hdel, howes, hsub⟩ := h
  obtain ⟨offered', waiting', howes', hsub'⟩ := owes_add howes e
  -- an arrival publishes nothing
  refine ⟨events, offered', waiting', ?_, howes', ?_⟩
  · show List.Forall₂ Delivers (HostObs.frames (o ++ List.map _ _)) events
    rw [HostObs.frames_append, HostObs.frames_firmware, List.append_nil]
    exact hdel
  · show List.Sublist _ (Out.acceptedItems (HostObs.firmwareObs (o ++ List.map _ _)))
    rw [HostObs.firmwareObs_append, HostObs.firmwareObs_firmware, Out.acceptedItems_append]
    have hall := hsub.append_right (Out.acceptedItems (interruptEventQueueAdd e s.fw).2.2)
    rw [List.append_assoc] at hall
    exact (hsub'.append_left events).trans hall

/-- A transfer made while a frame is on offer publishes that frame and gives it up; one made
    while idle transfers are silent publishes nothing. -/
theorem publishedOnce_transfer {s : Host} {o : List HostObs} (h : PublishedOnce s o)
    {r : Driver × Option SpiMessage} (hlen : ∀ msg ∈ r.2, msg.transfer.len = spiTransferLen)
    (hidle : s.fw.bufferFull = true ∨ Silent s.fw.spiTxBuf) :
    PublishedOnce (s.transfer r).1 (o ++ (s.transfer r).2) := by
  rcases transfer_cases s hlen with ⟨hfw, ho⟩ | ⟨mosi, frames, hfw, ho, hframes⟩
  · rw [ho, List.append_nil]
    rwa [PublishedOnce, hfw]
  · obtain ⟨events, offered, waiting, hdel, howes, hsub⟩ := h
    have hreceive : Owes (spiReceive mosi s.fw) offered waiting :=
      ⟨howes.head, howes.items, howes.offered, howes.waiting⟩
    obtain ⟨offered', waiting', howes', hsub'⟩ := owes_xferDone hreceive
    -- the end of a transfer accepts nothing
    have hacc : Out.acceptedItems ((Input.xferDone mosi).handle s.fw).2 = [] := by
      rcases xferDone_cases (spiReceive mosi s.fw) with ⟨tx, hobs, -⟩ | ⟨hobs, -⟩
      · rw [Input.handle, hobs]; rfl
      · rw [Input.handle, hobs]; rfl
    -- what is published now, if anything, is the event on offer
    obtain ⟨now, hnow, hnowsub⟩ : ∃ now, List.Forall₂ Delivers frames now ∧
        now.Sublist offered := by
      rcases hframes with rfl | ⟨hloud, c, dev, rfl⟩
      · exact ⟨[], .nil, List.nil_sublist _⟩
      · have hfull : s.fw.bufferFull = true := hidle.resolve_right hloud
        have hoff := howes.offered
        rw [Firmware.onOffer_of_bufferFull hfull] at hoff
        obtain ⟨e, -, hcarries, hnil, rfl⟩ := List.forall₂_cons_left_iff.mp hoff
        exact ⟨[e], .cons ⟨_, c, dev, hcarries, rfl⟩ .nil, by simp⟩
    refine ⟨events ++ now, offered', waiting', ?_, by rw [hfw]; exact howes', ?_⟩
    · rw [ho, HostObs.frames_append, HostObs.frames_append, HostObs.frames_published,
        HostObs.frames_firmware, List.append_nil]
      exact List.rel_append hdel hnow
    · rw [ho, HostObs.firmwareObs_append, HostObs.firmwareObs_append,
        HostObs.firmwareObs_published, HostObs.firmwareObs_firmware, List.nil_append,
        Out.acceptedItems_append, hacc, List.append_nil, List.append_assoc]
      exact ((hnowsub.append hsub').append_left events).trans hsub

/-- **Run lemma.**  If every transfer is made while a frame is on offer or while idle transfers
    are silent, nothing is published twice. -/
theorem publishedOnce_of_run (is : List HostInput) (s : Host) (o : List HostObs)
    (hC : host.Along Requested is) (hrun : host.run is = some (s, o)) : PublishedOnce s o := by
  refine Machine.run_induct_along (P := fun _ s o => PublishedOnce s o) publishedOnce_init ?_
    is s o hC hrun
  intro is i s o s' e hrun h hCi hs
  obtain ⟨rfl, rfl⟩ : (s.step i).1 = s' ∧ (s.step i).2 = e := Prod.mk.inj (Option.some.inj hs)
  rcases step_cases s i with ⟨e, rfl⟩ | ⟨hreq, r, hstep, hlen⟩
  · exact publishedOnce_arrive h e
  · obtain ⟨js, hjs⟩ := firmware_run_of_host is s o hrun
    rw [hstep]
    exact publishedOnce_transfer h hlen
      ((hreq o hCi).imp_right (silent_iff_blank js s.fw (HostObs.firmwareObs o) hjs).mpr)

/-- **Idle transfers.**  After every run of the handlers, a transfer made now would be taken for
    "no data" by both callbacks exactly when nothing has been loaded so far, or a frame with two
    leading zero bytes last.  And in every run of firmware and driver whose transfers are made
    while a frame is on offer or while idle transfers are silent, the frames published come from
    accepted events, in order and each at most once. -/
theorem idle_transfer (js : List Input) (fw : Firmware) (p : List Obs)
    (hjs : firmware.run js = some (fw, p)) (is : List HostInput) (s : Host) (o : List HostObs)
    (his : host.run is = some (s, o)) :
    (Silent fw.spiTxBuf ↔ Blank p) ∧
    (host.Along Requested is →
      ∃ events, events.Sublist (Out.acceptedItems (HostObs.firmwareObs o)) ∧
        List.Forall₂ Delivers (HostObs.frames o) events) := by
  refine ⟨silent_iff_blank js fw p hjs, fun hC => ?_⟩
  obtain ⟨events, offered, waiting, hdel, -, hsub⟩ := publishedOnce_of_run is s o hC his
  exact ⟨events, (List.sublist_append_left _ _).trans hsub, hdel⟩

/-- An early command, then one event, read while it is on offer. -/
def commandThenRead : List HostInput := [.command 2, .arrive .short, .readIrq]

/-- `idle_transfer` after reset and on that run. -/
theorem idle_transfer_commandThenRead :
    Silent firmware.init.spiTxBuf ∧
      ∃ s o, host.run commandThenRead = some (s, o) ∧ (HostObs.frames o).length = 1 ∧
        ∃ events, events.Sublist (Out.acceptedItems (HostObs.firmwareObs o)) ∧
          List.Forall₂ Delivers (HostObs.frames o) events := by
  obtain ⟨s, o, hrun, hone⟩ :
      ∃ s o, host.run commandThenRead = some (s, o) ∧ (HostObs.frames o).length = 1 :=
    host.exists_run (by decide +kernel)
  obtain ⟨hsilent, hevents⟩ :=
    idle_transfer [] firmware.init [] rfl commandThenRead s o hrun
  refine ⟨hsilent.mpr (by decide), s, o, hrun, hone, hevents ?_⟩
  exact Machine.along_of_alongFrom (by decide +kernel)

/-- An event that has been read is published again by an idle transfer. -/
theorem idle_transfer_publishes_again :
    ∃ s o, host.run [.arrive .short, .readIrq, .command 2] = some (s, o) ∧
      s.fw.bufferFull = false ∧ Out.acceptedItems (HostObs.firmwareObs o) = [.short] ∧
      HostObs.frames o = [[2, 1, 7], [2, 1, 7]] :=
  host.exists_run (by decide +kernel)

end Gap.Bcp
