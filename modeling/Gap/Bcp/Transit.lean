import Gap.Bcp.Idle
import Gap.Bcp.Quiesce
import Gap.Lib.Along
import Gap.Lib.Stutter

namespace Gap.Bcp

open Outbox

/-!
# From the event queue to user space

The firmware and the driver with the wires between them: a transfer clocks in what the transmit
buffer holds.  An event that the queue has accepted is loaded, clocked out, and published to user
space by the callback.  The transmit buffer keeps its contents when it is released, so a transfer
that finds nothing on offer delivers the last frame once more.

* `wire` — the joint system of `link`, with the frames the callbacks publish.
* `Wired` — the transfers of a run clock in the transmit buffer, the events fit a transfer, and
  the firmware has caught up with the transfers before another one ends or an event is loaded.
* `Transit` — the invariant: the frames loaded are those published, the one received and the one
  on offer, in this order; `transit_step` is the step lemma.
* `accepted_in_order` — what is published, in order and at least once.
* `accepted_events_arrive` — every event accepted is published in the end.
-/

/-! ### The wires -/

/-- What the firmware shows, and the frames published to user space. -/
inductive WireObs
  | firmware (o : Obs)
  | published (frame : List UInt8)

/-- The frame that a callback makes of `spi_data_buffer`, if it publishes one. -/
def Driver.decoded (dev : Driver) : Option (List UInt8) :=
  if (nrf51822ReadIrqDone dev).2 then some (nrf51822ReadIrqDone dev).1.published else none

/-- The frame that a step publishes: a callback does so before it gives up its claim. -/
def Link.publishes (l : Link) : LinkInput → List (List UInt8)
  | .callbackClear k =>
    match l.callbacks[k]? with
    | some ⟨c, .entered⟩ =>
      if (c.done l.drv).2 then [(c.done l.drv).1.published] else []
    | _ => []
  | _ => []

/-- What is seen of a step that shows `o` and publishes `fs`. -/
def seen (o : List Obs) (fs : List (List UInt8)) : List WireObs :=
  o.map WireObs.firmware ++ fs.map WireObs.published

/-- The joint system, with the frames it publishes. -/
def wire : Machine Link LinkInput WireObs where
  init := Link.init
  step l i := (l.step i).map fun r => (r.1, seen r.2 (l.publishes i))

/-- The firmware's part of a trace. -/
def shownBy : List WireObs → List Obs :=
  List.filterMap fun | .firmware o => some o | .published _ => none

/-- The frames published. -/
def publishedIn : List WireObs → List (List UInt8) :=
  List.filterMap fun | .firmware _ => none | .published f => some f

/-- The steps as the wires and the firmware's timing make them.  An event is 1 to 38 bytes long,
    so its frame fits a transfer. -/
def Link.Wired (l : Link) : LinkInput → Prop
  | .advertisement e =>
    (1 ≤ e.data.length ∧ e.data.length ≤ 38) ∧ (l.fw.bufferFull = false → l.xferDone = 0)
  | .transferEnds miso => miso = l.fw.spiTxBuf.front spiTransferLen ∧ l.xferDone = 0
  | _ => True

instance (l : Link) : (i : LinkInput) → Decidable (l.Wired i)
  | .advertisement _ => inferInstanceAs (Decidable (_ ∧ _))
  | .transferEnds _ => inferInstanceAs (Decidable (_ ∧ _))
  | .firmwareXferDone => isTrue trivial
  | .callbackClear _ => isTrue trivial
  | .callbackSample _ => isTrue trivial
  | .callbackFinish _ => isTrue trivial
  | .interrupt => isTrue trivial
  | .command _ => isTrue trivial

/-- A transfer ends and no frame was on offer. -/
def Link.idleTransfer (l : Link) : LinkInput → Bool
  | .transferEnds _ => !l.fw.bufferFull
  | _ => false

theorem Link.Wired.hasData {l : Link} {i : LinkInput} (h : l.Wired i) : i.HasData := by
  cases i with
  | advertisement e => exact List.ne_nil_of_length_pos h.1.1
  | _ => trivial

/-- A step that drains the link is as the wires make it. -/
theorem Link.Drains.wired {l : Link} {i : LinkInput} (h : l.Drains i) : l.Wired i := by
  obtain ⟨hi, hover, hmiso⟩ := h
  cases i with
  | advertisement e => exact hi.elim
  | transferEnds miso =>
    refine ⟨hmiso miso rfl, ?_⟩
    simpa [Link.overtakes] using hover
  | _ => trivial

@[simp] theorem shownBy_append_seen (o : List WireObs) (e : List Obs) (fs : List (List UInt8)) :
    shownBy (o ++ seen e fs) = shownBy o ++ e := by
  simp [shownBy, seen, List.filterMap_append, List.filterMap_map]

@[simp] theorem publishedIn_append_seen (o : List WireObs) (e : List Obs)
    (fs : List (List UInt8)) : publishedIn (o ++ seen e fs) = publishedIn o ++ fs := by
  simp [publishedIn, seen, List.filterMap_append, List.filterMap_map]

/-- A step of `wire` is a step of the joint system. -/
theorem wire_step {l l' : Link} {i : LinkInput} {e : List WireObs}
    (hs : wire.step l i = some (l', e)) :
    ∃ o, l.step i = some (l', o) ∧ e = seen o (l.publishes i) := by
  obtain ⟨⟨l₁, o⟩, hstep, heq⟩ := Option.map_eq_some_iff.mp hs
  obtain ⟨rfl, rfl⟩ := Prod.mk.inj heq
  exact ⟨o, hstep, rfl⟩

/-! ### The transmit buffer -/

/-- The transmit buffer after what was shown: the last frame loaded, if any. -/
def lastShown (tx : Buf 64) (o : List Obs) : Buf 64 := (Out.loadedItems o).getLast?.getD tx

theorem lastShown_append (tx : Buf 64) (o e : List Obs) :
    lastShown tx (o ++ e) = lastShown (lastShown tx o) e := by
  rw [lastShown, lastShown, lastShown, Out.loadedItems_append, List.getLast?_append]
  cases (Out.loadedItems e).getLast? <;> rfl

/-! ### The firmware's books -/

/-- What the firmware has accepted is what it has loaded and what waits in the queue; the transmit
    buffer holds the last load. -/
structure Accounted (s : Firmware) (o : List Obs) : Prop where
  law : ∃ b o', Represents s b ∧ List.Forall₂ ObsRel o o' ∧
    Out.acceptedItems o' = Out.loadedItems o' ++ b.queue ∧ Out.held o' = b.slot
  fits : ∀ e ∈ Out.acceptedItems o, 1 ≤ e.data.length ∧ e.data.length ≤ 38
  tx : s.spiTxBuf = lastShown Firmware.init.spiTxBuf o

theorem accounted_init : Accounted Firmware.init [] where
  law := ⟨Outbox.empty, [], represents_init, .nil, rfl, rfl⟩
  fits := by simp [Out.acceptedItems]
  tx := rfl

section
variable {s : Firmware} {o : List Obs}

theorem Accounted.add (h : Accounted s o) {e : Event}
    (hlen : 1 ≤ e.data.length ∧ e.data.length ≤ 38) :
    Accounted (interruptEventQueueAdd e s).2.1 (o ++ (interruptEventQueueAdd e s).2.2) := by
  obtain ⟨b, o', hb, ho, hacc, hheld⟩ := h.law
  obtain ⟨hb', he⟩ := represents_add hb (List.ne_nil_of_length_pos hlen.1)
  obtain ⟨hacc', hheld'⟩ := Outbox.step_spec (i := .offer e) hacc hheld rfl
  refine ⟨⟨_, _, hb', List.rel_append ho he, hacc', hheld'⟩, fun x hx => ?_, ?_⟩
  · rw [Out.acceptedItems_append, List.mem_append] at hx
    rcases hx with hx | hx
    · exact h.fits x hx
    · -- the step accepts no other event
      have hadd := acceptedItems_handle s (.add e) x hx
      obtain rfl : e = x := by injection hadd
      exact hlen
  · rw [lastShown_append, ← h.tx]
    exact handle_spiTxBuf s (.add e)

theorem Accounted.xferDone (h : Accounted s o) :
    Accounted (spiSlaveEventHandle .xferDone s).1 (o ++ (spiSlaveEventHandle .xferDone s).2) := by
  obtain ⟨b, o', hb, ho, hacc, hheld⟩ := h.law
  obtain ⟨hb', he⟩ := represents_xferDone hb
  obtain ⟨hacc', hheld'⟩ := Outbox.step_spec (i := .ack) hacc hheld rfl
  refine ⟨⟨_, _, hb', List.rel_append ho he, hacc', hheld'⟩, fun x hx => ?_, ?_⟩
  · rw [Out.acceptedItems_append, List.mem_append] at hx
    rcases hx with hx | hx
    · exact h.fits x hx
    · rcases xferDone_cases s with ⟨tx, hobs, -⟩ | ⟨hobs, -⟩ <;>
        simp [hobs, Out.acceptedItems] at hx
  · rw [lastShown_append, ← h.tx]
    exact xferDone_spiTxBuf s

theorem Accounted.receive (h : Accounted s o) (mosi : List UInt8) :
    Accounted (spiReceive mosi s) o := by
  obtain ⟨b, o', hb, hlaw⟩ := h.law
  exact ⟨⟨b, o', represents_receive hb mosi, hlaw⟩, h.fits, h.tx⟩

/-- The frames loaded are those of the events accepted first. -/
theorem Accounted.loaded_prefix (h : Accounted s o) :
    (Out.loadedItems o).map frameIn <+: (Out.acceptedItems o).map Event.frame := by
  obtain ⟨b, o', -, ho, hacc, -⟩ := h.law
  have hfits := h.fits
  rw [Out.Rel.acceptedItems_eq ho, hacc] at hfits ⊢
  rw [map_frameIn_eq (Out.Rel.loadedItems ho) fun e he => ?_, List.map_append]
  · exact List.prefix_append _ _
  · have hlen := hfits e (List.mem_append_left _ he)
    omega

/-- They are all of them once the firmware holds none. -/
theorem Accounted.loaded_eq (h : Accounted s o) (hheld : s.held = 0) :
    (Out.loadedItems o).map frameIn = (Out.acceptedItems o).map Event.frame := by
  refine h.loaded_prefix.eq_of_length ?_
  obtain ⟨b, o', hb, ho, hacc, -⟩ := h.law
  have hnil : b.queue = [] := b.queue_nil (Outbox.size_eq_zero.mp (by rw [← hb.held, hheld]))
  rw [List.length_map, List.length_map, Out.Rel.acceptedItems_eq ho, hacc, hnil, List.append_nil,
    (Out.Rel.loadedItems ho).length_eq]

theorem exists_mem_of_forall₂ {α β : Type*} {R : α → β → Prop} {xs : List α} {ys : List β}
    (h : List.Forall₂ R xs ys) {x : α} (hx : x ∈ xs) : ∃ y ∈ ys, R x y := by
  induction h with
  | nil => cases hx
  | cons hR _ ih =>
    rcases List.mem_cons.mp hx with rfl | hx
    · exact ⟨_, List.mem_cons_self, hR⟩
    · obtain ⟨y, hy, hxy⟩ := ih hx
      exact ⟨y, List.mem_cons_of_mem _ hy, hxy⟩

/-- A frame loaded shows an event that fits a transfer. -/
theorem Accounted.carries (h : Accounted s o) {tx : Buf 64} (htx : tx ∈ Out.loadedItems o) :
    ∃ e, Carries tx e ∧ e.data.length ≤ 38 := by
  obtain ⟨b, o', -, ho, hacc, -⟩ := h.law
  obtain ⟨e, he, hcarries⟩ := exists_mem_of_forall₂ (Out.Rel.loadedItems ho) htx
  have hmem : e ∈ Out.acceptedItems o := by
    rw [Out.Rel.acceptedItems_eq ho, hacc]
    exact List.mem_append_left _ he
  exact ⟨e, hcarries, (h.fits e hmem).2⟩

end

/-! ### What the driver receives -/

section
variable {dev dev' : Driver}

/-- What is decoded depends on the data buffers only. -/
theorem decoded_congr (hdata : dev'.spiDataBuffer = dev.spiDataBuffer)
    (hafter : dev'.afterSpiDataBuffer = dev.afterSpiDataBuffer)
    (huser : dev'.bufToUser = dev.bufToUser) : dev'.decoded = dev.decoded := by
  simp only [Driver.decoded, nrf51822ReadIrqDone, hdata]
  split
  · rfl
  · split <;> simp [copyToUser, Driver.published, hdata, hafter, huser]

theorem decoded_nrf51822ReadIrq (dev : Driver) : (nrf51822ReadIrq dev).1.decoded = dev.decoded := by
  unfold nrf51822ReadIrq
  split
  · rfl
  · exact decoded_congr rfl rfl rfl

theorem decoded_nrf51822IssueSimpleCommand (command : UInt8) (dev : Driver) :
    (nrf51822IssueSimpleCommand command dev).2.1.decoded = dev.decoded := by
  unfold nrf51822IssueSimpleCommand
  split
  · rfl
  · exact decoded_congr rfl rfl rfl

/-- A frame that fits is decoded as it was sent. -/
theorem decoded_receive_of_carries {tx : Buf 64} {e : Event} (h : Carries tx e)
    (hlen : e.data.length ≤ 38) (dev : Driver) :
    (dev.receive (tx.front spiTransferLen)).decoded = some (frameIn tx) := by
  have h40 : spiTransferLen = 40 := rfl
  obtain ⟨-, hpub, -⟩ := roundTrip_of_le h (by omega) .readIrqDone dev
  have hfirst : (dev.receive (tx.front spiTransferLen)).spiDataBuffer 0 ≠ 0 := by
    rw [show (dev.receive (tx.front spiTransferLen)).spiDataBuffer 0 = e.len + 1 from
      (receive_apply dev tx (by decide)).trans h.length]
    intro hzero
    have hnat := Event.toNat_len_add_one (e := e) (by omega)
    rw [hzero] at hnat
    simp at hnat
  have hdone : (nrf51822ReadIrqDone (dev.receive (tx.front spiTransferLen))).2 = true :=
    (done_snd .readIrqDone _).mpr fun hno => hfirst hno.1
  rw [Driver.decoded, if_pos hdone, h.frameIn_eq (by omega)]
  exact congrArg some hpub

/-- Before the first load there is nothing to decode. -/
theorem decoded_receive_zero (dev : Driver) :
    (dev.receive (Firmware.init.spiTxBuf.front spiTransferLen)).decoded = none := by
  have hno : NoData (dev.receive (Firmware.init.spiTxBuf.front spiTransferLen)).spiDataBuffer :=
    ⟨receive_apply dev _ (by decide), receive_apply dev _ (by decide)⟩
  have hdone := done_of_noData hno .readIrqDone
  simp only [Completion.done] at hdone
  rw [Driver.decoded, hdone]
  rfl

end

/-! ### The invariant -/

/-- The frame received and not yet published: a callback that holds the claim will publish it. -/
def Link.received (l : Link) : List (List UInt8) :=
  if entered l.callbacks = 0 then [] else l.drv.decoded.toList

/-- The frame on offer, unless a transfer has clocked it out already. -/
def Link.offered (l : Link) : List (List UInt8) :=
  if l.xferDone = 0 then (l.fw.onOffer.map frameIn).toList else []

/-- **The invariant.**  After `idle` transfers without a frame on offer. -/
structure Transit (l : Link) (o : List WireObs) (idle : ℕ) : Prop where
  ready : l.Ready
  caughtUp : l.xferDone ≤ 1
  accounted : Accounted l.fw (shownBy o)
  frames : ∃ n sent, n ≤ idle ∧ Stutter n (publishedIn o ++ l.received) sent ∧
    (Out.loadedItems (shownBy o)).map frameIn = sent ++ l.offered

theorem transit_init : Transit Link.init [] 0 where
  ready := ready_of_run [] _ [] (by simp) rfl
  caughtUp := Nat.zero_le 1
  accounted := accounted_init
  frames := ⟨0, [], le_rfl, .nil, rfl⟩

section
variable {l l' : Link} {o : List WireObs} {idle : ℕ}

/-- What stays as it is on the driver's side. -/
theorem received_congr (hentered : entered l'.callbacks = entered l.callbacks)
    (hdecoded : l'.drv.decoded = l.drv.decoded) : l'.received = l.received := by
  rw [Link.received, Link.received, hentered, hdecoded]

/-- A step that publishes and shows nothing, and leaves frames where they are. -/
theorem Transit.quiet (h : Transit l o idle) (hready : l'.Ready) (hfw : l'.fw = l.fw)
    (hdone : l'.xferDone = l.xferDone) (hreceived : l'.received = l.received) :
    Transit l' o idle := by
  refine ⟨hready, hdone ▸ h.caughtUp, hfw ▸ h.accounted, ?_⟩
  have hoffered : l'.offered = l.offered := by rw [Link.offered, Link.offered, hdone, hfw]
  rw [hreceived, hoffered]
  exact h.frames

/-- An event arrives. -/
theorem Transit.advertisement (h : Transit l o idle) {e : Event} (hw : l.Wired (.advertisement e))
    (hready : (l.setFirmware (interruptEventQueueAdd e l.fw).2.1).Ready) :
    Transit (l.setFirmware (interruptEventQueueAdd e l.fw).2.1)
      (o ++ seen (interruptEventQueueAdd e l.fw).2.2 []) idle := by
  obtain ⟨n, sent, hn, hstutter, hloaded⟩ := h.frames
  refine ⟨hready, h.caughtUp, ?_, n, sent, hn, ?_, ?_⟩
  · rw [shownBy_append_seen]
    exact h.accounted.add hw.1
  · rw [publishedIn_append_seen, List.append_nil]
    exact hstutter
  · rw [shownBy_append_seen, Out.loadedItems_append, List.map_append, hloaded, List.append_assoc]
    congr 1
    show (if l.xferDone = 0 then (l.fw.onOffer.map frameIn).toList else []) ++ _ =
      if l.xferDone = 0 then ((interruptEventQueueAdd e l.fw).2.1.onOffer.map frameIn).toList
        else []
    rcases interruptEventQueueAdd_cases e l.fw with
      hrefused | ⟨hobs, hsame⟩ | ⟨hfree, tx, hobs, hload⟩
    · rw [hrefused]
      exact List.append_nil _
    · rw [hobs, hsame]
      exact List.append_nil _
    · -- the buffer was free, so the firmware has caught up
      have hnot : l.fw.bufferFull = false := by
        cases hfull : l.fw.bufferFull with
        | false => rfl
        | true => rw [Firmware.onOffer_of_bufferFull hfull] at hfree; cases hfree
      rw [hobs, hload, hfree, if_pos (hw.2 hnot), if_pos (hw.2 hnot)]
      rfl

/-- The firmware handles the end of a transfer. -/
theorem Transit.firmwareXferDone (h : Transit l o idle) (hsome : l.xferDone ≠ 0)
    (hready : ({ l.setFirmware (spiSlaveEventHandle .xferDone l.fw).1 with
      xferDone := l.xferDone - 1 } : Link).Ready) :
    Transit { l.setFirmware (spiSlaveEventHandle .xferDone l.fw).1 with
        xferDone := l.xferDone - 1 }
      (o ++ seen (spiSlaveEventHandle .xferDone l.fw).2 []) idle := by
  obtain ⟨n, sent, hn, hstutter, hloaded⟩ := h.frames
  have hcaught := h.caughtUp
  refine ⟨hready, ?_, ?_, n, sent, hn, ?_, ?_⟩
  · show l.xferDone - 1 ≤ 1
    omega
  · rw [shownBy_append_seen]
    exact h.accounted.xferDone
  · rw [publishedIn_append_seen, List.append_nil]
    exact hstutter
  · -- the frame on offer had been clocked out; the next one, if any, has not
    rw [shownBy_append_seen, Out.loadedItems_append, List.map_append, hloaded, Link.offered,
      if_neg hsome,
      List.append_nil]
    congr 1
    show _ = if l.xferDone - 1 = 0 then
      ((spiSlaveEventHandle .xferDone l.fw).1.onOffer.map frameIn).toList else []
    rw [if_pos (by omega)]
    rcases xferDone_cases l.fw with ⟨tx, hobs, hoffer⟩ | ⟨hobs, hoffer⟩
    · rw [hobs, hoffer]
      rfl
    · rw [hobs, hoffer]
      rfl

/-- A transfer ends: the frame on offer is received, or the last one is received again. -/
theorem Transit.transferEnds (h : Transit l o idle) {msg : SpiMessage} {rest : List SpiMessage}
    (hout : l.outstanding = msg :: rest) (hdone : l.xferDone = 0)
    (hready : ({ l with
      fw := spiReceive (l.drv.mosi msg) l.fw
      drv := l.drv.receive (l.fw.spiTxBuf.front spiTransferLen)
      outstanding := rest
      xferDone := l.xferDone + 1
      callbacks := l.callbacks ++ [⟨msg.complete, .entered⟩] } : Link).Ready) :
    Transit { l with
      fw := spiReceive (l.drv.mosi msg) l.fw
      drv := l.drv.receive (l.fw.spiTxBuf.front spiTransferLen)
      outstanding := rest
      xferDone := l.xferDone + 1
      callbacks := l.callbacks ++ [⟨msg.complete, .entered⟩] } o
      (idle + (!l.fw.bufferFull).toNat) := by
  obtain ⟨n, sent, hn, hstutter, hloaded⟩ := h.frames
  -- the message held the claim, so no callback did
  have hnone : entered l.callbacks = 0 := by
    have hclaims := h.ready.wakeUp.claims
    have hle := Bool.toNat_le l.drv.spiPending
    rw [Link.claims, hout, List.length_cons] at hclaims
    omega
  have hbefore : l.received = [] := if_pos hnone
  rw [hbefore, List.append_nil] at hstutter
  have hsome : entered (l.callbacks ++ [⟨msg.complete, .entered⟩]) ≠ 0 := by
    rw [entered_append, entered_cons, if_pos rfl]
    omega
  refine ⟨hready, by show l.xferDone + 1 ≤ 1; omega, h.accounted.receive _, ?_⟩
  simp only [Link.received, Link.offered, hsome, if_false, Nat.succ_ne_zero, List.append_nil]
  -- the transmit buffer holds the last load
  have htx := h.accounted.tx
  cases hlast : Out.loadedItems (shownBy o) using List.reverseRecOn with
  | nil =>
    rw [lastShown, hlast] at htx
    rw [hlast] at hloaded
    obtain ⟨rfl, -⟩ := List.append_eq_nil_iff.mp hloaded.symm
    refine ⟨n, [], by omega, ?_, rfl⟩
    rw [htx, List.getLast?_nil, Option.getD_none, decoded_receive_zero]
    simpa using hstutter
  | append_singleton loads tx =>
    have hlastTx : l.fw.spiTxBuf = tx := by
      rw [htx, lastShown, hlast]
      simp
    have hmem : tx ∈ Out.loadedItems (shownBy o) := by
      rw [hlast]
      exact List.mem_append_right _ (List.mem_singleton_self tx)
    obtain ⟨e, hcarries, hlen⟩ := h.accounted.carries hmem
    rw [hlastTx, decoded_receive_of_carries hcarries hlen]
    rw [hlast, List.map_append, Link.offered, if_pos hdone] at hloaded
    rw [List.map_append]
    cases hfull : l.fw.bufferFull with
    | true =>
      -- it was on offer, and is received for the first time
      rw [Firmware.onOffer_of_bufferFull hfull, hlastTx] at hloaded
      obtain ⟨hsent, -⟩ := List.append_inj' hloaded rfl
      refine ⟨n, _, by omega, ?_, rfl⟩
      rw [hsent]
      exact hstutter.next _
    | false =>
      -- nothing was on offer: it had been received before
      have hnoOffer : l.fw.onOffer = none := by simp [Firmware.onOffer, hfull]
      rw [hnoOffer] at hloaded
      refine ⟨n + 1, _, by simp; omega, ?_, rfl⟩
      have hsent : sent = loads.map frameIn ++ [frameIn tx] := by simpa using hloaded.symm
      rw [hsent] at hstutter
      exact hstutter.again

/-- A callback publishes what was received and gives up its claim. -/
theorem Transit.callbackClear (h : Transit l o idle) {k : ℕ} {c : Completion}
    (hk : l.callbacks[k]? = some ⟨c, .entered⟩)
    (hready : ({ l with
      drv := clearSpiPending (c.done l.drv).1
      callbacks := l.callbacks.set k ⟨c, .cleared⟩ } : Link).Ready) :
    Transit { l with
      drv := clearSpiPending (c.done l.drv).1
      callbacks := l.callbacks.set k ⟨c, .cleared⟩ }
      (o ++ seen [] (l.publishes (.callbackClear k))) idle := by
  obtain ⟨n, sent, hn, hstutter, hloaded⟩ := h.frames
  obtain ⟨pre, post, heq, hset, -⟩ := split_of_getElem? hk
  -- this callback held the only claim
  have hclaims := h.ready.wakeUp.claims
  have hle := Bool.toNat_le l.drv.spiPending
  rw [Link.claims, heq, entered_append, entered_cons, if_pos rfl] at hclaims
  have hafter : entered (l.callbacks.set k ⟨c, .cleared⟩) = 0 := by
    rw [hset, entered_append, entered_cons, if_neg (by simp)]
    omega
  have hgone : Link.received { l with
      drv := clearSpiPending (c.done l.drv).1
      callbacks := l.callbacks.set k ⟨c, .cleared⟩ } = [] := if_pos hafter
  have hsome : entered l.callbacks ≠ 0 := by
    rw [heq, entered_append, entered_cons, if_pos rfl]
    omega
  have hbefore : l.received = l.publishes (.callbackClear k) := by
    have hdone : c.done l.drv = nrf51822ReadIrqDone l.drv := done_eq c .readIrqDone l.drv
    simp only [Link.received, hsome, if_false, Link.publishes, hk, hdone, Driver.decoded]
    split <;> rfl
  refine ⟨hready, h.caughtUp, ?_, n, sent, hn, ?_, ?_⟩
  · rw [shownBy_append_seen, List.append_nil]
    exact h.accounted
  · rw [publishedIn_append_seen, hgone, List.append_nil, ← hbefore]
    exact hstutter
  · rw [shownBy_append_seen, List.append_nil]
    exact hloaded

/-- **Step lemma.** -/
theorem transit_step (h : Transit l o idle) {i : LinkInput} (hw : l.Wired i) {e : List WireObs}
    (hs : wire.step l i = some (l', e)) :
    Transit l' (o ++ e) (idle + (l.idleTransfer i).toNat) := by
  obtain ⟨obs, hstep, rfl⟩ := wire_step hs
  have hready : l'.Ready := ready_step h.ready hw.hasData hstep
  cases i with
  | advertisement ev =>
    obtain ⟨rfl, rfl⟩ := Prod.mk.inj (Option.some.inj hstep)
    exact h.advertisement hw hready
  | transferEnds miso =>
    obtain ⟨rfl, hdone⟩ := hw
    cases hout : l.outstanding with
    | nil => simp [Link.step, hout] at hstep
    | cons msg rest =>
      simp only [Link.step, hout, Option.ite_none_right_eq_some, Option.some.injEq,
        Prod.mk.injEq] at hstep
      obtain ⟨-, rfl, rfl⟩ := hstep
      show Transit _ (o ++ []) _
      rw [List.append_nil]
      exact h.transferEnds hout hdone hready
  | firmwareXferDone =>
    simp only [Link.step, Option.ite_none_left_eq_some, Option.some.injEq, Prod.mk.injEq] at hstep
    obtain ⟨hsome, rfl, rfl⟩ := hstep
    exact h.firmwareXferDone hsome hready
  | callbackClear k =>
    simp only [Link.step] at hstep
    split at hstep
    · next c hk =>
      obtain ⟨rfl, rfl⟩ := Prod.mk.inj (Option.some.inj hstep)
      exact h.callbackClear hk hready
    · cases hstep
  | callbackSample k =>
    simp only [Link.step] at hstep
    split at hstep
    · next c hk =>
      obtain ⟨rfl, rfl⟩ := Prod.mk.inj (Option.some.inj hstep)
      show Transit _ (o ++ []) _
      rw [List.append_nil]
      refine h.quiet hready rfl rfl (received_congr ?_ rfl)
      obtain ⟨pre, post, heq, hset, -⟩ := split_of_getElem? hk
      show entered (l.callbacks.set k _) = _
      rw [hset, heq, entered_append, entered_append, entered_cons, entered_cons]
      rfl
    · cases hstep
  | callbackFinish k =>
    simp only [Link.step] at hstep
    split at hstep
    · next c line hk =>
      obtain ⟨rfl, rfl⟩ := Prod.mk.inj (Option.some.inj hstep)
      show Transit _ (o ++ []) _
      rw [List.append_nil]
      refine h.quiet hready rfl rfl (received_congr ?_ ?_)
      · obtain ⟨pre, post, heq, -, herase⟩ := split_of_getElem? hk
        show entered (l.callbacks.eraseIdx k) = _
        rw [herase, heq, entered_append, entered_append, entered_cons, if_neg (by simp)]
        rfl
      · cases line with
        | true => exact decoded_nrf51822ReadIrq l.drv
        | false => rfl
    · cases hstep
  | interrupt =>
    simp only [Link.step, Option.ite_none_right_eq_some, Option.some.injEq, Prod.mk.injEq] at hstep
    obtain ⟨-, rfl, rfl⟩ := hstep
    show Transit _ (o ++ []) _
    rw [List.append_nil]
    exact h.quiet hready rfl rfl (received_congr rfl (decoded_nrf51822ReadIrq l.drv))
  | command command =>
    obtain ⟨rfl, rfl⟩ := Prod.mk.inj (Option.some.inj hstep)
    show Transit _ (o ++ []) _
    rw [List.append_nil]
    exact h.quiet hready rfl rfl
      (received_congr rfl (decoded_nrf51822IssueSimpleCommand command l.drv))

end

/-- **Run lemma.** -/
theorem transit_of_run (is : List LinkInput) (l : Link) (o : List WireObs)
    (hwired : wire.Along (fun l _ i => l.Wired i) is) (hrun : wire.run is = some (l, o)) :
    Transit l o (wire.countFrom Link.idleTransfer Link.init is) := by
  refine Machine.run_induct_along
    (P := fun is l o => Transit l o (wire.countFrom Link.idleTransfer Link.init is))
    transit_init ?_ is l o hwired hrun
  intro is i l o l' e hrun h hw hs
  rw [Machine.countFrom_concat Link.idleTransfer (s := Link.init) (o := []) hrun i]
  exact transit_step h hw hs

/-! ### In order, and in the end -/

/-- The events accepted, as frames. -/
def acceptedFrames (o : List WireObs) : List (List UInt8) :=
  (Out.acceptedItems (shownBy o)).map Event.frame

/-- What has been published of the events accepted. -/
theorem Transit.published {l : Link} {o : List WireObs} {idle : ℕ} (h : Transit l o idle) :
    ∃ n sent, n ≤ idle ∧ sent <+: acceptedFrames o ∧ Stutter n (publishedIn o) sent := by
  obtain ⟨n, sent, hn, hstutter, hloaded⟩ := h.frames
  have hsent : sent <+: acceptedFrames o :=
    (List.prefix_append sent l.offered).trans (hloaded ▸ h.accounted.loaded_prefix)
  cases hreceived : l.received using List.reverseRecOn with
  | nil =>
    rw [hreceived, List.append_nil] at hstutter
    exact ⟨n, sent, hn, hsent, hstutter⟩
  | append_singleton fs f =>
    -- at most one frame is received and not published
    have hnil : fs = [] := by
      have hlen : l.received.length ≤ 1 := by
        rw [Link.received]
        split
        · simp
        · cases l.drv.decoded <;> simp
      rw [hreceived, List.length_append, List.length_singleton] at hlen
      exact List.eq_nil_of_length_eq_zero (by omega)
    rw [hreceived, hnil, List.nil_append] at hstutter
    obtain ⟨m, sent', hm, hprefix, hstutter'⟩ := hstutter.init
    exact ⟨m, sent', hm.trans hn, hprefix.trans hsent, hstutter'⟩

/-- At rest, all of them. -/
theorem Transit.published_of_atRest {l : Link} {o : List WireObs} {idle : ℕ}
    (h : Transit l o idle) (hrest : l.AtRest) :
    ∃ n, n ≤ idle ∧ Stutter n (publishedIn o) (acceptedFrames o) := by
  obtain ⟨n, sent, hn, hstutter, hloaded⟩ := h.frames
  have hreceived : l.received = [] := by
    rw [Link.received, hrest.idle.2.2]
    rfl
  have hoffered : l.offered = [] := by
    have hfull : l.fw.bufferFull = false := by
      have hheld := hrest.held
      rw [Firmware.held] at hheld
      exact Bool.toNat_eq_zero.mp (by omega)
    simp [Link.offered, Firmware.onOffer, hfull]
  rw [hreceived, List.append_nil] at hstutter
  rw [hoffered, List.append_nil, h.accounted.loaded_eq hrest.held] at hloaded
  exact ⟨n, hn, by rw [acceptedFrames, hloaded]; exact hstutter⟩

/-- **In order, at least once.**  Over every run in which the transfers clock in the transmit
    buffer, the events are 1 to 38 bytes long, and the firmware has handled the end of a transfer
    before another one ends or an event is loaded: the frames published to user space are frames
    of the events accepted, in order, none left out up to the last one published, each repeated
    only for transfers that found nothing on offer; without such transfers there are no repeats;
    and at rest every event accepted has been published. -/
theorem accepted_in_order (is : List LinkInput) (l : Link) (o : List WireObs)
    (hwired : wire.Along (fun l _ i => l.Wired i) is) (hrun : wire.run is = some (l, o)) :
    (∃ n sent, n ≤ wire.countFrom Link.idleTransfer Link.init is ∧ sent <+: acceptedFrames o ∧
      Stutter n (publishedIn o) sent) ∧
    (wire.countFrom Link.idleTransfer Link.init is = 0 → publishedIn o <+: acceptedFrames o) ∧
    (l.AtRest → ∃ n ≤ wire.countFrom Link.idleTransfer Link.init is,
      Stutter n (publishedIn o) (acceptedFrames o)) := by
  have h := transit_of_run is l o hwired hrun
  obtain ⟨n, sent, hn, hsent, hstutter⟩ := h.published
  refine ⟨⟨n, sent, hn, hsent, hstutter⟩, fun hnone => ?_, fun hrest => ?_⟩
  · obtain rfl : n = 0 := by omega
    rw [hstutter.eq]
    exact hsent
  · obtain ⟨m, hm, hall⟩ := h.published_of_atRest hrest
    exact ⟨m, hm, hall⟩

/-- A step without new work accepts nothing. -/
theorem acceptedFrames_step {l l' : Link} {i : LinkInput} (hi : i.Internal) (o : List WireObs)
    {e : List WireObs} (hs : wire.step l i = some (l', e)) :
    acceptedFrames (o ++ e) = acceptedFrames o := by
  obtain ⟨obs, hstep, rfl⟩ := wire_step hs
  have hnone : Out.acceptedItems obs = [] := by
    cases i with
    | advertisement ev => exact hi.elim
    | command command => exact hi.elim
    | firmwareXferDone =>
      simp only [Link.step, Option.ite_none_left_eq_some, Option.some.injEq,
        Prod.mk.injEq] at hstep
      obtain ⟨-, -, rfl⟩ := hstep
      rcases xferDone_cases l.fw with ⟨tx, hobs, -⟩ | ⟨hobs, -⟩ <;>
        simp [hobs, Out.acceptedItems]
    | _ =>
      -- the other steps show nothing
      simp only [Link.step] at hstep
      split at hstep <;>
        simp only [Option.some.injEq, Prod.mk.injEq, reduceCtorEq,
          Option.ite_none_right_eq_some] at hstep
      first
        | (obtain ⟨-, rfl⟩ := hstep; rfl)
        | (obtain ⟨-, -, rfl⟩ := hstep; rfl)
  rw [acceptedFrames, shownBy_append_seen, Out.acceptedItems_append, hnone, List.append_nil]
  rfl

/-- **Every event accepted arrives.**  After every such run, the firmware and the driver can go on
    with what is pending, without overtaking, until they are at rest, and whichever way they do,
    the frames published by then are those of the events accepted, in order and each at least
    once. -/
theorem accepted_events_arrive (is : List LinkInput) (l : Link) (o : List WireObs)
    (hwired : wire.Along (fun l _ i => l.Wired i) is) (hrun : wire.run is = some (l, o)) :
    (∃ js l' o', wire.AlongFrom (fun l _ i => l.Drains i) (l, o) js ∧
      wire.runFrom (l, o) js = some (l', o') ∧ l'.AtRest) ∧
    ∀ js l' o', wire.AlongFrom (fun l _ i => l.Drains i) (l, o) js →
      wire.runFrom (l, o) js = some (l', o') → l'.AtRest →
      ∃ n ≤ wire.countFrom Link.idleTransfer Link.init (is ++ js),
        Stutter n (publishedIn o') (acceptedFrames o) := by
  have h := transit_of_run is l o hwired hrun
  constructor
  · refine Machine.exists_run_to (Φ := Link.potential) (fun s i s' e hs hi hstep => ?_)
      (fun s hs hrest => ?_) l o h.ready
    · obtain ⟨obs, hstep, -⟩ := wire_step hstep
      have hspent := potential_step hs.wakeUp hi.1 hstep
      rw [hi.2.1, Bool.toNat_false, Nat.mul_zero] at hspent
      exact ⟨ready_step hs hi.1.hasData hstep, hspent⟩
    · rcases atRest_or_step hs.wakeUp hs.sized with hat | ⟨i, s', obs, hi, hstep⟩
      · exact absurd hat hrest
      · exact ⟨i, s', seen obs (s.publishes i), hi, by simp [wire, hstep]⟩
  · intro js l' o' halong hrun' hrest
    have hsame : acceptedFrames o' = acceptedFrames o :=
      halong.invariant (I := fun _ o' => acceptedFrames o' = acceptedFrames o)
        (fun s o₁ i s' e hI hi hs => (acceptedFrames_step hi.1 o₁ hs).trans hI) rfl hrun'
    have hwired' := Machine.along_append hrun hwired (halong.imp fun s _ i hi => hi.wired) hrun'
    have hrunAll : wire.run (is ++ js) = some (l', o') := by
      rw [Machine.run_append, hrun]
      exact hrun'
    obtain ⟨n, hn, hstutter⟩ := (transit_of_run _ l' o' hwired' hrunAll).published_of_atRest hrest
    exact ⟨n, hn, hsame ▸ hstutter⟩

/-- A second event of one byte. -/
def Event.next : Event := ⟨1, [6], by decide⟩

/-- Two events, the second queued behind the first, both read. -/
def twoReports : List LinkInput :=
  [.advertisement Event.short, .interrupt, .advertisement Event.next,
    .transferEnds ((2 : UInt8) :: 1 :: 7 :: List.replicate 37 0), .firmwareXferDone,
    .callbackClear 0, .callbackSample 0, .callbackFinish 0,
    .transferEnds ((2 : UInt8) :: 1 :: 6 :: List.replicate 37 0), .firmwareXferDone]

/-- `accepted_in_order` on that run: the second frame is received and not yet published. -/
theorem accepted_in_order_twoReports :
    ∃ l o, wire.run twoReports = some (l, o) ∧ acceptedFrames o = [[2, 1, 7], [2, 1, 6]] ∧
      publishedIn o = [[2, 1, 7]] ∧ publishedIn o <+: acceptedFrames o := by
  obtain ⟨l, o, hrun, hacc, hpub⟩ : ∃ l o, wire.run twoReports = some (l, o) ∧
      acceptedFrames o = [[2, 1, 7], [2, 1, 6]] ∧ publishedIn o = [[2, 1, 7]] :=
    wire.exists_run (P := fun _ o => acceptedFrames o = [[2, 1, 7], [2, 1, 6]] ∧
      publishedIn o = [[2, 1, 7]]) (by decide +kernel)
  exact ⟨l, o, hrun, hacc, hpub, (accepted_in_order twoReports l o
    (Machine.along_of_alongFrom (by decide +kernel)) hrun).2.1 (by decide +kernel)⟩

/-- `accepted_events_arrive` after that run. -/
theorem accepted_events_arrive_twoReports :
    ∃ l o, wire.run twoReports = some (l, o) ∧ ∃ js l' o',
      wire.runFrom (l, o) js = some (l', o') ∧ l'.AtRest ∧
        ∃ n, Stutter n (publishedIn o') (acceptedFrames o) := by
  obtain ⟨l, o, hrun, -⟩ : ∃ l o, wire.run twoReports = some (l, o) ∧ True :=
    wire.exists_run (P := fun _ _ => True) (by decide +kernel)
  obtain ⟨⟨js, l', o', halong, hrun', hrest⟩, harrive⟩ := accepted_events_arrive twoReports l o
    (Machine.along_of_alongFrom (by decide +kernel)) hrun
  obtain ⟨n, -, hstutter⟩ := harrive js l' o' halong hrun' hrest
  exact ⟨l, o, hrun, js, l', o', hrun', hrest, n, hstutter⟩

end Gap.Bcp
