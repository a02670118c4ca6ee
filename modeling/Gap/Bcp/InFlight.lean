import Gap.Bcp.Delivery

namespace Gap.Bcp

open Outbox

/-!
# Transfers under way

A transfer has a start, at which the SPI slave takes the bytes it will clock out, and a later
end, at which `SPI_SLAVE_XFER_DONE` is raised.  Events may arrive in between.  An event that is
loaded in between is not in the bytes clocked out, and the end of the transfer drops it.

* `Bus`, `bus` — the firmware and the transfer under way.
* `unclocked` — the frame loaded last, until it has been clocked out whole.
* `frame_clocked_before_reuse` — no frame is replaced unread as long as no event is loaded
  during a transfer and no transfer is shorter than the frame on offer.
-/

/-! ### The SPI bus -/

/-- The firmware, and the contents `spi_tx_buf` had when chip select was asserted. -/
structure Bus where
  fw : Firmware
  transfer : Option (Buf 64)

/-- An event arrives, or the host's transfer starts or ends. -/
inductive BusInput
  | arrive (e : Event)
  | xferStart
  | xferEnd (mosi : List UInt8)

/-- What the firmware shows, and the bytes the host receives. -/
inductive BusObs
  | firmware (o : Obs)
  | clocked (miso : List UInt8)

/-- One step of the bus; a transfer clocks out as many bytes as it clocks in. -/
def Bus.step (s : Bus) : BusInput → Option (Bus × List BusObs)
  | .arrive e =>
    let (fw, o) := (Input.add e).handle s.fw
    some ({ s with fw }, o.map .firmware)
  | .xferStart =>
    if s.transfer.isSome then none
    else some ({ s with transfer := some s.fw.spiTxBuf }, [])
  | .xferEnd mosi =>
    match s.transfer with
    | none => none
    | some tx =>
      let (fw, o) := (Input.xferDone mosi).handle s.fw
      some (⟨fw, none⟩, .clocked (tx.front mosi.length) :: o.map .firmware)

/-- The bus as a machine. -/
def bus : Machine Bus BusInput BusObs := ⟨⟨Firmware.init, none⟩, Bus.step⟩

/-- The events that arrive are between 1 and 62 bytes long. -/
def BusInput.Fits : BusInput → Prop
  | .arrive e => 1 ≤ e.data.length ∧ e.data.length ≤ 62
  | _ => True

/-! ### The firmware's part of a run -/

/-- The firmware's part of a trace. -/
def firmwareObs : List BusObs → List Obs :=
  List.filterMap fun | .firmware o => some o | .clocked _ => none

theorem firmwareObs_map (o : List Obs) : firmwareObs (o.map .firmware) = o := by
  simp [firmwareObs, List.filterMap_map]

theorem firmwareObs_clocked (miso : List UInt8) (o : List BusObs) :
    firmwareObs (.clocked miso :: o) = firmwareObs o := rfl

/-- The firmware's part of a run of the bus is a run of the firmware. -/
theorem firmware_run_of_bus (is : List BusInput) (s : Bus) (o : List BusObs)
    (hfit : ∀ i ∈ is, i.Fits) (hrun : bus.run is = some (s, o)) :
    ∃ js, (∀ j ∈ js, j.Fits) ∧ firmware.run js = some (s.fw, firmwareObs o) := by
  refine Machine.project Bus.fw _ rfl ?_ is s o hfit hrun
  intro s i s' e hi hs
  show ∃ js, _ ∧ _ = some (_, firmwareObs e)
  cases i with
  | arrive ev =>
    obtain ⟨rfl, rfl⟩ := Prod.mk.inj (Option.some.inj hs)
    refine ⟨[.add ev], fun j hj => by rw [List.mem_singleton.mp hj]; exact hi, ?_⟩
    rw [firmwareObs_map]
    exact firmware_runFrom _ _
  | xferStart =>
    simp only [bus, Bus.step] at hs
    split at hs
    · cases hs
    · obtain ⟨rfl, rfl⟩ := Prod.mk.inj (Option.some.inj hs)
      exact ⟨[], by simp, rfl⟩
  | xferEnd mosi =>
    simp only [bus, Bus.step] at hs
    split at hs
    · cases hs
    · next t ht =>
      obtain ⟨rfl, rfl⟩ := Prod.mk.inj (Option.some.inj hs)
      refine ⟨[.xferDone mosi], by simp [Input.Fits], ?_⟩
      rw [firmwareObs_clocked, firmwareObs_map]
      exact firmware_runFrom _ _

/-! ### Frames not clocked out yet -/

/-- The frame not clocked out yet, after one more output. -/
def unclockedNext (u : Option (Buf 64)) : BusObs → Option (Buf 64)
  | .clocked miso => u.filter fun tx => !(frameIn tx).isPrefixOf miso
  | .firmware (.loaded tx) => some tx
  | .firmware _ => u

/-- The buffer loaded last, unless its frame has been clocked out whole since. -/
def unclocked (o : List BusObs) : Option (Buf 64) := o.foldl unclockedNext none

/-- The outputs at which `spi_tx_buf` is loaded with a further frame or `buffer_full` is
    cleared. -/
def BusObs.Reuses : BusObs → Prop
  | .firmware (.loaded _) => True
  | .firmware .emptied => True
  | _ => False

instance : (x : BusObs) → Decidable x.Reuses
  | .firmware (.loaded _) => isTrue trivial
  | .firmware .emptied => isTrue trivial
  | .firmware (.accepted _) => isFalse id
  | .firmware (.refused _) => isFalse id
  | .firmware .acked => isFalse id
  | .clocked _ => isFalse id

/-- Whenever the buffer is loaded or released, the outputs before leave no loaded frame that
    has not been clocked out whole. -/
def ClockedBeforeReuse (o : List BusObs) : Prop :=
  ∀ k (h : k < o.length), o[k].Reuses → unclocked (o.take k) = none

instance (o : List BusObs) : Decidable (ClockedBeforeReuse o) :=
  inferInstanceAs (Decidable (∀ k (h : k < o.length), o[k].Reuses → unclocked (o.take k) = none))

theorem clockedBeforeReuse_nil : ClockedBeforeReuse [] := by
  intro k h
  cases h

/-- One more output is safe if it does not reuse a buffer that is still to be clocked out. -/
theorem ClockedBeforeReuse.concat {o : List BusObs} (h : ClockedBeforeReuse o) {x : BusObs}
    (hx : x.Reuses → unclocked o = none) : ClockedBeforeReuse (o ++ [x]) := by
  intro k hk hr
  -- the place is one of the old ones, or the last
  rcases Nat.lt_or_ge k o.length with hlt | hge
  · rw [List.getElem_append_left hlt] at hr
    rw [List.take_append_of_le_length hlt.le]
    exact h k hlt hr
  · have hlast : k = o.length := by
      rw [List.length_append, List.length_singleton] at hk
      omega
    subst hlast
    rw [List.getElem_concat_length rfl] at hr
    rw [List.take_left]
    exact hx hr

theorem unclocked_concat (o : List BusObs) (x : BusObs) :
    unclocked (o ++ [x]) = unclockedNext (unclocked o) x := by
  rw [unclocked, List.foldl_append]
  rfl

/-! ### Undisturbed transfers -/

/-- No event is loaded into a free buffer while a transfer is under way, and a transfer is not
    shorter than the frame on offer. -/
def Undisturbed (s : Bus) (_ : List BusObs) : BusInput → Prop
  | .arrive _ => s.transfer.isSome = true → s.fw.bufferFull = true
  | .xferStart => True
  | .xferEnd mosi => s.fw.bufferFull = true → (frameIn s.fw.spiTxBuf).length ≤ mosi.length

instance (s : Bus) (o : List BusObs) : (i : BusInput) → Decidable (Undisturbed s o i)
  | .arrive _ => inferInstanceAs (Decidable (_ → _))
  | .xferStart => isTrue trivial
  | .xferEnd _ => inferInstanceAs (Decidable (_ → _))

/-- The invariant of an undisturbed run: the frame to be clocked out is the one on offer, and
    the transfer under way took it. -/
structure Clocked (s : Bus) (o : List BusObs) : Prop where
  safe : ClockedBeforeReuse o
  unclocked : unclocked o = s.fw.onOffer
  taken : ∀ tx ∈ s.transfer, s.fw.bufferFull = true → tx = s.fw.spiTxBuf

/-- An arrival keeps the invariant. -/
theorem clocked_arrive {s : Bus} {o : List BusObs} (h : Clocked s o) (e : Event)
    (hC : s.transfer.isSome = true → s.fw.bufferFull = true) :
    Clocked { s with fw := (interruptEventQueueAdd e s.fw).2.1 }
      (o ++ (interruptEventQueueAdd e s.fw).2.2.map .firmware) := by
  -- being accepted or refused neither reuses the buffer nor clocks anything out
  have hquiet : ∀ x : Obs, ¬ (BusObs.firmware x).Reuses → unclockedNext (unclocked o) (.firmware x)
      = unclocked o → ClockedBeforeReuse (o ++ [BusObs.firmware x]) ∧
        unclocked (o ++ [BusObs.firmware x]) = s.fw.onOffer := by
    intro x hx hkeep
    exact ⟨h.safe.concat fun hr => absurd hr hx, by rw [unclocked_concat, hkeep, h.unclocked]⟩
  obtain ⟨hsafe, hacc⟩ := hquiet (.accepted e) id rfl
  rcases interruptEventQueueAdd_cases e s.fw with heq | ⟨ho, hkeep⟩ | ⟨hfree, tx, ho, hload⟩
  · rw [heq]
    obtain ⟨hsafe, href⟩ := hquiet (.refused e) id rfl
    exact ⟨hsafe, href, h.taken⟩
  · rw [ho]
    refine ⟨hsafe, hacc.trans hkeep.symm, ?_⟩
    intro tx htx hfull
    rw [Firmware.onOffer_of_bufferFull hfull] at hkeep
    obtain ⟨hf, hbuf⟩ := Firmware.bufferFull_of_onOffer hkeep.symm
    rw [h.taken tx htx hf]
    exact hbuf
  · -- the buffer was free, so no transfer is under way
    have hnone : s.transfer = none := by
      cases ht : s.transfer with
      | none => rfl
      | some t =>
        rw [Firmware.onOffer_of_bufferFull (hC (by rw [ht]; rfl))] at hfree
        cases hfree
    have hsplit : o ++ List.map BusObs.firmware [.accepted e, .loaded tx]
        = o ++ [BusObs.firmware (.accepted e)] ++ [BusObs.firmware (.loaded tx)] := by simp
    rw [ho, hsplit]
    refine ⟨hsafe.concat fun _ => hacc.trans hfree, ?_, ?_⟩
    · rw [unclocked_concat]
      exact hload.symm
    · intro tx' htx'
      rw [show s.transfer = none from hnone] at htx'
      cases htx'

/-- With the last frame clocked out, the buffer is reused behind an acknowledgement. -/
theorem ClockedBeforeReuse.acked {o : List BusObs} (h : ClockedBeforeReuse o)
    (hnone : unclocked o = none) (x : Obs) :
    ClockedBeforeReuse (o ++ [BusObs.firmware .acked] ++ [BusObs.firmware x]) ∧
      unclocked (o ++ [BusObs.firmware .acked] ++ [BusObs.firmware x])
        = unclockedNext none (.firmware x) := by
  have hacked : unclocked (o ++ [BusObs.firmware .acked]) = none := by
    rw [unclocked_concat]
    exact hnone
  have hsafe : ClockedBeforeReuse (o ++ [BusObs.firmware .acked]) :=
    h.concat fun hr => False.elim hr
  refine ⟨hsafe.concat fun _ => hacked, ?_⟩
  rw [unclocked_concat, hacked]

/-- The end of a transfer that took the frame on offer, and was long enough for it, keeps the
    invariant. -/
theorem clocked_xferEnd {s : Bus} {o : List BusObs} (h : Clocked s o) {t : Buf 64}
    (ht : s.transfer = some t) (mosi : List UInt8)
    (hC : s.fw.bufferFull = true → (frameIn s.fw.spiTxBuf).length ≤ mosi.length) :
    Clocked ⟨((Input.xferDone mosi).handle s.fw).1, none⟩
      (o ++ BusObs.clocked (t.front mosi.length) ::
        ((Input.xferDone mosi).handle s.fw).2.map BusObs.firmware) := by
  -- the frame on offer is the one the transfer took, and it was long enough for it
  have hclocked : unclocked (o ++ [BusObs.clocked (t.front mosi.length)]) = none := by
    rw [unclocked_concat, h.unclocked]
    show Option.filter _ s.fw.onOffer = none
    cases hoff : s.fw.onOffer with
    | none => rfl
    | some tx =>
      obtain ⟨hf, hbuf⟩ := Firmware.bufferFull_of_onOffer hoff
      have htaken : t = tx := (h.taken t ht hf).trans hbuf
      have hprefix : frameIn tx <+: tx.front mosi.length :=
        tx.front_prefix_front (hbuf ▸ hC hf)
      rw [htaken]
      simp [Option.filter, hprefix]
  have hsafe : ClockedBeforeReuse (o ++ [BusObs.clocked (t.front mosi.length)]) :=
    h.safe.concat fun hr => False.elim hr
  -- both branches of the handler first acknowledge, then reuse the buffer
  have hsplit : ∀ x : Obs,
      o ++ BusObs.clocked (t.front mosi.length) :: [Out.acked, x].map BusObs.firmware
        = o ++ [BusObs.clocked (t.front mosi.length)] ++ [BusObs.firmware .acked]
          ++ [BusObs.firmware x] := by
    intro x
    simp
  have hcases := xferDone_cases (spiReceive mosi s.fw)
  rw [Input.handle]
  generalize spiSlaveEventHandle .xferDone (spiReceive mosi s.fw) = x at hcases ⊢
  rcases hcases with ⟨tx, ho, hload⟩ | ⟨ho, hfree⟩
  · obtain ⟨hs, hu⟩ := hsafe.acked hclocked (.loaded tx)
    rw [ho, hsplit]
    exact ⟨hs, hu.trans hload.symm, fun _ hnone => by cases hnone⟩
  · obtain ⟨hs, hu⟩ := hsafe.acked hclocked .emptied
    rw [ho, hsplit]
    exact ⟨hs, hu.trans hfree.symm, fun _ hnone => by cases hnone⟩

/-- **Run lemma.**  The invariant holds after every undisturbed run. -/
theorem clocked_of_run (is : List BusInput) (s : Bus) (o : List BusObs)
    (hC : bus.Along Undisturbed is) (hrun : bus.run is = some (s, o)) : Clocked s o := by
  refine Machine.run_induct_along (P := fun _ s o => Clocked s o)
    ⟨clockedBeforeReuse_nil, rfl, fun tx htx => by cases htx⟩ ?_ is s o hC hrun
  intro _ i s o s' e _ h hCi hs
  cases i with
  | arrive ev =>
    obtain ⟨rfl, rfl⟩ := Prod.mk.inj (Option.some.inj hs)
    exact clocked_arrive h ev hCi
  | xferStart =>
    simp only [bus, Bus.step] at hs
    split at hs
    · cases hs
    · obtain ⟨rfl, rfl⟩ := Prod.mk.inj (Option.some.inj hs)
      rw [List.append_nil]
      exact ⟨h.safe, h.unclocked, fun tx htx _ => (Option.some.inj htx).symm⟩
  | xferEnd mosi =>
    simp only [bus, Bus.step] at hs
    split at hs
    · cases hs
    · next t ht =>
      obtain ⟨rfl, rfl⟩ := Prod.mk.inj (Option.some.inj hs)
      exact clocked_xferEnd h ht mosi hCi

/-! ### Nothing is lost -/

/-- **No accepted event is lost to a transfer under way.**  In every run in which no event is
    loaded while a transfer is under way and no transfer is shorter than the frame on offer: the
    accepted events are loaded in order and the others are queued, and every frame loaded is
    clocked out whole before the buffer is loaded again or released. -/
theorem frame_clocked_before_reuse (is : List BusInput) (s : Bus) (o : List BusObs)
    (hfit : ∀ i ∈ is, i.Fits) (hC : bus.Along Undisturbed is) (hrun : bus.run is = some (s, o)) :
    (Out.loadedItems (firmwareObs o)).map frameIn
        = ((Out.acceptedItems (firmwareObs o)).take
            (Out.loadedItems (firmwareObs o)).length).map Event.frame ∧
      List.Forall₂ Holds s.fw.eventQueue.pending
        ((Out.acceptedItems (firmwareObs o)).drop (Out.loadedItems (firmwareObs o)).length) ∧
      ClockedBeforeReuse o := by
  obtain ⟨js, hjs, hfw⟩ := firmware_run_of_bus is s o hfit hrun
  obtain ⟨hframes, hwaiting⟩ := delivery_of_run js s.fw (firmwareObs o) hjs hfw
  exact ⟨hframes, hwaiting, (clocked_of_run is s o hC hrun).safe⟩

/-- An event, and a transfer that reads it while another event arrives. -/
def arrivalBehind : List BusInput :=
  [.arrive .short, .xferStart, .arrive ⟨1, [8], by decide⟩,
    .xferEnd (List.replicate 40 1)]

/-- `frame_clocked_before_reuse` on that run. -/
theorem frame_clocked_before_reuse_arrivalBehind :
    ∃ s o, bus.run arrivalBehind = some (s, o) ∧ s.fw.bufferFull = true ∧ ClockedBeforeReuse o := by
  obtain ⟨s, o, hrun, hfull⟩ :
      ∃ s o, bus.run arrivalBehind = some (s, o) ∧ s.fw.bufferFull = true :=
    bus.exists_run (by decide +kernel)
  refine ⟨s, o, hrun, hfull, ?_⟩
  exact (frame_clocked_before_reuse arrivalBehind s o (by simp [arrivalBehind, BusInput.Fits, Event.short])
    (Machine.along_of_alongFrom (by decide +kernel)) hrun).2.2

/-- An event that arrives while an idle transfer is under way is dropped by its end. -/
theorem arrival_during_transfer_lost :
    ∃ s o, bus.run [.xferStart, .arrive .short, .xferEnd (List.replicate 40 1)]
        = some (s, o) ∧
      Out.acceptedItems (firmwareObs o) = [.short] ∧
      s.fw.eventQueue.pending = [] ∧ s.fw.bufferFull = false ∧ ¬ ClockedBeforeReuse o :=
  bus.exists_run (by decide +kernel)

end Gap.Bcp
