import Gap.Lib.Machine
import Mathlib.Data.List.Nodup
import Mathlib.Data.Nat.Bitwise

namespace Gap.Bcp

/-!
# Chip select — `gapspi.c`

All radios share one SPI device; a demultiplexer, driven by up to three GPIO pins, routes its
chip select.  The index of the target is stored in the message when it is submitted and put on
the pins when the SPI core hands the message back for its transfer.

* `Gapspi` — the control pins `gapspi_spi_probe` has requested: pairwise different.
* `gapspiCsMux` — the loop over the pins; `spelled_gapspiCsMux` says what they spell after it.
* `spiBus` — radios submitting messages, and the SPI core taking them in any order.
* `chip_select_routes` — at each transfer the pins spell the index of the submitting radio.
-/

/-! ### The control pins -/

/-- The levels of the GPIO pins, by number. -/
abbrev Levels := ℕ → Bool

/-- `gpio_set_value`. -/
def gpioSetValue (levels : Levels) (pin : ℕ) (value : Bool) : Levels :=
  Function.update levels pin value

/-- The globals `num_demux_ctrl_pins` and `demux_ctrl_pins[3]` of a probed device. -/
structure Gapspi where
  demuxCtrlPins : List ℕ
  length_le : demuxCtrlPins.length ≤ 3
  nodup : demuxCtrlPins.Nodup

/-- The loop of `gapspi_spi_probe` over the pins still to request: `gpio i` is the pin the device
    tree names `csmuxi-gpio`, if it is valid; `devm_gpio_request_one` fails on a pin that is
    `taken`, or that an earlier round has requested. -/
def requestPins (gpio : ℕ → Option ℕ) (taken : ℕ → Bool) : ℕ → List ℕ → Option (List ℕ)
  | 0, pins => some pins
  | n + 1, pins =>
    match gpio pins.length with
    | none => none
    | some pin =>
      if taken pin ∨ pin ∈ pins then none else requestPins gpio taken n (pins ++ [pin])

/-- One pin for each round, and no pin twice. -/
theorem requestPins_spec {gpio : ℕ → Option ℕ} {taken : ℕ → Bool} {n : ℕ} {pins pins' : List ℕ}
    (h : requestPins gpio taken n pins = some pins') (hnodup : pins.Nodup) :
    pins'.length = pins.length + n ∧ pins'.Nodup := by
  induction n generalizing pins with
  | zero =>
    obtain rfl : pins = pins' := Option.some.inj h
    exact ⟨rfl, hnodup⟩
  | succ n ih =>
    rw [requestPins] at h
    cases hgpio : gpio pins.length with
    | none => simp [hgpio] at h
    | some pin =>
      simp only [hgpio] at h
      split at h
      · cases h
      · next hfree =>
        -- the pin requested in this round is a new one
        have hnew : pin ∉ pins := fun hmem => hfree (.inr hmem)
        have hnodup₁ : (pins ++ [pin]).Nodup := by
          rw [← List.concat_eq_append]
          exact List.Nodup.concat hnew hnodup
        obtain ⟨hlen, hnodup'⟩ := ih h hnodup₁
        refine ⟨?_, hnodup'⟩
        rw [hlen, List.length_append, List.length_singleton]
        omega

/-- The pins of `gapspi_spi_probe` with `num-csmux-pins = n`. -/
def gapspiSpiProbe (gpio : ℕ → Option ℕ) (taken : ℕ → Bool) (n : Fin 4) : Option Gapspi :=
  match h : requestPins gpio taken n [] with
  | none => none
  | some pins =>
    have hspec := requestPins_spec h List.nodup_nil
    some ⟨pins, by rw [hspec.1, List.length_nil]; omega, hspec.2⟩

/-! ### The loop over the pins -/

/-- The rounds of `gapspi_cs_mux` from `i` on. -/
def csMuxFrom (id : BitVec 32) : ℕ → List ℕ → Levels → Levels
  | _, [], levels => levels
  | i, pin :: pins, levels =>
    csMuxFrom id (i + 1) pins
      (if id &&& (1#32 <<< i) ≠ 0 then gpioSetValue levels pin true
        else gpioSetValue levels pin false)

/-- `gapspi_cs_mux`. -/
def gapspiCsMux (g : Gapspi) (id : BitVec 32) (levels : Levels) : Levels :=
  csMuxFrom id 0 g.demuxCtrlPins levels

/-- The number the control pins spell in binary, the first pin being its lowest bit. -/
def Gapspi.spelled (g : Gapspi) (levels : Levels) : ℕ :=
  Nat.ofBits fun i : Fin g.demuxCtrlPins.length => levels g.demuxCtrlPins[i]

/-- The mask of a round tests one bit. -/
theorem and_shiftLeft_ne_zero (id : BitVec 32) (i : ℕ) :
    id &&& (1#32 <<< i) ≠ 0 ↔ id.toNat.testBit i = true := by
  rw [← BitVec.twoPow_eq, BitVec.and_twoPow]
  show _ ↔ id.getLsbD i = true
  cases hbit : id.getLsbD i with
  | false => simp
  | true =>
    -- the mask itself has the bit set
    have hmask : BitVec.twoPow 32 i ≠ 0#32 := by
      intro hzero
      have hlt : i < 32 := BitVec.lt_of_getLsbD hbit
      have hset := congrArg (fun x : BitVec 32 => x.getLsbD i) hzero
      simp [hlt] at hset
    simp [hmask]

/-- A round sets its pin to the bit. -/
theorem csMuxFrom_cons (id : BitVec 32) (i pin : ℕ) (pins : List ℕ) (levels : Levels) :
    csMuxFrom id i (pin :: pins) levels =
      csMuxFrom id (i + 1) pins (gpioSetValue levels pin (id.toNat.testBit i)) := by
  rw [csMuxFrom]
  cases hbit : id.toNat.testBit i with
  | true => rw [if_pos ((and_shiftLeft_ne_zero id i).mpr hbit)]
  | false => rw [if_neg (by rw [and_shiftLeft_ne_zero, hbit]; decide)]

/-- Other pins keep their levels. -/
theorem csMuxFrom_of_notMem (id : BitVec 32) {i pin : ℕ} {pins : List ℕ} (h : pin ∉ pins)
    (levels : Levels) : csMuxFrom id i pins levels pin = levels pin := by
  induction pins generalizing i levels with
  | nil => rfl
  | cons p pins ih =>
    obtain ⟨hne, hmem⟩ := not_or.mp (mt List.mem_cons.mpr h)
    rw [csMuxFrom_cons, ih hmem]
    exact Function.update_of_ne hne _ _

/-- Each pin ends up at its bit: the rounds that follow do not touch it again. -/
theorem csMuxFrom_getElem (id : BitVec 32) {i : ℕ} {pins : List ℕ} (hnodup : pins.Nodup)
    (levels : Levels) {j : ℕ} (hj : j < pins.length) :
    csMuxFrom id i pins levels pins[j] = id.toNat.testBit (i + j) := by
  induction pins generalizing i j levels with
  | nil => exact absurd hj (Nat.not_lt_zero _)
  | cons p pins ih =>
    obtain ⟨hmem, hnodup⟩ := List.nodup_cons.mp hnodup
    rw [csMuxFrom_cons]
    cases j with
    | zero =>
      show csMuxFrom id (i + 1) pins _ p = _
      rw [csMuxFrom_of_notMem id hmem]
      exact Function.update_self _ _ _
    | succ j =>
      have hj' : j < pins.length := Nat.lt_of_succ_lt_succ hj
      show csMuxFrom id (i + 1) pins _ pins[j] = _
      rw [ih hnodup _ hj']
      congr 1
      omega

/-- **The loop spells its argument**, whatever the levels were. -/
theorem spelled_gapspiCsMux (g : Gapspi) {id : BitVec 32}
    (h : id.toNat < 2 ^ g.demuxCtrlPins.length) (levels : Levels) :
    g.spelled (gapspiCsMux g id levels) = id.toNat := by
  have hbits : (fun i : Fin g.demuxCtrlPins.length =>
      gapspiCsMux g id levels g.demuxCtrlPins[i]) = fun i => id.toNat.testBit i.val := by
    funext i
    have hpin := csMuxFrom_getElem id (i := 0) g.nodup levels i.isLt
    rw [Nat.zero_add] at hpin
    exact hpin
  rw [Gapspi.spelled, hbits, Nat.ofBits_testBit, Nat.mod_eq_of_lt h]

/-! ### Radios and the SPI core -/

section
variable {R : Type*}

/-- The radios' messages at the SPI core; each radio has one `spi_message`, which goes by the
    radio's name. -/
structure SpiBus (R : Type*) where
  levels : Levels
  /-- `state` of each message. -/
  state : R → BitVec 32
  /-- The messages handed to the SPI core and not yet taken up. -/
  queue : List R
  /-- The message in transfer. -/
  current : Option R

/-- The radio's message is at the SPI core. -/
def SpiBus.Outstanding (b : SpiBus R) (r : R) : Prop := r ∈ b.queue ∨ b.current = some r

instance [DecidableEq R] (b : SpiBus R) (r : R) : Decidable (b.Outstanding r) :=
  inferInstanceAs (Decidable (_ ∨ _))

/-- `spi_async` or `spi_sync`: the message is queued unless the call fails. -/
def SpiBus.enqueue (b : SpiBus R) (r : R) (queued : Bool) : SpiBus R :=
  if queued then { b with queue := b.queue ++ [r] } else b

variable [DecidableEq R]

/-- `spi_message_init`, which clears the whole message. -/
def spiMessageInit (b : SpiBus R) (r : R) : SpiBus R :=
  { b with state := Function.update b.state r 0 }

/-- `gap_spi_async`. -/
def gapSpiAsync (b : SpiBus R) (r : R) (devId : BitVec 32) (queued : Bool) : SpiBus R :=
  { b with state := Function.update b.state r devId }.enqueue r queued

/-- `gap_spi_sync`. -/
def gapSpiSync (b : SpiBus R) (r : R) (devId : BitVec 32) (queued : Bool) : SpiBus R :=
  { b with state := Function.update b.state r devId }.enqueue r queued

/-- `our_transfer_one_message` up to the call of `real_transfer_one_message`. -/
def ourTransferOneMessage (g : Gapspi) (b : SpiBus R) (r : R) : SpiBus R :=
  { b with levels := gapspiCsMux g (b.state r) b.levels }

/-- The steps of the radios and of the SPI core; `k` picks any queued message. -/
inductive SpiBusInput (R : Type*)
  | messageInit (r : R)
  | async (r : R) (queued : Bool)
  | sync (r : R) (queued : Bool)
  | transferOne (k : ℕ)
  | complete

/-- `real_transfer_one_message` is called for the radio's message, with the pins at `levels`. -/
inductive SpiBusObs (R : Type*)
  | transferred (r : R) (levels : Levels)

/-- One step; a radio touches its message only while that is not outstanding, and one message is
    transferred at a time. -/
def SpiBus.step (g : Gapspi) (index : R → BitVec 32) (b : SpiBus R) :
    SpiBusInput R → Option (SpiBus R × List (SpiBusObs R))
  | .messageInit r => if b.Outstanding r then none else some (spiMessageInit b r, [])
  | .async r queued =>
    if b.Outstanding r then none else some (gapSpiAsync b r (index r) queued, [])
  | .sync r queued =>
    if b.Outstanding r then none else some (gapSpiSync b r (index r) queued, [])
  | .transferOne k =>
    match b.current, b.queue[k]? with
    | none, some r =>
      let b := ourTransferOneMessage g { b with queue := b.queue.eraseIdx k, current := some r } r
      some (b, [.transferred r b.levels])
    | _, _ => none
  | .complete =>
    match b.current with
    | none => none
    | some _ => some ({ b with current := none }, [])

/-- Radios with the demux indices `index` on one SPI bus, from any levels of the pins. -/
def spiBus (g : Gapspi) (index : R → BitVec 32) (levels : Levels) :
    Machine (SpiBus R) (SpiBusInput R) (SpiBusObs R) :=
  ⟨⟨levels, fun _ => 0, [], none⟩, SpiBus.step g index⟩

/-! ### Routing -/

/-- Each queued message carries the index of its radio. -/
def SpiBus.Addressed (index : R → BitVec 32) (b : SpiBus R) : Prop :=
  ∀ r ∈ b.queue, b.state r = index r

/-- The pins spell the index of the radio whose message is transferred. -/
def Routed (g : Gapspi) (index : R → BitVec 32) : SpiBusObs R → Prop
  | .transferred r levels => g.spelled levels = (index r).toNat

/-- Writing the `state` of a message that is not queued leaves the queue addressed. -/
theorem SpiBus.Addressed.update {index : R → BitVec 32} {b : SpiBus R} (h : b.Addressed index) {r : R}
    (hr : r ∉ b.queue) (v : BitVec 32) :
    SpiBus.Addressed index { b with state := Function.update b.state r v } := by
  intro q hq
  have hne : q ≠ r := fun heq => hr (heq ▸ hq)
  rw [← h q hq]
  exact Function.update_of_ne hne _ _

/-- A submission with the radio's own index does too. -/
theorem SpiBus.Addressed.enqueue {index : R → BitVec 32} {b : SpiBus R} (h : b.Addressed index) {r : R}
    (hr : r ∉ b.queue) (queued : Bool) :
    SpiBus.Addressed index
      ({ b with state := Function.update b.state r (index r) }.enqueue r queued) := by
  cases queued with
  | false => exact h.update hr (index r)
  | true =>
    intro q hq
    rcases List.mem_append.mp hq with hq | hq
    · exact h.update hr (index r) q hq
    · rw [List.mem_singleton.mp hq]
      exact Function.update_self _ _ _

/-- **Step lemma.**  The queue stays addressed, and a transfer is routed. -/
theorem addressed_step {g : Gapspi} {index : R → BitVec 32}
    (hindex : ∀ r, (index r).toNat < 2 ^ g.demuxCtrlPins.length) {b b' : SpiBus R}
    (h : b.Addressed index) {i : SpiBusInput R} {e : List (SpiBusObs R)}
    (hs : b.step g index i = some (b', e)) :
    b'.Addressed index ∧ ∀ x ∈ e, Routed g index x := by
  have hfree : ∀ {r : R}, ¬ b.Outstanding r → r ∉ b.queue := fun hout hmem => hout (.inl hmem)
  cases i with
  | messageInit r =>
    simp only [SpiBus.step, Option.ite_none_left_eq_some, Option.some.injEq, Prod.mk.injEq] at hs
    obtain ⟨hout, rfl, rfl⟩ := hs
    exact ⟨h.update (hfree hout) 0, by simp⟩
  | async r queued =>
    simp only [SpiBus.step, Option.ite_none_left_eq_some, Option.some.injEq, Prod.mk.injEq] at hs
    obtain ⟨hout, rfl, rfl⟩ := hs
    exact ⟨h.enqueue (hfree hout) queued, by simp⟩
  | sync r queued =>
    simp only [SpiBus.step, Option.ite_none_left_eq_some, Option.some.injEq, Prod.mk.injEq] at hs
    obtain ⟨hout, rfl, rfl⟩ := hs
    exact ⟨h.enqueue (hfree hout) queued, by simp⟩
  | transferOne k =>
    simp only [SpiBus.step] at hs
    split at hs
    · next r hcurrent hk =>
      obtain ⟨rfl, rfl⟩ := Prod.mk.inj (Option.some.inj hs)
      refine ⟨fun q hq => h q (List.mem_of_mem_eraseIdx hq), ?_⟩
      rintro x hx
      obtain rfl := List.mem_singleton.mp hx
      -- the message taken up was queued, so its `state` is the index of its radio
      have hstate : b.state r = index r := h r (List.mem_of_getElem? hk)
      show g.spelled (gapspiCsMux g (b.state r) b.levels) = _
      rw [hstate]
      exact spelled_gapspiCsMux g (hindex r) b.levels
    · cases hs
  | complete =>
    simp only [SpiBus.step] at hs
    split at hs
    · cases hs
    · obtain ⟨rfl, rfl⟩ := Prod.mk.inj (Option.some.inj hs)
      exact ⟨h, by simp⟩

/-- **Routing.**  In every run, at every transfer, the demux pins spell in binary exactly the
    index of the radio that submitted the message. -/
theorem chip_select_routes (g : Gapspi) (index : R → BitVec 32)
    (hindex : ∀ r, (index r).toNat < 2 ^ g.demuxCtrlPins.length) (levels : Levels)
    (is : List (SpiBusInput R)) (b : SpiBus R) (o : List (SpiBusObs R))
    (hrun : (spiBus g index levels).run is = some (b, o)) :
    ∀ r l, .transferred r l ∈ o → g.spelled l = (index r).toNat := by
  have hrouted : b.Addressed index ∧ ∀ x ∈ o, Routed g index x := by
    refine Machine.run_induct
      (P := fun _ b o => SpiBus.Addressed index b ∧ ∀ x ∈ o, Routed g index x)
      ⟨by simp [SpiBus.Addressed, spiBus], by simp⟩ ?_ is b o hrun
    rintro - i b o b' e - ⟨hqueue, ho⟩ hs
    obtain ⟨hqueue', he⟩ := addressed_step hindex hqueue hs
    exact ⟨hqueue', fun x hx => (List.mem_append.mp hx).elim (ho x) (he x)⟩
  exact fun r l hmem => hrouted.2 _ hmem

end

/-- Two control pins. -/
def twoPins : Gapspi := ⟨[7, 9], by decide, by decide⟩

/-- Two radios, at the indices 2 and 1. -/
def twoRadios : Bool → BitVec 32
  | false => 2
  | true => 1

/-- The second radio overtakes the first. -/
def overtaken : List (SpiBusInput Bool) :=
  [.messageInit false, .async false true, .sync true true, .transferOne 1, .complete,
    .transferOne 0]

/-- `chip_select_routes` on that run, from high pins. -/
theorem chip_select_routes_overtaken :
    ∃ b o, (spiBus twoPins twoRadios fun _ => true).run overtaken = some (b, o) ∧ o.length = 2 ∧
      ∀ r l, .transferred r l ∈ o → twoPins.spelled l = (twoRadios r).toNat := by
  obtain ⟨b, o, hrun, hlen⟩ :
      ∃ b o, (spiBus twoPins twoRadios fun _ => true).run overtaken = some (b, o) ∧
        o.length = 2 :=
    (spiBus twoPins twoRadios fun _ => true).exists_run (by decide +kernel)
  exact ⟨b, o, hrun, hlen,
    chip_select_routes twoPins twoRadios (by decide) (fun _ => true) overtaken b o hrun⟩

end Gap.Bcp
