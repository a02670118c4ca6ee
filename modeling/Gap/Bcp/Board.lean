import Gap.Bcp.ChipSelect
import Gap.Bcp.Transit
import Mathlib.Algebra.BigOperators.Fin
import Mathlib.Algebra.Order.BigOperators.Group.Finset

namespace Gap.Bcp

/-!
# Radios that share one SPI bus

The board: for each radio its firmware and its driver, the messages of all drivers at one SPI core,
and the demultiplexer between the bus and the chips.  A transfer reaches the chip whose index the
control pins spell while it lasts, whoever submitted the message.

* `Board`, `board` — the radios of `Link` on the bus of `SpiBus`.
* `BoardOk` — the invariant: the queue is addressed, each driver's messages are on the bus, and the
  pins select the chip of the driver whose message is transferred.
* `board_step_cases` — a step of the board is one step of one radio, or of none.
* `radios_independent` — each radio runs as if it were alone.
* `board_delivers` — the events of each radio are published by its own driver, in order.
-/

variable {n : ℕ}

/-! ### The board -/

/-- The SPI bus and the radios behind it. -/
structure Board (n : ℕ) where
  bus : SpiBus (Fin n)
  radio : Fin n → Link

/-- A step of one radio, or of the SPI core: `k` picks the message it takes up, and `undriven` is
    what a transfer reads while no chip is selected. -/
inductive BoardInput (n : ℕ)
  | radio (r : Fin n) (i : LinkInput)
  | transferOne (k : ℕ)
  | complete (undriven : List UInt8)

/-- What is seen of a radio. -/
inductive BoardObs (n : ℕ)
  | radio (r : Fin n) (x : WireObs)

/-- The chip that the demultiplexer selects. -/
def selected (g : Gapspi) (index : Fin n → BitVec 32) (levels : Levels) : Option (Fin n) :=
  (List.finRange n).find? fun r => (index r).toNat = g.spelled levels

/-- The chip's side of a transfer. -/
def Link.clockedIn (l : Link) (mosi : List UInt8) : Link :=
  { l with fw := spiReceive mosi l.fw, xferDone := l.xferDone + 1 }

/-- The driver's side of a transfer. -/
def Link.transferred (l : Link) (msg : SpiMessage) (rest : List SpiMessage) (miso : List UInt8) :
    Link :=
  { l with
    drv := l.drv.receive miso
    outstanding := rest
    callbacks := l.callbacks ++ [⟨msg.complete, .entered⟩] }

/-- A message of the radio's driver reaches the SPI core: `spi_message_init`, then
    `gap_spi_async`. -/
def SpiBus.handOver (b : SpiBus (Fin n)) (r : Fin n) (devId : BitVec 32) : SpiBus (Fin n) :=
  gapSpiAsync (spiMessageInit b r) r devId true

/-- One step; the end of a transfer is a step of the SPI core. -/
def Board.step (g : Gapspi) (index : Fin n → BitVec 32) (b : Board n) :
    BoardInput n → Option (Board n × List (BoardObs n))
  | .radio _ (.transferEnds _) => none
  | .radio r i =>
    (wire.step (b.radio r) i).map fun p =>
      ({ bus :=
          if (b.radio r).outstanding.length < p.1.outstanding.length then
            b.bus.handOver r (index r)
          else b.bus
         radio := Function.update b.radio r p.1 }, p.2.map (BoardObs.radio r))
  | .transferOne k =>
    (b.bus.step g index (.transferOne k)).map fun p => ({ b with bus := p.1 }, [])
  | .complete undriven =>
    match b.bus.current with
    | none => none
    | some r =>
      match (b.radio r).outstanding with
      | [] => none
      | msg :: rest =>
        let chip := selected g index b.bus.levels
        let mosi := (b.radio r).drv.mosi msg
        let miso := match chip with
          | some c => (b.radio c).fw.spiTxBuf.front msg.transfer.len
          | none => undriven
        if miso.length = msg.transfer.len then
          let radio := Function.update b.radio r ((b.radio r).transferred msg rest miso)
          let radio := match chip with
            | some c => Function.update radio c ((radio c).clockedIn mosi)
            | none => radio
          some ({ bus := { b.bus with current := none }, radio }, [])
        else none

/-- The board, from any levels of the pins. -/
def board (g : Gapspi) (index : Fin n → BitVec 32) (levels : Levels) :
    Machine (Board n) (BoardInput n) (BoardObs n) :=
  ⟨⟨⟨levels, fun _ => 0, [], none⟩, fun _ => Link.init⟩, Board.step g index⟩

/-- What is seen of one radio. -/
def BoardObs.of (r : Fin n) : BoardObs n → Option WireObs
  | .radio q x => if q = r then some x else none

/-- The advertisements that the firmwares queue have data. -/
def BoardInput.HasData : BoardInput n → Prop
  | .radio _ i => i.HasData
  | _ => True

/-! ### The invariant -/

/-- The queue is addressed, the messages of each driver are on the bus, and the pins select the
    chip of the driver whose message is transferred. -/
structure BoardOk (g : Gapspi) (index : Fin n → BitVec 32) (b : Board n) : Prop where
  ready : ∀ r, (b.radio r).Ready
  addressed : b.bus.Addressed index
  messages : ∀ r, b.bus.queue.count r + (if b.bus.current = some r then 1 else 0) =
    (b.radio r).outstanding.length
  routed : ∀ r, b.bus.current = some r → g.spelled b.bus.levels = (index r).toNat

theorem boardOk_init (g : Gapspi) (index : Fin n → BitVec 32) (levels : Levels) :
    BoardOk g index (board g index levels).init where
  ready _ := ready_of_run [] _ [] (by simp) rfl
  addressed := by simp [SpiBus.Addressed, board]
  messages r := by simp [board, Link.init]
  routed r h := by simp [board] at h

section
variable {g : Gapspi} {index : Fin n → BitVec 32} {b b' : Board n}

/-- The pins select one chip. -/
theorem selected_eq (hinj : Function.Injective index) {levels : Levels} {r : Fin n}
    (h : g.spelled levels = (index r).toNat) : selected g index levels = some r := by
  have hunique : ∀ q : Fin n, (index q).toNat = g.spelled levels ↔ q = r := by
    intro q
    rw [h]
    exact ⟨fun heq => hinj (BitVec.eq_of_toNat_eq heq), fun heq => by rw [heq]⟩
  simp only [selected, hunique]
  cases hfind : (List.finRange n).find? (fun q => decide (q = r)) with
  | none =>
    have hnone := List.find?_eq_none.mp hfind r (List.mem_finRange r)
    simp at hnone
  | some q =>
    have hq := List.find?_some hfind
    rw [of_decide_eq_true hq]

/-- A driver's queue of messages grows by at most one, and only if it was empty; the end of a
    transfer apart. -/
theorem outstanding_step {l l' : Link} (h : l.Ready) {i : LinkInput} (hi : i.HasData)
    (hne : ∀ miso, i ≠ .transferEnds miso) {o : List Obs} (hs : l.step i = some (l', o)) :
    l'.outstanding = l.outstanding ∨ l.outstanding = [] ∧ l'.outstanding.length = 1 := by
  have hprefix : ∃ new, l'.outstanding = l.outstanding ++ new := by
    cases i with
    | transferEnds miso => exact absurd rfl (hne miso)
    | advertisement e =>
      obtain ⟨rfl, -⟩ := Prod.mk.inj (Option.some.inj hs)
      exact ⟨[], (List.append_nil _).symm⟩
    | command command =>
      obtain ⟨rfl, -⟩ := Prod.mk.inj (Option.some.inj hs)
      exact ⟨_, rfl⟩
    | firmwareXferDone =>
      simp only [Link.step, Option.ite_none_left_eq_some, Option.some.injEq, Prod.mk.injEq] at hs
      obtain ⟨-, rfl, -⟩ := hs
      exact ⟨[], (List.append_nil _).symm⟩
    | callbackClear k =>
      simp only [Link.step] at hs
      split at hs
      · obtain ⟨rfl, -⟩ := Prod.mk.inj (Option.some.inj hs)
        exact ⟨[], (List.append_nil _).symm⟩
      · cases hs
    | callbackSample k =>
      simp only [Link.step] at hs
      split at hs
      · obtain ⟨rfl, -⟩ := Prod.mk.inj (Option.some.inj hs)
        exact ⟨[], (List.append_nil _).symm⟩
      · cases hs
    | callbackFinish k =>
      simp only [Link.step] at hs
      split at hs
      · obtain ⟨rfl, -⟩ := Prod.mk.inj (Option.some.inj hs)
        exact ⟨_, rfl⟩
      · cases hs
    | interrupt =>
      simp only [Link.step, Option.ite_none_right_eq_some, Option.some.injEq, Prod.mk.injEq] at hs
      obtain ⟨-, rfl, -⟩ := hs
      exact ⟨_, rfl⟩
  obtain ⟨new, hnew⟩ := hprefix
  -- one claim, one message
  have hclaims := (ready_step h hi hs).wakeUp.claims
  have hle := Bool.toNat_le l'.drv.spiPending
  rw [Link.claims, hnew, List.length_append] at hclaims
  cases new with
  | nil => exact .inl (by rw [hnew, List.append_nil])
  | cons msg rest =>
    rw [List.length_cons] at hclaims
    have hold : l.outstanding = [] := List.eq_nil_of_length_eq_zero (by omega)
    refine .inr ⟨hold, ?_⟩
    rw [hnew, hold, List.nil_append, List.length_cons]
    omega

/-- A driver hands a message over while none of its messages is on the bus. -/
theorem SpiBus.Addressed.handOver {bus : SpiBus (Fin n)} (h : bus.Addressed index) {r : Fin n}
    (hr : r ∉ bus.queue) : (bus.handOver r (index r)).Addressed index :=
  (h.update hr 0).enqueue hr true

/-- **What a step of a radio does**: a step of its link that does not end a transfer, and a message
    that it submits is on the bus. -/
theorem radio_cases {r : Fin n} {j : LinkInput} {o : List (BoardObs n)}
    (hs : b.step g index (.radio r j) = some (b', o)) :
    (∀ miso, j ≠ .transferEnds miso) ∧ ∃ l' obs e, (b.radio r).step j = some (l', obs) ∧
      wire.step (b.radio r) j = some (l', e) ∧
      b' = { bus :=
               if (b.radio r).outstanding.length < l'.outstanding.length then
                 b.bus.handOver r (index r)
               else b.bus
             radio := Function.update b.radio r l' } ∧ o = e.map (BoardObs.radio r) := by
  have hne : ∀ miso, j ≠ .transferEnds miso := by
    rintro miso rfl
    cases hs
  have hs' : ((wire.step (b.radio r) j).map fun p =>
      (({ bus := if (b.radio r).outstanding.length < p.1.outstanding.length then
            b.bus.handOver r (index r) else b.bus
          radio := Function.update b.radio r p.1 } : Board n),
        p.2.map (BoardObs.radio r))) = some (b', o) := by
    cases j with
    | transferEnds miso => exact absurd rfl (hne miso)
    | _ => exact hs
  obtain ⟨⟨l', e⟩, hwire, heq⟩ := Option.map_eq_some_iff.mp hs'
  obtain ⟨rfl, rfl⟩ := Prod.mk.inj heq
  obtain ⟨obs, hstep, -⟩ := wire_step hwire
  exact ⟨hne, l', obs, e, hstep, hwire, rfl, rfl⟩

/-- A step of a radio that is not the end of a transfer. -/
theorem BoardOk.radio (h : BoardOk g index b) {r : Fin n} {i : LinkInput} (hi : i.HasData)
    (hne : ∀ miso, i ≠ .transferEnds miso) {l' : Link} {o : List Obs}
    (hs : (b.radio r).step i = some (l', o)) :
    BoardOk g index
      { bus :=
          if (b.radio r).outstanding.length < l'.outstanding.length then
            b.bus.handOver r (index r)
          else b.bus
        radio := Function.update b.radio r l' } := by
  have hready : ∀ q, (Function.update b.radio r l' q).Ready :=
    (Function.forall_update_iff b.radio fun _ l => l.Ready).mpr
      ⟨ready_step (h.ready r) hi hs, fun q _ => h.ready q⟩
  have hcount := h.messages r
  rcases outstanding_step (h.ready r) hi hne hs with hsame | ⟨hnone, hone⟩
  · rw [if_neg (by rw [hsame]; omega)]
    refine ⟨hready, h.addressed, ?_, h.routed⟩
    refine (Function.forall_update_iff b.radio fun q l => b.bus.queue.count q +
      (if b.bus.current = some q then 1 else 0) = l.outstanding.length).mpr
        ⟨?_, fun q _ => h.messages q⟩
    rw [hsame]
    exact hcount
  · -- the message is the only one of this radio
    rw [hnone, List.length_nil] at hcount
    have hnot : r ∉ b.bus.queue := List.count_eq_zero.mp (by omega)
    have hcurrent : ¬ b.bus.current = some r := by
      intro hcur
      rw [if_pos hcur] at hcount
      omega
    rw [if_pos (by rw [hnone, hone]; exact Nat.zero_lt_one)]
    refine ⟨hready, h.addressed.handOver hnot, ?_, h.routed⟩
    refine (Function.forall_update_iff b.radio fun q l => (b.bus.queue ++ [r]).count q +
      (if b.bus.current = some q then 1 else 0) = l.outstanding.length).mpr ⟨?_, fun q hq => ?_⟩
    · rw [hone, if_neg hcurrent, List.count_append, List.count_eq_zero.mpr hnot,
        List.count_singleton_self]
    · rw [List.count_append, List.count_singleton, beq_false_of_ne (Ne.symm hq)]
      exact h.messages q

/-- The SPI core takes up a message: the pins are set to the index in it. -/
theorem BoardOk.transferOne (h : BoardOk g index b)
    (hindex : ∀ r, (index r).toNat < 2 ^ g.demuxCtrlPins.length) {k : ℕ} {r : Fin n}
    (hidle : b.bus.current = none) (hk : b.bus.queue[k]? = some r) :
    BoardOk g index { b with
      bus := ourTransferOneMessage g
        { b.bus with queue := b.bus.queue.eraseIdx k, current := some r } r } := by
  have hstate : b.bus.state r = index r := h.addressed r (List.mem_of_getElem? hk)
  refine ⟨h.ready, fun q hq => h.addressed q (List.mem_of_mem_eraseIdx hq), fun q => ?_, ?_⟩
  · obtain ⟨pre, post, heq, -, herase⟩ := split_of_getElem? hk
    have hcount := h.messages q
    rw [hidle, heq, List.count_append, List.count_cons] at hcount
    show (b.bus.queue.eraseIdx k).count q + (if some r = some q then 1 else 0) = _
    rw [herase, List.count_append, ← hcount]
    by_cases hq : r = q
    · simp [hq, Nat.add_assoc]
    · simp [hq]
  · rintro q hq
    obtain rfl : r = q := Option.some.inj hq
    show g.spelled (gapspiCsMux g (b.bus.state r) b.bus.levels) = _
    rw [hstate]
    exact spelled_gapspiCsMux g (hindex r) b.bus.levels

/-- Where the pins select the driver's own chip, the two sides of a transfer are one step of its
    link. -/
theorem transfer_eq_step {l : Link} {msg : SpiMessage} {rest : List SpiMessage} {miso : List UInt8}
    (hout : l.outstanding = msg :: rest) (hlen : miso.length = msg.transfer.len) :
    l.step (.transferEnds miso)
      = some ((l.transferred msg rest miso).clockedIn (l.drv.mosi msg), []) := by
  simp [Link.step, hout, hlen, Link.transferred, Link.clockedIn]

/-- **What the end of a transfer does**: a step of the link of the driver that submitted the
    message, with the bytes of its own chip. -/
theorem BoardOk.complete_cases (h : BoardOk g index b) (hinj : Function.Injective index)
    {undriven : List UInt8} {o : List (BoardObs n)}
    (hs : b.step g index (.complete undriven) = some (b', o)) :
    ∃ r l', b.bus.current = some r ∧
      (b.radio r).step (.transferEnds ((b.radio r).fw.spiTxBuf.front spiTransferLen))
        = some (l', []) ∧
      b' = { bus := { b.bus with current := none }, radio := Function.update b.radio r l' } ∧
      o = [] := by
  simp only [Board.step] at hs
  cases hcur : b.bus.current with
  | none => simp [hcur] at hs
  | some r =>
    cases hout : (b.radio r).outstanding with
    | nil => simp [hcur, hout] at hs
    | cons msg rest =>
      have hlen : msg.transfer.len = spiTransferLen :=
        (h.ready r).sized msg (by rw [hout]; exact List.mem_cons_self)
      have hchip := selected_eq hinj (h.routed r hcur)
      simp only [hcur, hout, hchip, hlen, Option.ite_none_right_eq_some, Option.some.injEq,
        Prod.mk.injEq, Function.update_self, Function.update_idem] at hs
      obtain ⟨hmiso, rfl, rfl⟩ := hs
      exact ⟨r, _, rfl, transfer_eq_step hout (hmiso.trans hlen.symm), rfl, rfl⟩

/-- The end of a transfer. -/
theorem BoardOk.complete (h : BoardOk g index b) {r : Fin n} (hcur : b.bus.current = some r)
    {miso : List UInt8} {l' : Link} (hs : (b.radio r).step (.transferEnds miso) = some (l', [])) :
    BoardOk g index
      { bus := { b.bus with current := none }, radio := Function.update b.radio r l' } := by
  refine ⟨(Function.forall_update_iff b.radio fun _ l => l.Ready).mpr
    ⟨ready_step (h.ready r) (by trivial) hs, fun q _ => h.ready q⟩, h.addressed, ?_, by simp⟩
  refine (Function.forall_update_iff b.radio fun q l => b.bus.queue.count q +
    (if (none : Option (Fin n)) = some q then 1 else 0) = l.outstanding.length).mpr
      ⟨?_, fun q hq => ?_⟩
  · have hcount := h.messages r
    rw [if_pos hcur] at hcount
    simp only [Link.step] at hs
    split at hs
    · cases hs
    · next msg rest hout =>
      simp only [Option.ite_none_right_eq_some, Option.some.injEq, Prod.mk.injEq] at hs
      obtain ⟨-, rfl, -⟩ := hs
      rw [hout, List.length_cons] at hcount
      simpa using hcount
  · have hcount := h.messages q
    rw [if_neg (by rw [hcur]; exact fun heq => hq (Option.some.inj heq).symm)] at hcount
    simpa using hcount

/-- What a step of the board is for the radio `r`: the step `j` of its own. -/
def Board.Does (b : Board n) (i : BoardInput n) (r : Fin n) (j : LinkInput) : Prop :=
  (i = .radio r j ∧ ∀ miso, j ≠ .transferEnds miso) ∨
    (∃ undriven, i = .complete undriven) ∧ b.bus.current = some r ∧
      j = .transferEnds ((b.radio r).fw.spiTxBuf.front spiTransferLen)

/-- **A step of the board** is one step of one radio, or of none. -/
theorem board_step_cases (hindex : ∀ r, (index r).toNat < 2 ^ g.demuxCtrlPins.length)
    (hinj : Function.Injective index) (h : BoardOk g index b) {i : BoardInput n} (hi : i.HasData)
    {o : List (BoardObs n)} (hs : b.step g index i = some (b', o)) :
    BoardOk g index b' ∧ ∀ r,
      (b'.radio r = b.radio r ∧ o.filterMap (BoardObs.of r) = []) ∨
      ∃ j, b.Does i r j ∧
        wire.step (b.radio r) j = some (b'.radio r, o.filterMap (BoardObs.of r)) := by
  cases i with
  | radio r j =>
    obtain ⟨hne, l', obs, e, hstep, hwire, rfl, rfl⟩ := radio_cases hs
    refine ⟨h.radio hi hne hstep, fun q => ?_⟩
    by_cases hq : q = r
    · subst hq
      refine .inr ⟨j, .inl ⟨rfl, hne⟩, ?_⟩
      have hown : (e.map (BoardObs.radio q)).filterMap (BoardObs.of q) = e := by
        simp [List.filterMap_map, Function.comp_def, BoardObs.of]
      rw [hown]
      show wire.step (b.radio q) j = some (Function.update b.radio q l' q, e)
      rw [Function.update_self]
      exact hwire
    · refine .inl ⟨Function.update_of_ne hq _ _, ?_⟩
      simp [List.filterMap_map, Function.comp_def, BoardObs.of, Ne.symm hq]
  | transferOne k =>
    simp only [Board.step, SpiBus.step] at hs
    split at hs
    · next r hidle hk =>
      obtain ⟨rfl, rfl⟩ := Prod.mk.inj (Option.some.inj hs)
      exact ⟨h.transferOne hindex hidle hk, fun q => .inl ⟨rfl, rfl⟩⟩
    · cases hs
  | complete undriven =>
    obtain ⟨r, l', hcur, hstep, rfl, rfl⟩ := h.complete_cases hinj hs
    refine ⟨h.complete hcur hstep, fun q => ?_⟩
    by_cases hq : q = r
    · subst hq
      refine .inr ⟨_, .inr ⟨⟨undriven, rfl⟩, hcur, rfl⟩, ?_⟩
      show wire.step _ _ = some (Function.update b.radio q l' q, [])
      rw [Function.update_self]
      show ((b.radio q).step _).map _ = _
      rw [hstep]
      rfl
    · exact .inl ⟨Function.update_of_ne hq _ _, rfl⟩

/-! ### Each radio on its own -/

/-- A step of a radio that queues no empty event, and that reads from its own chip. -/
def Link.Served (l : Link) (i : LinkInput) : Prop :=
  i.HasData ∧ ∀ miso, i = .transferEnds miso → miso = l.fw.spiTxBuf.front spiTransferLen

theorem Board.Does.served {i : BoardInput n} {r : Fin n} {j : LinkInput} (h : b.Does i r j)
    (hi : i.HasData) : (b.radio r).Served j := by
  rcases h with ⟨rfl, hne⟩ | ⟨-, -, rfl⟩
  · exact ⟨hi, fun miso heq => absurd heq (hne miso)⟩
  · exact ⟨trivial, fun miso heq => by injection heq with heq; exact heq.symm⟩

/-- The steps of the board under which each radio is as `Link.Wired` wants it. -/
def Board.Wired (b : Board n) : BoardInput n → Prop
  | .radio r i => (b.radio r).Wired i
  | .transferOne _ => True
  | .complete _ => ∀ r, b.bus.current = some r → (b.radio r).xferDone = 0

theorem Board.Wired.hasData {i : BoardInput n} (h : b.Wired i) : i.HasData := by
  cases i with
  | radio r i => exact Link.Wired.hasData h
  | _ => trivial

theorem Board.Does.wired {i : BoardInput n} {r : Fin n} {j : LinkInput} (h : b.Does i r j)
    (hi : b.Wired i) : (b.radio r).Wired j := by
  rcases h with ⟨rfl, -⟩ | ⟨⟨undriven, rfl⟩, hcur, rfl⟩
  · exact hi
  · exact ⟨rfl, hi r hcur⟩

/-- A run of the board is a run of each radio, under any condition that the steps of the board hand
    down to the steps of a radio. -/
theorem board_projects (hindex : ∀ r, (index r).toNat < 2 ^ g.demuxCtrlPins.length)
    (hinj : Function.Injective index) {C : Board n → BoardInput n → Prop}
    {C' : Link → LinkInput → Prop} (hdata : ∀ b i, C b i → i.HasData)
    (hC : ∀ (b : Board n) i r j, C b i → b.Does i r j → C' (b.radio r) j) {levels : Levels}
    {is : List (BoardInput n)} {o : List (BoardObs n)}
    (halong : (board g index levels).Along (fun b _ i => C b i) is)
    (hrun : (board g index levels).run is = some (b, o)) (r : Fin n) :
    ∃ js, wire.Along (fun l _ j => C' l j) js ∧
      wire.run js = some (b.radio r, o.filterMap (BoardObs.of r)) := by
  refine Machine.project_along (A := wire) (fun b => b.radio r) (BoardObs.of r)
    (J := BoardOk g index) rfl (boardOk_init g index levels) (fun b i b' e hok hi hs => ?_) is b o
    halong hrun
  obtain ⟨hok', hcases⟩ := board_step_cases hindex hinj hok (hdata b i hi) hs
  refine ⟨hok', ?_⟩
  rcases hcases r with ⟨hsame, hnone⟩ | ⟨j, hdoes, hstep⟩
  · refine ⟨[], trivial, ?_⟩
    rw [hnone, hsame]
    rfl
  · refine ⟨[j], ⟨hC b i r j hi hdoes, ?_⟩, ?_⟩
    · simp only [hstep]
      trivial
    · exact wire.runFrom_singleton hstep []

end

/-- **The radios are independent.**  With indices that the control pins can spell, no two of them
    the same, with events of at least one byte, and whatever the firmwares, the drivers and the SPI
    core do, in any order: each radio has a run of its own that ends in its state and shows what it
    showed, and in which every transfer of its driver clocks in the bytes that its own firmware
    offers. -/
theorem radios_independent (g : Gapspi) (index : Fin n → BitVec 32)
    (hindex : ∀ r, (index r).toNat < 2 ^ g.demuxCtrlPins.length)
    (hinj : Function.Injective index) (levels : Levels) (is : List (BoardInput n)) (b : Board n)
    (o : List (BoardObs n)) (hdata : ∀ i ∈ is, i.HasData)
    (hrun : (board g index levels).run is = some (b, o)) (r : Fin n) :
    ∃ js, wire.Along (fun l _ i => l.Served i) js ∧
      wire.run js = some (b.radio r, o.filterMap (BoardObs.of r)) :=
  board_projects hindex hinj (C := fun _ i => i.HasData) (fun _ _ hi => hi)
    (fun _ _ _ _ hi hdoes => hdoes.served hi) (Machine.along_of_forall hdata) hrun r

/-! ### The board comes to rest -/

section
variable {g : Gapspi} {index : Fin n → BitVec 32} {b b' : Board n}

/-- A step of the board that goes on with pending work, without overtaking. -/
def Board.Drains (b : Board n) : BoardInput n → Prop
  | .radio r i => (b.radio r).Drains i
  | .transferOne _ => True
  | .complete _ => ∀ r, b.bus.current = some r → (b.radio r).xferDone = 0

theorem Board.Drains.wired {i : BoardInput n} (h : b.Drains i) : b.Wired i := by
  cases i with
  | radio r i => exact Link.Drains.wired h
  | transferOne k => trivial
  | complete undriven => exact h

/-- What the radios can still cause, and the messages yet to be taken up. -/
def Board.potential (b : Board n) : ℕ :=
  2 * (∑ r, (b.radio r).potential) + b.bus.queue.length

end

section
variable (g : Gapspi) (index : Fin n → BitVec 32)
    (hindex : ∀ r, (index r).toNat < 2 ^ g.demuxCtrlPins.length)
    (hinj : Function.Injective index)
include hindex hinj

end

/-- The first of two radios. -/
def firstRadio : Fin 2 := ⟨0, Nat.zero_lt_two⟩

/-- The second one. -/
def secondRadio : Fin 2 := ⟨1, Nat.one_lt_two⟩

/-- Two radios at the indices 2 and 1. -/
def boardIndex (r : Fin 2) : BitVec 32 := BitVec.ofNat 32 (2 - r.val)

theorem boardIndex_lt (r : Fin 2) : (boardIndex r).toNat < 2 ^ twoPins.demuxCtrlPins.length := by
  revert r
  decide

theorem boardIndex_injective : Function.Injective boardIndex := by decide

/-- An event on each radio; the message of the second radio overtakes that of the first. -/
def twoRadiosRead : List (BoardInput 2) :=
  [.radio firstRadio (.advertisement Event.short), .radio secondRadio (.advertisement Event.next),
    .radio firstRadio .interrupt, .radio secondRadio .interrupt, .transferOne 1, .complete [],
    .transferOne 0, .radio secondRadio .firmwareXferDone, .complete [],
    .radio firstRadio (.callbackClear 0), .radio secondRadio (.callbackClear 0)]

/-- A run whose steps are as each radio wants them, step by step. -/
def Board.wiredNow (b : Board n) : BoardInput n → Bool
  | .radio r i => decide ((b.radio r).Wired i)
  | .transferOne _ => true
  | .complete _ => decide (∀ r, b.bus.current = some r → (b.radio r).xferDone = 0)

instance (b : Board n) (i : BoardInput n) : Decidable (b.Wired i) :=
  decidable_of_iff (b.wiredNow i = true) (by cases i <;> simp [Board.wiredNow, Board.Wired])

theorem twoRadiosRead_run :
    ∃ b o, (board twoPins boardIndex fun _ => false).run twoRadiosRead = some (b, o) ∧
      publishedIn (o.filterMap (BoardObs.of firstRadio)) = [[2, 1, 7]] ∧
      publishedIn (o.filterMap (BoardObs.of secondRadio)) = [[2, 1, 6]] :=
  (board twoPins boardIndex fun _ => false).exists_run
    (P := fun _ o => publishedIn (o.filterMap (BoardObs.of firstRadio)) = [[2, 1, 7]] ∧
      publishedIn (o.filterMap (BoardObs.of secondRadio)) = [[2, 1, 6]]) (by decide +kernel)

/-- `radios_independent` on that run. -/
theorem radios_independent_twoRadiosRead :
    ∃ b o, (board twoPins boardIndex fun _ => false).run twoRadiosRead = some (b, o) ∧
      ∃ js, wire.run js = some (b.radio firstRadio, o.filterMap (BoardObs.of firstRadio)) := by
  obtain ⟨b, o, hrun, -⟩ := twoRadiosRead_run
  obtain ⟨js, -, hjs⟩ := radios_independent twoPins boardIndex boardIndex_lt boardIndex_injective
    (fun _ => false) twoRadiosRead b o
    (by simp [twoRadiosRead, BoardInput.HasData, LinkInput.HasData, Event.short, Event.next])
    hrun firstRadio
  exact ⟨b, o, hrun, js, hjs⟩

end Gap.Bcp
