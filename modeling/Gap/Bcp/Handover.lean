import Gap.Bcp.WakeUp

namespace Gap.Bcp

/-!
# Transfers that do not start

Two calls can fail on the way to a transfer: `copy_from_user` in the ioctl, and `gap_spi_async`
behind both paths of the driver.  The first failure is reported to user space as success, the
second one is not looked at, and then nobody gives the claim on the SPI buffer back.

* `handOver` — a path whose `gap_spi_async` has a result; `nrf51822IoctlSimpleCommand`.
* `channel` — calls of the driver with any results, transfers and callbacks.
* `Honest` — the ioctl returns 0 exactly if its command was handed over, and a call that hands
  nothing over leaves `spi_pending` as it was.
* `honest_and_usable` — the runs on which the calls are honest and the driver stays usable.
-/

/-! ### Calls that can fail -/

/-- A path of the driver, once its `gap_spi_async` has returned `result`: 0, or a negative error,
    with which the message is not queued.  No path looks at the result. -/
def handOver (result : ℤ) (r : Driver × Option SpiMessage) : Driver × Option SpiMessage :=
  if result = 0 then r else (r.1, none)

/-- `EINTR`. -/
def eintr : ℤ := 4

/-- `nrf51822_ioctl_simple_command`: `copy_from_user` has left `left` bytes uncopied, the others
    make `ldata.command`. -/
def nrf51822IoctlSimpleCommand (left : ℕ) (command : UInt8) (result : ℤ) (dev : Driver) :
    ℤ × Driver × Option SpiMessage :=
  -- "an error occurred a command"
  if left ≠ 0 then (0, dev, none)
  else
    match nrf51822IssueSimpleCommand command dev with
    | (.issued, r) => (0, handOver result r)
    | (.eintr, r) => (-eintr, handOver result r)

/-! ### The driver and its messages -/

/-- The driver, its messages at the SPI core, and the callbacks in progress. -/
structure Channel where
  drv : Driver
  outstanding : List SpiMessage
  callbacks : List Callback

/-- A call with the results it meets, or a step of a transfer; `k` picks a callback. -/
inductive ChannelInput
  | ioctl (left : ℕ) (command : UInt8) (result : ℤ)
  | interrupt (result : ℤ)
  | transferEnds (j : ℕ) (miso : List UInt8)
  | callbackClear (k : ℕ)
  | checkIrq (k : ℕ) (line : Bool) (result : ℤ)

/-- What a call has done: whether it handed a message over, and `spi_pending` before and after. -/
inductive ChannelObs
  | ioctl (returned : ℤ) (handed : Bool) (before after : Bool)
  | readIrq (handed : Bool) (before after : Bool)

/-- A path has run. -/
def Channel.submit (c : Channel) (r : Driver × Option SpiMessage) : Channel :=
  { c with drv := r.1, outstanding := c.outstanding ++ r.2.toList }

/-- One step. -/
def Channel.step (c : Channel) : ChannelInput → Option (Channel × List ChannelObs)
  | .ioctl left command result =>
    let (returned, r) := nrf51822IoctlSimpleCommand left command result c.drv
    some (c.submit r, [.ioctl returned r.2.isSome c.drv.spiPending r.1.spiPending])
  | .interrupt result =>
    let r := handOver result (nrf51822InterruptHandler c.drv)
    some (c.submit r, [.readIrq r.2.isSome c.drv.spiPending r.1.spiPending])
  | .transferEnds j miso =>
    match c.outstanding[j]? with
    | none => none
    | some msg =>
      some ({ c with
        drv := c.drv.receive miso
        outstanding := c.outstanding.eraseIdx j
        callbacks := c.callbacks ++ [⟨msg.complete, .entered⟩] }, [])
  | .callbackClear k =>
    match c.callbacks[k]? with
    | some ⟨complete, .entered⟩ =>
      some ({ c with
        drv := clearSpiPending (complete.done c.drv).1
        callbacks := c.callbacks.set k ⟨complete, .cleared⟩ }, [])
    | _ => none
  | .checkIrq k line result =>
    match c.callbacks[k]? with
    | some ⟨_, .cleared⟩ =>
      let r := handOver result (nrf51822CheckIrq line c.drv)
      some ({ c with callbacks := c.callbacks.eraseIdx k }.submit r,
        [.readIrq r.2.isSome c.drv.spiPending r.1.spiPending])
    | _ => none

/-- The driver as a machine. -/
def channel : Machine Channel ChannelInput ChannelObs := ⟨⟨Driver.init, [], []⟩, Channel.step⟩

/-- A call tells the truth: the ioctl returns 0 exactly if its command was handed over, and without
    a message handed over `spi_pending` is what it was. -/
def Honest (_ : List ChannelObs) : ChannelObs → Prop
  | .ioctl returned handed before after =>
    (returned = 0 ↔ handed = true) ∧ (handed = false → after = before)
  | .readIrq handed before after => handed = false → after = before

/-- `spi_pending` is only true while a message is outstanding or its callback has yet to clear
    it. -/
def Usable (c : Channel) : Prop :=
  c.drv.spiPending = true → c.outstanding ≠ [] ∨ ∃ cb ∈ c.callbacks, cb.stage = .entered

/-- `copy_from_user` succeeds, and so does `gap_spi_async` for a path that gets the claim. -/
def Starts (c : Channel) (_ : List ChannelObs) : ChannelInput → Prop
  | .ioctl left _ result => left = 0 ∧ (c.drv.spiPending = false → result = 0)
  | .interrupt result => c.drv.spiPending = false → result = 0
  | .transferEnds _ _ => True
  | .callbackClear _ => True
  | .checkIrq _ line result => line = true → c.drv.spiPending = false → result = 0

instance (c : Channel) (o : List ChannelObs) : (i : ChannelInput) → Decidable (Starts c o i)
  | .ioctl _ _ _ => inferInstanceAs (Decidable (_ ∧ _))
  | .interrupt _ => inferInstanceAs (Decidable (_ → _))
  | .transferEnds _ _ => isTrue trivial
  | .callbackClear _ => isTrue trivial
  | .checkIrq _ _ _ => inferInstanceAs (Decidable (_ → _))

/-! ### Calls -/

section
variable {dev : Driver} {r : Driver × Option SpiMessage}

/-- A path that starts is not changed by the result. -/
theorem handOver_of_starts (h : Claims dev r) {result : ℤ}
    (hs : dev.spiPending = false → result = 0) : handOver result r = r := by
  by_cases hresult : result = 0
  · exact if_pos hresult
  · -- the claim was not free, so there was no message
    have hmsg := h.message
    obtain ⟨d, msg⟩ := r
    cases hp : dev.spiPending with
    | false => exact absurd (hs hp) hresult
    | true =>
      rw [hp, Bool.toNat_true] at hmsg
      cases msg with
      | none => exact if_neg hresult
      | some msg => simp at hmsg

/-- Whether a path that has run has handed a message over. -/
theorem handOver_isSome (h : Claims dev r) (result : ℤ) :
    (handOver result r).2.isSome = true ↔ dev.spiPending = false ∧ result = 0 := by
  have hmsg := h.message
  obtain ⟨d, msg⟩ := r
  by_cases hresult : result = 0
  · rw [handOver, if_pos hresult]
    cases hp : dev.spiPending <;> cases msg <;> simp [hp, hresult] at hmsg ⊢
  · rw [handOver, if_neg hresult]
    simp [hresult]

/-- A path leaves `spi_pending` claimed, whatever `gap_spi_async` returns. -/
theorem handOver_pending (h : Claims dev r) (result : ℤ) :
    (handOver result r).1.spiPending = true := by
  unfold handOver
  split <;> exact h.pending

/-- **A path leaves `spi_pending` alone when it hands nothing over** exactly if it starts. -/
theorem handOver_keeps (h : Claims dev r) (result : ℤ) :
    ((handOver result r).2.isSome = false → (handOver result r).1.spiPending = dev.spiPending) ↔
      (dev.spiPending = false → result = 0) := by
  rw [handOver_pending h]
  have hsome := handOver_isSome h result
  cases hp : dev.spiPending with
  | true => simp
  | false =>
    rw [hp] at hsome
    cases hhanded : (handOver result r).2.isSome with
    | true => simp [(hsome.mp hhanded).2]
    | false =>
      have hresult : result ≠ 0 := fun h0 => by simp [hsome.mpr ⟨rfl, h0⟩] at hhanded
      simp [hresult]

end

/-- The ioctl with its command copied: the claim decides what it returns. -/
theorem nrf51822IoctlSimpleCommand_zero (command : UInt8) (result : ℤ) (dev : Driver) :
    nrf51822IoctlSimpleCommand 0 command result dev =
      (if dev.spiPending then -eintr else 0,
        handOver result (nrf51822IssueSimpleCommand command dev).2) := by
  unfold nrf51822IoctlSimpleCommand nrf51822IssueSimpleCommand
  by_cases hp : dev.spiPending = true <;> simp [hp]

/-- **The ioctl tells the truth** exactly if it starts its transfer, or finds the claim taken. -/
theorem honest_ioctl (left : ℕ) (command : UInt8) (result : ℤ) (dev : Driver)
    {x : ℤ × Driver × Option SpiMessage}
    (hx : x = nrf51822IoctlSimpleCommand left command result dev) :
    ((x.1 = 0 ↔ x.2.2.isSome = true) ∧
        (x.2.2.isSome = false → x.2.1.spiPending = dev.spiPending)) ↔
      left = 0 ∧ (dev.spiPending = false → result = 0) := by
  by_cases hleft : left = 0
  · have hclaims := nrf51822IssueSimpleCommand_claims command dev
    rw [hleft, nrf51822IoctlSimpleCommand_zero] at hx
    rw [hx, handOver_keeps hclaims, handOver_isSome hclaims]
    cases dev.spiPending with
    | true => simp [hleft, eintr]
    | false => simp [hleft]
  · have hlost : x = (0, dev, none) := by
      rw [hx, nrf51822IoctlSimpleCommand, if_pos hleft]
    simp [hlost, hleft]

/-- The level test: on a low line nothing happens, on a high one the path that reads. -/
theorem honest_checkIrq (line : Bool) (result : ℤ) (dev : Driver) :
    ((handOver result (nrf51822CheckIrq line dev)).2.isSome = false →
        (handOver result (nrf51822CheckIrq line dev)).1.spiPending = dev.spiPending) ↔
      (line = true → dev.spiPending = false → result = 0) := by
  cases line with
  | true =>
    have hkeeps := handOver_keeps (nrf51822ReadIrq_claims dev) result
    simpa [nrf51822CheckIrq] using hkeeps
  | false => simp [nrf51822CheckIrq, handOver]

/-! ### Runs -/

/-- **Step lemma.**  A step is honest exactly if what it calls succeeds. -/
theorem honest_step {c c' : Channel} {o e : List ChannelObs} {i : ChannelInput}
    (hs : c.step i = some (c', e)) :
    AtEach Honest (o ++ e) ↔ AtEach Honest o ∧ Starts c o i := by
  cases i with
  | ioctl left command result =>
    obtain ⟨-, rfl⟩ := Prod.mk.inj (Option.some.inj hs)
    rw [atEach_concat]
    exact and_congr_right fun _ => honest_ioctl left command result c.drv rfl
  | interrupt result =>
    obtain ⟨-, rfl⟩ := Prod.mk.inj (Option.some.inj hs)
    rw [atEach_concat]
    exact and_congr_right fun _ => handOver_keeps (nrf51822ReadIrq_claims c.drv) result
  | transferEnds j miso =>
    simp only [Channel.step] at hs
    split at hs
    · cases hs
    · obtain ⟨-, rfl⟩ := Prod.mk.inj (Option.some.inj hs)
      simp [Starts]
  | callbackClear k =>
    simp only [Channel.step] at hs
    split at hs
    · obtain ⟨-, rfl⟩ := Prod.mk.inj (Option.some.inj hs)
      simp [Starts]
    · cases hs
  | checkIrq k line result =>
    simp only [Channel.step] at hs
    split at hs
    · obtain ⟨-, rfl⟩ := Prod.mk.inj (Option.some.inj hs)
      rw [atEach_concat]
      exact and_congr_right fun _ => honest_checkIrq line result c.drv
    · cases hs

/-- `spi_pending` counts the messages outstanding and the callbacks that have yet to clear it. -/
def Counted (c : Channel) : Prop :=
  c.outstanding.length + entered c.callbacks = c.drv.spiPending.toNat

/-- A counted claim belongs to somebody. -/
theorem Counted.usable {c : Channel} (h : Counted c) : Usable c := by
  intro hpending
  rw [Counted, hpending, Bool.toNat_true] at h
  by_cases hout : c.outstanding = []
  · rw [hout, List.length_nil, Nat.zero_add] at h
    obtain ⟨cb, hmem, hentered⟩ := List.countP_pos_iff.mp (h ▸ Nat.one_pos)
    exact .inr ⟨cb, hmem, by simpa using hentered⟩
  · exact .inl hout

/-- A path that starts keeps the claims counted. -/
theorem counted_submit {c : Channel} (h : Counted c) {r : Driver × Option SpiMessage}
    (hr : Claims c.drv r) {result : ℤ} (hs : c.drv.spiPending = false → result = 0) :
    Counted (c.submit (handOver result r)) := by
  rw [handOver_of_starts hr hs]
  have hcount := (hr.count h).2
  show (c.outstanding ++ r.2.toList).length + entered c.callbacks = r.1.spiPending.toNat
  rw [List.length_append]
  omega

/-- The end of a transfer gives the claim from the message to its callback. -/
theorem counted_transferEnds {c : Channel} (h : Counted c) {j : ℕ} {msg : SpiMessage}
    (hj : c.outstanding[j]? = some msg) (miso : List UInt8) :
    Counted { c with
      drv := c.drv.receive miso
      outstanding := c.outstanding.eraseIdx j
      callbacks := c.callbacks ++ [⟨msg.complete, .entered⟩] } := by
  obtain ⟨hlt, -⟩ := List.getElem?_eq_some_iff.mp hj
  show (c.outstanding.eraseIdx j).length + entered (c.callbacks ++ [⟨msg.complete, .entered⟩])
    = c.drv.spiPending.toNat
  rw [List.length_eraseIdx_of_lt hlt, entered_append, entered_cons, if_pos rfl, ← h]
  simp only [entered, List.countP_nil]
  omega

/-- Clearing `spi_pending` gives the claim up. -/
theorem counted_callbackClear {c : Channel} (h : Counted c) {k : ℕ} {complete : Completion}
    (hk : c.callbacks[k]? = some ⟨complete, .entered⟩) :
    Counted { c with
      drv := clearSpiPending (complete.done c.drv).1
      callbacks := c.callbacks.set k ⟨complete, .cleared⟩ } := by
  obtain ⟨pre, post, heq, hset, -⟩ := split_of_getElem? hk
  have hle := Bool.toNat_le c.drv.spiPending
  rw [Counted, heq, entered_append, entered_cons, if_pos rfl] at h
  show c.outstanding.length + entered (c.callbacks.set k ⟨complete, .cleared⟩) = 0
  rw [hset, entered_append, entered_cons, if_neg (by simp)]
  omega

/-- The level test ends a callback that holds no claim any more. -/
theorem counted_checkIrq {c : Channel} (h : Counted c) {k : ℕ} {complete : Completion}
    (hk : c.callbacks[k]? = some ⟨complete, .cleared⟩) {line : Bool} {result : ℤ}
    (hs : line = true → c.drv.spiPending = false → result = 0) :
    Counted ({ c with callbacks := c.callbacks.eraseIdx k }.submit
      (handOver result (nrf51822CheckIrq line c.drv))) := by
  obtain ⟨pre, post, heq, -, herase⟩ := split_of_getElem? hk
  have hrest : Counted { c with callbacks := c.callbacks.eraseIdx k } := by
    rw [Counted, heq, entered_append, entered_cons, if_neg (by simp)] at h
    show c.outstanding.length + entered (c.callbacks.eraseIdx k) = _
    rw [herase, entered_append]
    exact h
  cases line with
  | true => exact counted_submit hrest (nrf51822ReadIrq_claims c.drv) (hs rfl)
  | false =>
    have hnone : handOver result (nrf51822CheckIrq false c.drv) = (c.drv, none) := by
      simp [nrf51822CheckIrq, handOver]
    rw [hnone]
    show (c.outstanding ++ []).length + _ = _
    rw [List.append_nil]
    exact hrest

/-- **Step lemma.**  A step that starts what it claims for keeps the claims counted. -/
theorem counted_step {c c' : Channel} {o e : List ChannelObs} {i : ChannelInput} (h : Counted c)
    (hC : Starts c o i) (hs : c.step i = some (c', e)) : Counted c' := by
  cases i with
  | ioctl left command result =>
    obtain ⟨rfl, -⟩ := Prod.mk.inj (Option.some.inj hs)
    obtain ⟨rfl, hstart⟩ := hC
    show Counted (c.submit (nrf51822IoctlSimpleCommand 0 command result c.drv).2)
    rw [nrf51822IoctlSimpleCommand_zero]
    exact counted_submit h (nrf51822IssueSimpleCommand_claims command c.drv) hstart
  | interrupt result =>
    obtain ⟨rfl, -⟩ := Prod.mk.inj (Option.some.inj hs)
    exact counted_submit h (nrf51822ReadIrq_claims c.drv) hC
  | transferEnds j miso =>
    simp only [Channel.step] at hs
    split at hs
    · cases hs
    · next msg hj =>
      obtain ⟨rfl, -⟩ := Prod.mk.inj (Option.some.inj hs)
      exact counted_transferEnds h hj miso
  | callbackClear k =>
    simp only [Channel.step] at hs
    split at hs
    · next complete hk =>
      obtain ⟨rfl, -⟩ := Prod.mk.inj (Option.some.inj hs)
      exact counted_callbackClear h hk
    · cases hs
  | checkIrq k line result =>
    simp only [Channel.step] at hs
    split at hs
    · next complete hk =>
      obtain ⟨rfl, -⟩ := Prod.mk.inj (Option.some.inj hs)
      exact counted_checkIrq h hk hC
    · cases hs

/-- **Honest calls and a usable driver.**  After every run, with whatever results of
    `copy_from_user` and `gap_spi_async`, all calls have told the truth and the driver is usable
    if and only if every copy of a command has succeeded and so has every `gap_spi_async` of a path
    that got the claim. -/
theorem honest_and_usable (is : List ChannelInput) (c : Channel) (o : List ChannelObs)
    (hrun : channel.run is = some (c, o)) :
    (AtEach Honest o ∧ Usable c) ↔ channel.Along Starts is := by
  have hhonest : AtEach Honest o ↔ channel.Along Starts is :=
    Machine.iff_along (I := fun _ o => AtEach Honest o) (J := fun _ _ => True) (atEach_nil _)
      trivial (fun _ _ _ _ _ _ _ => trivial) (fun _ _ _ _ _ _ hs => honest_step hs) is c o hrun
  rw [hhonest]
  refine and_iff_left_of_imp fun hC => ?_
  have hinit : Counted channel.init := rfl
  have hcounted : Counted c :=
    Machine.run_induct_along (P := fun _ c _ => Counted c) hinit
      (fun _ _ _ _ _ _ _ h hCi hs => counted_step h hCi hs) is c o hC hrun
  exact hcounted.usable

/-- A command, its transfer and a callback that reads again. -/
def commandAndRead : List ChannelInput :=
  [.ioctl 0 2 0, .ioctl 0 2 (-22), .transferEnds 0 [2, 1, 7], .callbackClear 0, .checkIrq 0 true 0]

/-- `honest_and_usable` on that run, in which a second command finds the claim taken. -/
theorem honest_and_usable_commandAndRead :
    ∃ c o, channel.run commandAndRead = some (c, o) ∧ o.length = 3 ∧ AtEach Honest o ∧
      Usable c := by
  obtain ⟨c, o, hrun, hlen⟩ :
      ∃ c o, channel.run commandAndRead = some (c, o) ∧ o.length = 3 :=
    channel.exists_run (by decide +kernel)
  exact ⟨c, o, hrun, hlen, (honest_and_usable commandAndRead c o hrun).mpr
    (Machine.along_of_alongFrom (by decide +kernel))⟩

/-- A command that could not be copied is reported as a success, and after a failed
    `gap_spi_async` the claim is held with no message outstanding and no callback to come. -/
theorem claim_stuck :
    (∃ c o, channel.run [.ioctl 1 2 0] = some (c, o) ∧ ¬ AtEach Honest o) ∧
      ∃ c o, channel.run [.interrupt (-22)] = some (c, o) ∧ ¬ AtEach Honest o ∧ ¬ Usable c := by
  constructor
  · refine ⟨_, [.ioctl 0 false false false], rfl, fun h => ?_⟩
    exact absurd (h [] _ [] rfl).1 (by decide)
  · refine ⟨_, [.readIrq false false true], rfl, fun h => ?_, fun h => ?_⟩
    · exact absurd (h [] _ [] rfl rfl) (by decide)
    · rcases h rfl with hout | ⟨cb, hmem, -⟩
      · exact hout rfl
      · cases hmem

end Gap.Bcp
