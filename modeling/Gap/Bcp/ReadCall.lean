import Gap.Bcp.Radio

namespace Gap.Bcp

/-!
# A call of `read`

`nrf51822_read` on its own, with all that a caller and a signal can put in its way.  It looks
neither at `count` nor at the result of `wait_event_interruptible`.

* `nrf51822Read` — the call; `alone_read` — it is the path of `Radio.lean`, undisturbed.
* `ReadContract` — what `read` owes its caller.
* `read_contract` — the calls that keep it.
-/

/-- `EFAULT`. -/
def efault : ℤ := 14

/-- `copy_to_user (to, from, n)` when `writable` bytes can be written before a fault: the bytes
    written, and how many of `from` were not. -/
def copyToUserSpace (writable : ℕ) (src : List UInt8) : List UInt8 × ℕ :=
  (src.take writable, src.length - writable)

/-- A call that has returned: its result, the bytes written to `buf`, and the device. -/
structure ReadCall where
  result : ℤ
  written : List UInt8
  dev : Driver

/-- `nrf51822_read`; `none` while it waits. -/
def nrf51822Read (_count : ℕ) (signal : Bool) (writable : ℕ) (dev : Driver) : Option ReadCall :=
  -- whether a frame or a signal has ended the wait is not looked at
  if 0 < dev.bufToUserLen ∨ signal = true then
    let (written, left) := copyToUserSpace writable dev.published
    if left ≠ 0 then some ⟨-efault, written, dev⟩
    else some ⟨dev.bufToUserLen, written, { dev with bufToUserLen := 0 }⟩
  else none

/-! ### How a call ends -/

/-- A copy that ends early is an error, and leaves the frame. -/
theorem read_of_fault {count writable : ℕ} {signal : Bool} {dev : Driver}
    (hwoken : 0 < dev.bufToUserLen ∨ signal = true) (hfault : writable < dev.published.length) :
    nrf51822Read count signal writable dev
      = some ⟨-efault, dev.published.take writable, dev⟩ := by
  have hleft : dev.published.length - writable ≠ 0 := by omega
  rw [nrf51822Read, if_pos hwoken]
  exact if_pos hleft

/-- Any other copy is of the whole frame, whatever room the caller has. -/
theorem read_of_copied {count writable : ℕ} {signal : Bool} {dev : Driver}
    (hwoken : 0 < dev.bufToUserLen ∨ signal = true) (hcopied : dev.published.length ≤ writable) :
    nrf51822Read count signal writable dev
      = some ⟨dev.bufToUserLen, dev.published, { dev with bufToUserLen := 0 }⟩ := by
  have hleft : ¬ dev.published.length - writable ≠ 0 := by omega
  have hall : dev.published.take writable = dev.published := List.take_of_length_le hcopied
  rw [nrf51822Read, if_pos hwoken]
  refine (if_neg hleft).trans ?_
  simp only [hall]

theorem woken_of_read {count writable : ℕ} {signal : Bool} {dev : Driver} {r : ReadCall}
    (hr : nrf51822Read count signal writable dev = some r) :
    0 < dev.bufToUserLen ∨ signal = true := by
  by_contra hno
  rw [nrf51822Read, if_neg hno] at hr
  cases hr

/-- **`nrf51822_read` on its own** is the path of its statements. -/
theorem alone_read (env : Env) (count writable : ℕ) (r : Radio)
    (henv : env.copied = decide (r.dev.published.length ≤ writable)) {x : ReadCall}
    (hx : nrf51822Read count env.signal writable r.dev = some x) :
    alone env 4 (r, read) = ({ r with dev := x.dev }, []) := by
  have hwoken := woken_of_read hx
  by_cases hcopied : r.dev.published.length ≤ writable
  · rw [read_of_copied hwoken hcopied] at hx
    obtain rfl := Option.some.inj hx
    simp [alone, read, Stmt.exec, hwoken, henv, hcopied]
  · rw [read_of_fault hwoken (by omega)] at hx
    obtain rfl := Option.some.inj hx
    simp [alone, read, Stmt.exec, hwoken, henv, hcopied]

/-! ### The contract -/

/-- What a call of `read` owes its caller: between 1 and `count` bytes from the front of the frame
    stored, or an error that leaves the frame as it is. -/
def ReadContract (count : ℕ) (dev : Driver) (r : ReadCall) : Prop :=
  (1 ≤ r.result ∧ r.result ≤ count ∧ r.written.length ≤ count ∧ r.written <+: dev.published) ∨
    (r.result < 0 ∧ r.dev.bufToUser = dev.bufToUser ∧ r.dev.bufToUserLen = dev.bufToUserLen)

/-- **The contract of a read** is kept exactly if the copy fails, or if there is a frame and it is
    not longer than `count`. -/
theorem read_contract (count writable : ℕ) (signal : Bool) (dev : Driver) (r : ReadCall)
    (hr : nrf51822Read count signal writable dev = some r) :
    ReadContract count dev r ↔
      writable < dev.published.length ∨ (0 < dev.bufToUserLen ∧ dev.bufToUserLen ≤ count) := by
  have hwoken := woken_of_read hr
  have hpub : dev.published.length ≤ dev.bufToUserLen := by simp [Driver.published]
  by_cases hfault : writable < dev.published.length
  · rw [read_of_fault hwoken hfault] at hr
    obtain rfl := Option.some.inj hr
    exact iff_of_true (.inr ⟨Int.negSucc_lt_zero 13, rfl, rfl⟩) (.inl hfault)
  · rw [read_of_copied hwoken (by omega)] at hr
    obtain rfl := Option.some.inj hr
    rw [or_iff_right hfault]
    constructor
    · rintro (⟨hpos, hcount, -, -⟩ | ⟨hneg, -, -⟩)
      · exact ⟨Int.ofNat_lt.mp hpos, Int.ofNat_le.mp hcount⟩
      · -- a length is no error
        exact absurd hneg (Int.not_lt.mpr (Int.natCast_nonneg _))
    · rintro ⟨hpos, hcount⟩
      exact .inl ⟨Int.ofNat_lt.mpr hpos, Int.ofNat_le.mpr hcount, hpub.trans hcount,
        List.prefix_rfl⟩

/-- A device with the frame `[2, 1, 7]` stored. -/
def Driver.stored : Driver := copyToUser (Driver.init.receive [2, 1, 7]) 3

/-- `read_contract` at that frame, with room for 127 bytes. -/
theorem read_contract_stored :
    ReadContract 127 .stored ⟨3, Driver.stored.published, { Driver.stored with bufToUserLen := 0 }⟩ :=
  (read_contract 127 127 false .stored _ (read_of_copied (.inl (by decide)) (by decide))).mpr
    (.inr ⟨by decide, by decide⟩)

/-- A signal ends the wait for a frame, and the call returns 0; with a frame, the call writes more
    than the one byte its caller has room for. -/
theorem read_breaks_contract :
    (∃ r, nrf51822Read 127 true 127 Driver.init = some r ∧ ¬ ReadContract 127 Driver.init r) ∧
      ∃ r, nrf51822Read 1 false 127 .stored = some r ∧ ¬ ReadContract 1 .stored r := by
  refine ⟨⟨_, read_of_copied (.inr rfl) (by decide), ?_⟩,
    ⟨_, read_of_copied (.inl (by decide)) (by decide), ?_⟩⟩
  all_goals
    rintro (⟨hpos, hcount, -, -⟩ | ⟨hneg, -, -⟩)
    · revert hpos hcount
      decide
    · revert hneg
      decide

end Gap.Bcp
