import Gap.Bcp.Radio
import Gap.Lib.Claim
import Mathlib.Data.Bool.Basic

namespace Gap.Bcp

open Claim

/-!
# One message at a time

`spi_msg`, `spi_tsfers`, `spi_command_buffer` and `spi_data_buffer` exist once for each radio, and
all paths use them.  `spi_pending` is a claim on them that is passed on: from the path that
submits a message to the SPI core, and from there to the callback, which releases it.

* `Stmt.use` — what each statement has to do with the claim; every path is `Disciplined`.
* `Orderly` — submissions and completions alternate, writes stay outside, and a callback reads what
  its own transfer has left.
* `Exclusive` — the invariant; `exec_claims` and `exec_cases` say what one statement can do.
* `one_message_at_a_time` — every run of the radio is orderly.
-/

/-! ### What an observer is promised -/

/-- The submissions and completions of a trace; a completion with the data it left. -/
inductive BusEvent
  | submitted (n : ℕ)
  | completed (n : ℕ) (rx : Buf 128)

/-- The submission or completion an output is. -/
def RadioObs.bus : RadioObs → Option BusEvent
  | .submitted n => some (.submitted n)
  | .completed n rx => some (.completed n rx)
  | _ => none

/-- The last submission or completion of a trace. -/
def lastBus (o : List RadioObs) : Option BusEvent := (o.filterMap RadioObs.bus).getLast?

/-- No message is outstanding: the last submission, if any, has completed. -/
def BusFree (o : List RadioObs) : Prop := ∀ n, lastBus o ≠ some (.submitted n)

/-- An output that keeps the order: a message is submitted, and the memory the SPI core works from
    written, only while no message is outstanding; the message that completes is the one submitted
    last; and a callback that reads `spi_data_buffer` finds what its own transfer left there,
    nothing having been submitted since. -/
def Orderly (before : List RadioObs) : RadioObs → Prop
  | .submitted _ => BusFree before
  | .wrote => BusFree before
  | .completed n _ => lastBus before = some (.submitted n)
  | .readData n rx => lastBus before = some (.completed n rx)
  | .stored _ _ => True
  | .returned _ _ => True

/-! ### The discipline of the paths -/

/-- What a statement has to do with the claim `spi_pending`. -/
def Stmt.use : Stmt → Use
  | .claim => .acquires
  | .setUp _ => .needs
  | .async => .yields
  | .decode _ _ => .needs
  | .copyToUser _ _ => .needs
  | .storeLen _ _ _ => .needs
  | .clearPending => .yields
  | .wakeUp => .free
  | .checkIrq => .free
  | .waitEvent => .free
  | .copyOut => .free
  | .takeLen _ => .free
  | .resetLen _ _ => .free

/-- A statement that only ever comes up as the next one: it uses a local that the statement before
    it has set, or is the first of a callback. -/
def Stmt.Fresh : Stmt → Prop
  | .decode _ _ => True
  | .copyToUser _ _ => True
  | .storeLen _ _ _ => True
  | .takeLen _ => True
  | .resetLen _ _ => True
  | _ => False

/-- A list of statements a thread may have to go. -/
structure Path (t : List Stmt) : Prop where
  disciplined : Disciplined Stmt.use t
  fresh : ∀ s ∈ t.tail, ¬ s.Fresh

/-- The message for which a thread is about to read `spi_data_buffer`. -/
def reads : List Stmt → Option ℕ
  | .decode n _ :: _ => some n
  | .copyToUser n _ :: _ => some n
  | _ => none

theorem path_nil : Path [] := ⟨trivial, by simp⟩

theorem path_submission (command : UInt8) (complete : Completion) :
    Path (submission command complete) :=
  ⟨by simp [submission, Disciplined, holds, Stmt.use], by simp [submission, Stmt.Fresh]⟩

theorem path_stmts (c : Completion) (n : ℕ) : Path (c.stmts n) := by
  cases c <;> exact ⟨by simp [Completion.stmts, readIrqDone, issueSimpleCommandDone, Disciplined,
    holds, Stmt.use], by simp [Completion.stmts, readIrqDone, issueSimpleCommandDone, Stmt.Fresh]⟩

theorem path_read : Path Bcp.read :=
  ⟨by simp [Bcp.read, Disciplined, Stmt.use], by simp [Bcp.read, Stmt.Fresh]⟩

theorem path_callback (r : Radio) (n : ℕ) : Path (r.callback n) := by
  unfold Radio.callback
  split
  · exact path_nil
  · exact path_stmts _ n

/-- What follows the next statement of a path is a path, and starts with nothing fresh. -/
theorem Path.tail {stmt : Stmt} {rest : List Stmt} (h : Path (stmt :: rest)) :
    Path rest ∧ reads rest = none := by
  refine ⟨⟨h.disciplined.tail, fun s hs => h.fresh s (List.mem_of_mem_tail hs)⟩, ?_⟩
  cases rest with
  | nil => rfl
  | cons s rest =>
    have hs : ¬ s.Fresh := h.fresh s (by simp)
    cases s <;> first | rfl | exact absurd trivial hs

/-- A thread that does not hold the claim is not about to read `spi_data_buffer`. -/
theorem reads_of_not_holds {t : List Stmt} (h : holds Stmt.use t = false) : reads t = none := by
  cases t with
  | nil => rfl
  | cons s rest => cases s <;> first | rfl | cases h

/-! ### What one statement can do -/

/-- Another statement with the same use of the claim, in front of the same rest. -/
theorem Path.replace {stmt stmt' : Stmt} {rest : List Stmt} (h : Path (stmt :: rest))
    (huse : stmt'.use = stmt.use) : Path (stmt' :: rest) := by
  refine ⟨⟨h.disciplined.1, ?_⟩, h.fresh⟩
  rw [huse]
  exact h.disciplined.2

/-- A callback goes on along a path. -/
theorem path_next {n : ℕ} {rx : Buf 128} {rest : List Stmt} {d : Decode}
    (h : Path (.decode n d :: rest)) : Path (d.next n rx rest) := by
  cases d with
  | noData =>
    simp only [Decode.next]
    split
    · exact h.tail.1
    · exact ⟨by simp [Disciplined, holds, Stmt.use], by simp [Stmt.Fresh]⟩
  | firstByte => exact h.replace rfl
  | lenAt i => exact h.replace rfl

theorem holds_next {n : ℕ} {rx : Buf 128} {rest : List Stmt} {d : Decode}
    (h : Path (.decode n d :: rest)) : holds Stmt.use (d.next n rx rest) = true := by
  cases d with
  | noData =>
    simp only [Decode.next]
    split
    · exact h.disciplined.holds_needs rfl
    · exact holds_of_needs rfl
  | firstByte => exact holds_of_needs rfl
  | lenAt i => exact holds_of_needs rfl

section
variable {env : Env} {rest : List Stmt} {r : Radio} {stmt : Stmt}
  {x : Radio × List Stmt × List RadioObs}

/-- A statement that needs the claim leaves it with its thread. -/
theorem exec_needs (hx : stmt.exec env rest r = some x) (hpath : Path (stmt :: rest))
    (huse : stmt.use = .needs) :
    Path x.2.1 ∧ holds Stmt.use x.2.1 = true ∧ x.1.outstanding = r.outstanding ∧
      x.1.dev.spiPending = r.dev.spiPending := by
  have hrest : holds Stmt.use rest = true := hpath.disciplined.holds_needs huse
  cases stmt with
  | setUp w =>
    obtain rfl := Option.some.inj hx
    refine ⟨hpath.tail.1, hrest, ?_, ?_⟩ <;> cases w <;> rfl
  | decode n d =>
    obtain rfl := Option.some.inj hx
    exact ⟨path_next hpath, holds_next hpath, rfl, rfl⟩
  | copyToUser n b =>
    obtain rfl := Option.some.inj hx
    exact ⟨hpath.replace rfl, holds_of_needs rfl, rfl, rfl⟩
  | storeLen n b frame =>
    obtain rfl := Option.some.inj hx
    exact ⟨hpath.tail.1, hrest, rfl, rfl⟩
  | _ => cases huse

/-- A statement that has nothing to do with the claim does not get its thread the claim. -/
theorem exec_free (hx : stmt.exec env rest r = some x) (hpath : Path (stmt :: rest))
    (huse : stmt.use = .free) :
    Path x.2.1 ∧ (holds Stmt.use x.2.1 = true → holds Stmt.use rest = true) ∧
      x.1.outstanding = r.outstanding ∧ x.1.dev.spiPending = r.dev.spiPending := by
  cases stmt with
  | wakeUp =>
    obtain rfl := Option.some.inj hx
    exact ⟨hpath.tail.1, id, rfl, rfl⟩
  | checkIrq =>
    obtain rfl := Option.some.inj hx
    cases hline : env.line with
    | true => exact ⟨path_submission _ _, fun h => (by cases h), rfl, rfl⟩
    | false => exact ⟨path_nil, fun h => (by cases h), rfl, rfl⟩
  | waitEvent =>
    obtain ⟨-, hx⟩ := Option.ite_none_right_eq_some.mp hx
    obtain rfl := Option.some.inj hx
    exact ⟨hpath.tail.1, id, rfl, rfl⟩
  | copyOut =>
    simp only [Stmt.exec] at hx
    split at hx
    · obtain rfl := Option.some.inj hx
      exact ⟨hpath.replace rfl, id, rfl, rfl⟩
    · obtain rfl := Option.some.inj hx
      exact ⟨path_nil, fun h => (by cases h), rfl, rfl⟩
  | takeLen buf =>
    obtain rfl := Option.some.inj hx
    exact ⟨hpath.replace rfl, id, rfl, rfl⟩
  | resetLen buf userLen =>
    obtain rfl := Option.some.inj hx
    exact ⟨hpath.tail.1, id, rfl, rfl⟩
  | _ => cases huse

/-- **A thread stays on a path**, and what claims there are, at the SPI core, of this thread and of
    `n` others, is still covered by `spi_pending`. -/
theorem exec_claims (hx : stmt.exec env rest r = some x) (hpath : Path (stmt :: rest)) {n : ℕ}
    (hn : r.outstanding.length + (holds Stmt.use (stmt :: rest)).toNat + n
      ≤ r.dev.spiPending.toNat) :
    Path x.2.1 ∧ x.1.outstanding.length + (holds Stmt.use x.2.1).toNat + n
      ≤ x.1.dev.spiPending.toNat := by
  cases huse : stmt.use with
  | needs =>
    obtain ⟨ht, hholds, hout, hpending⟩ := exec_needs hx hpath huse
    rw [holds_of_needs huse] at hn
    exact ⟨ht, by rw [hholds, hout, hpending]; exact hn⟩
  | free =>
    obtain ⟨ht, hholds, hout, hpending⟩ := exec_free hx hpath huse
    rw [holds_of_free huse] at hn
    refine ⟨ht, ?_⟩
    rw [hout, hpending]
    have hle := Bool.toNat_le_toNat (Bool.le_iff_imp.mpr hholds)
    omega
  | acquires =>
    cases stmt with
    | claim =>
      simp only [Stmt.exec] at hx
      split at hx
      · obtain rfl := Option.some.inj hx
        exact ⟨path_nil, by simpa [holds, Stmt.use] using hn⟩
      · next hfree =>
        obtain rfl := Option.some.inj hx
        -- the claim was free, so nobody else holds it
        rw [Bool.eq_false_of_not_eq_true hfree] at hn
        refine ⟨hpath.tail.1, ?_⟩
        rw [hpath.disciplined.holds_acquires rfl]
        simp only [Bool.toNat_false, Bool.toNat_true] at hn ⊢
        omega
    | _ => cases huse
  | yields =>
    have hrest : holds Stmt.use rest = false := hpath.disciplined.holds_yields huse
    rw [holds_of_yields huse] at hn
    cases stmt with
    | async =>
      simp only [Stmt.exec] at hx
      split at hx
      · obtain rfl := Option.some.inj hx
        refine ⟨hpath.tail.1, ?_⟩
        rw [hrest]
        simpa using hn
      · obtain rfl := Option.some.inj hx
        refine ⟨hpath.tail.1, ?_⟩
        rw [hrest]
        simp only [Bool.toNat_false, Bool.toNat_true] at hn ⊢
        omega
    | clearPending =>
      obtain rfl := Option.some.inj hx
      refine ⟨hpath.tail.1, ?_⟩
      rw [hrest]
      have hle := Bool.toNat_le r.dev.spiPending
      simp only [Bool.toNat_true, Bool.toNat_false] at hn ⊢
      omega
    | _ => cases huse

/-- The SPI core would find the same, and so would a callback. -/
structure Same (r r' : Radio) : Prop where
  outstanding : r'.outstanding = r.outstanding
  handed : r'.handed = r.handed
  data : r'.dev.spiDataBuffer = r.dev.spiDataBuffer

/-- An output that is neither on the bus nor an access to the SPI memory. -/
def RadioObs.Quiet : RadioObs → Prop
  | .stored _ _ => True
  | .returned _ _ => True
  | _ => False

/-- **What one statement can do** to the SPI memory: write it, hand it to the SPI core, read what
    came back, or leave it alone. -/
theorem exec_cases (hx : stmt.exec env rest r = some x) (hpath : Path (stmt :: rest)) :
    (stmt.use = .needs ∧ x.2.2 = [.wrote] ∧ reads x.2.1 = none ∧
        x.1.outstanding = r.outstanding ∧ x.1.dev.spiDataBuffer = r.dev.spiDataBuffer) ∨
      (stmt.use = .yields ∧ x.2.2 = [.submitted (r.submitted + 1)] ∧ reads x.2.1 = none ∧
        x.1.outstanding = r.outstanding ++ [⟨r.submitted + 1, r.handed⟩] ∧
        x.1.handed = r.handed ∧ x.1.dev.spiDataBuffer = r.dev.spiDataBuffer) ∨
      (∃ n, reads (stmt :: rest) = some n ∧ x.2.2 = [.readData n r.dev.spiDataBuffer] ∧
        (reads x.2.1 = none ∨ reads x.2.1 = some n) ∧ Same r x.1) ∨
      ((∀ y ∈ x.2.2, y.Quiet) ∧ reads x.2.1 = none ∧ Same r x.1) := by
  have hrest : reads rest = none := hpath.tail.2
  cases stmt with
  | setUp w =>
    obtain rfl := Option.some.inj hx
    refine .inl ⟨rfl, rfl, hrest, ?_, ?_⟩ <;> cases w <;> rfl
  | async =>
    simp only [Stmt.exec] at hx
    split at hx
    · obtain rfl := Option.some.inj hx
      exact .inr (.inl ⟨rfl, rfl, hrest, rfl, rfl, rfl⟩)
    · obtain rfl := Option.some.inj hx
      exact .inr (.inr (.inr ⟨by simp, hrest, rfl, rfl, rfl⟩))
  | decode n d =>
    obtain rfl := Option.some.inj hx
    refine .inr (.inr (.inl ⟨n, rfl, rfl, ?_, rfl, rfl, rfl⟩))
    cases d with
    | noData =>
      simp only [Decode.next]
      split
      · exact .inl hrest
      · exact .inr rfl
    | firstByte => exact .inr rfl
    | lenAt i => exact .inr rfl
  | copyToUser n b =>
    obtain rfl := Option.some.inj hx
    exact .inr (.inr (.inl ⟨n, rfl, rfl, .inl rfl, rfl, rfl, rfl⟩))
  | storeLen n b frame =>
    obtain rfl := Option.some.inj hx
    exact .inr (.inr (.inr ⟨by simp [RadioObs.Quiet], hrest, rfl, rfl, rfl⟩))
  | claim =>
    simp only [Stmt.exec] at hx
    split at hx
    · obtain rfl := Option.some.inj hx
      exact .inr (.inr (.inr ⟨by simp, rfl, rfl, rfl, rfl⟩))
    · obtain rfl := Option.some.inj hx
      exact .inr (.inr (.inr ⟨by simp, hrest, rfl, rfl, rfl⟩))
  | clearPending =>
    obtain rfl := Option.some.inj hx
    exact .inr (.inr (.inr ⟨by simp, hrest, rfl, rfl, rfl⟩))
  | wakeUp =>
    obtain rfl := Option.some.inj hx
    exact .inr (.inr (.inr ⟨by simp, hrest, rfl, rfl, rfl⟩))
  | checkIrq =>
    obtain rfl := Option.some.inj hx
    refine .inr (.inr (.inr ⟨by simp, ?_, rfl, rfl, rfl⟩))
    cases hline : env.line <;> rfl
  | waitEvent =>
    obtain ⟨-, hx⟩ := Option.ite_none_right_eq_some.mp hx
    obtain rfl := Option.some.inj hx
    exact .inr (.inr (.inr ⟨by simp, hrest, rfl, rfl, rfl⟩))
  | copyOut =>
    simp only [Stmt.exec] at hx
    split at hx
    · obtain rfl := Option.some.inj hx
      exact .inr (.inr (.inr ⟨by simp, rfl, rfl, rfl, rfl⟩))
    · obtain rfl := Option.some.inj hx
      exact .inr (.inr (.inr ⟨by simp, rfl, rfl, rfl, rfl⟩))
  | takeLen buf =>
    obtain rfl := Option.some.inj hx
    exact .inr (.inr (.inr ⟨by simp, rfl, rfl, rfl, rfl⟩))
  | resetLen buf userLen =>
    obtain rfl := Option.some.inj hx
    exact .inr (.inr (.inr ⟨by simp [RadioObs.Quiet], hrest, rfl, rfl, rfl⟩))

end

/-! ### The invariant -/

/-- **The invariant.**  `spi_pending` covers the messages at the SPI core and the threads that hold
    the claim; an outstanding message is what was submitted last and is still what it was then; and
    a thread about to read `spi_data_buffer` finds there what its own transfer left. -/
structure Exclusive (s : Running) (o : List RadioObs) : Prop where
  paths : ∀ t ∈ s.threads, Path t
  claims : s.radio.outstanding.length + holders Stmt.use s.threads
    ≤ s.radio.dev.spiPending.toNat
  handed : ∀ m ∈ s.radio.outstanding,
    m.handed = s.radio.handed ∧ lastBus o = some (.submitted m.number)
  free : s.radio.outstanding = [] → BusFree o
  own : ∀ t ∈ s.threads, ∀ n, reads t = some n →
    lastBus o = some (.completed n s.radio.dev.spiDataBuffer)
  orderly : AtEach Orderly o

theorem exclusive_init : Exclusive radio.init [] where
  paths := by simp [radio]
  claims := Nat.le_refl 0
  handed := by simp [radio, Radio.init]
  free _ n h := by cases h
  own := by simp [radio]
  orderly := atEach_nil _

/-- An output off the bus leaves the last submission or completion. -/
theorem lastBus_concat_none {y : RadioObs} (h : y.bus = none) (o : List RadioObs) :
    lastBus (o ++ [y]) = lastBus o := by
  simp [lastBus, List.filterMap_append, h]

theorem lastBus_concat_some {y : RadioObs} {ev : BusEvent} (h : y.bus = some ev)
    (o : List RadioObs) : lastBus (o ++ [y]) = some ev := by
  simp [lastBus, List.filterMap_append, h]

/-- Quiet outputs change nothing about the order. -/
theorem quiet_append {o e : List RadioObs} (he : ∀ y ∈ e, y.Quiet) :
    lastBus (o ++ e) = lastBus o ∧ (AtEach Orderly o → AtEach Orderly (o ++ e)) := by
  induction e using List.reverseRecOn with
  | nil => simp
  | append_singleton e y ih =>
    obtain ⟨hbus, horderly⟩ := ih fun z hz => he z (List.mem_append_left _ hz)
    have hy : y.Quiet := he y (by simp)
    rw [← List.append_assoc]
    cases y with
    | stored n frame =>
      exact ⟨(lastBus_concat_none rfl _).trans hbus, fun h => atEach_concat.mpr
        ⟨horderly h, trivial⟩⟩
    | returned buf userLen =>
      exact ⟨(lastBus_concat_none rfl _).trans hbus, fun h => atEach_concat.mpr
        ⟨horderly h, trivial⟩⟩
    | _ => exact hy.elim

variable {s : Running} {o : List RadioObs}

/-- At most one message is outstanding, and then no thread holds the claim. -/
theorem Exclusive.of_outstanding (h : Exclusive s o) {m : Submission} {j : ℕ}
    (hj : s.radio.outstanding[j]? = some m) :
    s.radio.outstanding = [m] ∧ j = 0 ∧ s.radio.dev.spiPending = true ∧
      ∀ t ∈ s.threads, holds Stmt.use t = false := by
  have hclaims := h.claims
  have hle := Bool.toNat_le s.radio.dev.spiPending
  obtain ⟨hlt, rfl⟩ := List.getElem?_eq_some_iff.mp hj
  obtain rfl : j = 0 := by omega
  obtain ⟨m, hm⟩ := List.length_eq_one_iff.mp (by omega : s.radio.outstanding.length = 1)
  refine ⟨by simp [hm], rfl, ?_, fun t ht => holds_eq_false_of_holders (by omega) ht⟩
  cases hp : s.radio.dev.spiPending with
  | true => rfl
  | false =>
    rw [hp, Bool.toNat_false] at hclaims
    omega

/-- While a thread holds the claim, nothing is outstanding, and no other thread holds it. -/
theorem Exclusive.of_holds (h : Exclusive s o) {pre post : List (List Stmt)} {t : List Stmt}
    (hthreads : s.threads = pre ++ t :: post) (ht : holds Stmt.use t = true) :
    s.radio.outstanding = [] ∧ ∀ t' ∈ pre ++ post, holds Stmt.use t' = false := by
  have hclaims := h.claims
  rw [hthreads, holders_middle, ht, Bool.toNat_true] at hclaims
  have hle := Bool.toNat_le s.radio.dev.spiPending
  refine ⟨List.eq_nil_of_length_eq_zero (by omega), fun t' ht' => ?_⟩
  exact holds_eq_false_of_holders (by omega) ht'

/-! ### Steps -/

/-- A path is entered. -/
theorem exclusive_start (h : Exclusive s o) {t : List Stmt} (hpath : Path t)
    (hholds : holds Stmt.use t = false) (hreads : reads t = none) :
    Exclusive { s with threads := s.threads ++ [t] } (o ++ []) := by
  rw [List.append_nil]
  refine ⟨?_, ?_, h.handed, h.free, ?_, h.orderly⟩
  · exact forall_mem_middle.mpr ⟨hpath, by simpa using h.paths⟩
  · show _ + holders Stmt.use (s.threads ++ [t]) ≤ _
    rw [holders_concat, hholds, Bool.toNat_false, Nat.zero_add]
    exact h.claims
  · refine forall_mem_middle.mpr ⟨fun n hn => ?_, by simpa using h.own⟩
    rw [hreads] at hn
    cases hn

/-- The SPI core writes `spi_data_buffer` while no thread is about to read it. -/
theorem exclusive_clocks (h : Exclusive s o) (hout : s.radio.outstanding ≠ [])
    (miso : List UInt8) :
    Exclusive { s with radio.dev := s.radio.dev.receive miso } (o ++ []) := by
  rw [List.append_nil]
  obtain ⟨m, rest, hm⟩ := List.exists_cons_of_ne_nil hout
  obtain ⟨-, -, -, hnone⟩ := h.of_outstanding (j := 0) (m := m) (by simp [hm])
  refine ⟨h.paths, h.claims, h.handed, h.free, fun t ht n hn => ?_, h.orderly⟩
  simp [reads_of_not_holds (hnone t ht)] at hn

/-- **A transfer ends**: the claim goes from the message to its callback, and the data with it. -/
theorem exclusive_transferEnds (h : Exclusive s o) {m : Submission} {j : ℕ}
    (hj : s.radio.outstanding[j]? = some m) (miso : List UInt8) :
    Exclusive
      { s with
        radio := { s.radio with
          dev := s.radio.dev.receive miso, outstanding := s.radio.outstanding.eraseIdx j }
        threads := s.threads ++ [s.radio.callback m.number] }
      (o ++ [RadioObs.completed m.number (s.radio.dev.receive miso).spiDataBuffer]) := by
  obtain ⟨hout, rfl, hpending, hnone⟩ := h.of_outstanding hj
  have hnil : s.radio.outstanding.eraseIdx 0 = [] := by rw [hout]; rfl
  have hbus : lastBus (o ++ [RadioObs.completed m.number (s.radio.dev.receive miso).spiDataBuffer]) =
      some (.completed m.number (s.radio.dev.receive miso).spiDataBuffer) :=
    lastBus_concat_some rfl o
  refine ⟨?_, ?_, ?_, fun _ n hn => ?_, ?_, ?_⟩
  · exact forall_mem_middle.mpr ⟨path_callback _ _, by simpa using h.paths⟩
  · show (s.radio.outstanding.eraseIdx 0).length +
      holders Stmt.use (s.threads ++ [s.radio.callback m.number]) ≤ s.radio.dev.spiPending.toNat
    have hzero : holders Stmt.use s.threads = 0 :=
      List.countP_eq_zero.mpr fun t ht => by simp [hnone t ht]
    rw [hnil, holders_concat, hzero, hpending]
    have hle := Bool.toNat_le (holds Stmt.use (s.radio.callback m.number))
    simpa using hle
  · intro m' hm'
    rw [hnil] at hm'
    cases hm'
  · rw [hbus] at hn
    cases hn
  · refine forall_mem_middle.mpr ⟨fun n hn => ?_, fun t ht n hn => ?_⟩
    · -- the callback reads for its own message
      have hown : n = m.number := by
        unfold Radio.callback at hn
        split at hn
        · cases hn
        · next c _ => cases c <;> exact (Option.some.inj hn).symm
      rw [hown]
      exact hbus
    · rw [List.append_nil] at ht
      simp [reads_of_not_holds (hnone t ht)] at hn
  · refine atEach_concat.mpr ⟨h.orderly, ?_⟩
    exact (h.handed m (by simp [hout])).2

/-- What a statement leaves of the paths and of the claim. -/
theorem Exclusive.resumed (h : Exclusive s o) {pre post : List (List Stmt)} {env : Env}
    {stmt : Stmt} {rest : List Stmt} (hthreads : s.threads = pre ++ (stmt :: rest) :: post)
    {x : Radio × List Stmt × List RadioObs} (hx : stmt.exec env rest s.radio = some x) :
    (∀ t ∈ pre ++ x.2.1 :: post, Path t) ∧
      x.1.outstanding.length + holders Stmt.use (pre ++ x.2.1 :: post)
        ≤ x.1.dev.spiPending.toNat := by
  have hpaths := h.paths
  have hclaims := h.claims
  rw [hthreads] at hpaths hclaims
  obtain ⟨hpath, hpaths⟩ := forall_mem_middle.mp hpaths
  rw [holders_middle, ← Nat.add_assoc] at hclaims
  obtain ⟨hpath', hclaims'⟩ := exec_claims hx hpath hclaims
  refine ⟨forall_mem_middle.mpr ⟨hpath', hpaths⟩, ?_⟩
  rw [holders_middle, ← Nat.add_assoc]
  exact hclaims'

/-- No thread is about to read if this one is not and none of the others holds the claim. -/
theorem reads_ne_some {pre post : List (List Stmt)} {t : List Stmt} (ht : reads t = none)
    (hothers : ∀ t' ∈ pre ++ post, holds Stmt.use t' = false) :
    ∀ t' ∈ pre ++ t :: post, ∀ n, reads t' ≠ some n := by
  refine forall_mem_middle.mpr ⟨fun n => ?_, fun t' ht' n => ?_⟩
  · simp [ht]
  · simp [reads_of_not_holds (hothers t' ht')]

/-- The messages stay as they are while nothing happens on the bus or to the SPI memory. -/
theorem Exclusive.handed_of_same (h : Exclusive s o) {r : Radio} {e : List RadioObs}
    (hsame : Same s.radio r) (hbus : lastBus (o ++ e) = lastBus o) :
    (∀ m ∈ r.outstanding,
        m.handed = r.handed ∧ lastBus (o ++ e) = some (.submitted m.number)) ∧
      (r.outstanding = [] → BusFree (o ++ e)) := by
  rw [hsame.outstanding, hsame.handed, hbus]
  refine ⟨h.handed, fun hnil n => ?_⟩
  rw [hbus]
  exact h.free hnil n

/-- **A statement is made.** -/
theorem exclusive_resume (h : Exclusive s o) {k : ℕ} {env : Env} {stmt : Stmt} {rest : List Stmt}
    (hk : s.threads[k]? = some (stmt :: rest)) {x : Radio × List Stmt × List RadioObs}
    (hx : stmt.exec env rest s.radio = some x) :
    Exclusive ⟨x.1, s.threads.set k x.2.1⟩ (o ++ x.2.2) := by
  obtain ⟨pre, post, hthreads, hset, -⟩ := split_of_getElem? hk
  rw [hset]
  obtain ⟨hpaths, hclaims⟩ := h.resumed hthreads hx
  have hown := h.own
  rw [hthreads] at hown
  obtain ⟨hown₀, hown⟩ := forall_mem_middle.mp hown
  have hpath : Path (stmt :: rest) := h.paths _ (by simp [hthreads])
  rcases exec_cases hx hpath with ⟨huse, he, hreads, hout, hdata⟩ |
    ⟨huse, he, hreads, hout, hhanded, hdata⟩ | ⟨n, hn, he, hreads, hsame⟩ | ⟨he, hreads, hsame⟩
  · -- it writes the SPI memory, with the claim
    obtain ⟨hnil, hothers⟩ := h.of_holds hthreads (holds_of_needs huse)
    rw [he]
    have hbus := lastBus_concat_none (y := .wrote) rfl o
    have hfree : BusFree o := h.free hnil
    refine ⟨hpaths, hclaims, ?_, ?_, ?_, atEach_concat.mpr ⟨h.orderly, hfree⟩⟩
    · simp [hout, hnil]
    · intro _ n
      rw [hbus]
      exact hfree n
    · exact fun t ht n hn => absurd hn (reads_ne_some hreads hothers t ht n)
  · -- it hands the claim over with the message
    obtain ⟨hnil, hothers⟩ := h.of_holds hthreads (holds_of_yields huse)
    rw [he]
    have hbus := lastBus_concat_some (y := .submitted (s.radio.submitted + 1)) rfl o
    refine ⟨hpaths, hclaims, ?_, ?_, ?_, atEach_concat.mpr ⟨h.orderly, h.free hnil⟩⟩
    · intro m hm
      have hm : m = ⟨s.radio.submitted + 1, s.radio.handed⟩ := by
        rw [hout, hnil] at hm
        exact List.mem_singleton.mp hm
      rw [hm]
      exact ⟨hhanded.symm, hbus⟩
    · intro hnil'
      rw [hout] at hnil'
      simp at hnil'
    · exact fun t ht n hn => absurd hn (reads_ne_some hreads hothers t ht n)
  · -- it reads what its own transfer left
    have hlast := hown₀ n hn
    rw [he]
    have hbus := lastBus_concat_none (y := .readData n s.radio.dev.spiDataBuffer) rfl o
    obtain ⟨hhanded, hfree⟩ := h.handed_of_same hsame hbus
    refine ⟨hpaths, hclaims, hhanded, hfree, ?_, atEach_concat.mpr ⟨h.orderly, hlast⟩⟩
    rw [hbus, hsame.data]
    refine forall_mem_middle.mpr ⟨fun n' hn' => ?_, hown⟩
    rcases hreads with hreads | hreads
    · simp [hreads] at hn'
    · obtain rfl : n = n' := Option.some.inj (hreads.symm.trans hn')
      exact hlast
  · -- it leaves the SPI memory alone
    obtain ⟨hbus, horderly⟩ := quiet_append (o := o) he
    obtain ⟨hhanded, hfree⟩ := h.handed_of_same hsame hbus
    refine ⟨hpaths, hclaims, hhanded, hfree, ?_, horderly h.orderly⟩
    rw [hbus, hsame.data]
    refine forall_mem_middle.mpr ⟨fun n hn => ?_, hown⟩
    simp [hreads] at hn

/-- **Step lemma.** -/
theorem exclusive_step (h : Exclusive s o) {i : RadioInput} {s' : Running} {e : List RadioObs}
    (hs : s.step i = some (s', e)) : Exclusive s' (o ++ e) := by
  cases i with
  | interrupt =>
    obtain ⟨rfl, rfl⟩ := Prod.mk.inj (Option.some.inj hs)
    exact exclusive_start h (path_submission _ _) rfl rfl
  | ioctl command =>
    obtain ⟨rfl, rfl⟩ := Prod.mk.inj (Option.some.inj hs)
    exact exclusive_start h (path_submission _ _) rfl rfl
  | read =>
    obtain ⟨rfl, rfl⟩ := Prod.mk.inj (Option.some.inj hs)
    exact exclusive_start h path_read rfl rfl
  | resume k env =>
    simp only [Running.step] at hs
    split at hs
    · next stmt rest hk =>
      obtain ⟨x, hx, heq⟩ := Option.map_eq_some_iff.mp hs
      obtain ⟨rfl, rfl⟩ := Prod.mk.inj heq
      exact exclusive_resume h hk hx
    · cases hs
  | clocks miso =>
    obtain ⟨hout, hs⟩ := Option.ite_none_left_eq_some.mp hs
    obtain ⟨rfl, rfl⟩ := Prod.mk.inj (Option.some.inj hs)
    exact exclusive_clocks h (by simpa using hout) miso
  | transferEnds j miso =>
    simp only [Running.step] at hs
    split at hs
    · cases hs
    · next m hj =>
      obtain ⟨rfl, rfl⟩ := Prod.mk.inj (Option.some.inj hs)
      exact exclusive_transferEnds h hj miso

/-- **Run lemma.** -/
theorem exclusive_of_run (is : List RadioInput) (s : Running) (o : List RadioObs)
    (hrun : radio.run is = some (s, o)) : Exclusive s o :=
  Machine.run_induct (P := fun _ s o => Exclusive s o) exclusive_init
    (fun _ _ _ _ _ _ _ h hs => exclusive_step h hs) is s o hrun

/-- **One message at a time.**  However the statements of interrupt handlers, ioctl commands,
    callbacks and repeated reads get in between each other, at most one message of the radio is at
    the SPI core, the memory the SPI core works from is what was submitted, and the trace is
    orderly: that memory is not even written before the message has completed, and a callback only
    reads the data of its own transfer, before a later one is submitted. -/
theorem one_message_at_a_time (is : List RadioInput) (s : Running) (o : List RadioObs)
    (hrun : radio.run is = some (s, o)) :
    s.radio.outstanding.length ≤ 1 ∧ (∀ m ∈ s.radio.outstanding, m.handed = s.radio.handed) ∧
      AtEach Orderly o := by
  have h := exclusive_of_run is s o hrun
  refine ⟨?_, fun m hm => (h.handed m hm).1, h.orderly⟩
  have hclaims := h.claims
  have hle := Bool.toNat_le s.radio.dev.spiPending
  omega

/-- Thread `k` makes `n` statements, with a high interrupt line. -/
def goOn (k n : ℕ) : List RadioInput := List.replicate n (.resume k ⟨true, true, false, true⟩)

/-- An interrupt is handled while a command comes in, and the callback of its message reads
    again. -/
def readAgain : List RadioInput :=
  .interrupt :: goOn 0 12 ++ [.ioctl 2] ++ goOn 1 1 ++ [.clocks [2], .transferEnds 0 [2, 1, 7]] ++
    goOn 2 20

/-- `one_message_at_a_time` on that run, which ends with the second message at the SPI core. -/
theorem one_message_at_a_time_readAgain :
    ∃ s o, radio.run readAgain = some (s, o) ∧
      s.radio.outstanding.map Submission.number = [2] ∧
      (∀ m ∈ s.radio.outstanding, m.handed = s.radio.handed) ∧ AtEach Orderly o := by
  obtain ⟨s, o, hrun, hsecond⟩ :
      ∃ s o, radio.run readAgain = some (s, o) ∧
        s.radio.outstanding.map Submission.number = [2] :=
    radio.exists_run (by decide +kernel)
  exact ⟨s, o, hrun, hsecond, (one_message_at_a_time readAgain s o hrun).2⟩

end Gap.Bcp
