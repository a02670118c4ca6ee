import Gap.Lib.Claim
import Gap.Lib.Potential
import Mathlib.Tactic.Ring

namespace Gap

open Claim

/-!
# Tasks that sleep until a condition holds

A machine with a wait queue.  A task puts itself on the queue, tests its condition, and sleeps if
the test fails; some steps of the machine wake every task on the queue.  As a task enters the queue
before it tests, a wake-up that comes between its test and its sleep is not lost.

* `WaitQueue`, `WaitQueue.waiting` — a machine, and the same machine with its tasks.
* `run_state` — without its tasks, a run is one of the machine.
* `Attended` — where the condition of a sleeper holds, a wake-up is due.
* `WaitQueue.potential` — what the tasks add to a potential of the machine.
-/

/-! ### Tasks -/

/-- How far a task has come. -/
inductive Phase
  /-- Not on the queue; the condition is tested once before entering it. -/
  | calling
  | entering
  /-- On the queue, and `woken` since it entered it. -/
  | testing (woken : Bool)
  /-- The test has failed. -/
  | asleep (woken : Bool)
  deriving DecidableEq

/-- A wake-up, which reaches the tasks on the queue. -/
def Phase.wake : Phase → Phase
  | .testing _ => .testing true
  | .asleep _ => .asleep true
  | p => p

/-- What a task does next. -/
inductive Phase.Move
  | sleeps
  | becomes (p : Phase)
  | passes

/-- A task takes its turn: `cond` is its condition; a signal ends the wait as well, but not before
    the task is on the queue. -/
def Phase.move (cond signal : Bool) : Phase → Phase.Move
  | .calling => if cond then .passes else .becomes .entering
  | .entering => .becomes (.testing false)
  | .testing woken => if cond || signal then .passes else .becomes (.asleep woken)
  | .asleep woken => if woken || signal then .becomes .entering else .sleeps

/-- The turns a task can take, without a signal, before it sleeps or passes. -/
def Phase.effort : Phase → ℕ
  | .calling => 3
  | .entering => 2
  | .testing woken => if woken then 4 else 1
  | .asleep woken => if woken then 3 else 0

theorem Phase.wake_ne_asleep (p : Phase) : p.wake ≠ .asleep false := by
  cases p <;> simp [Phase.wake]

theorem Phase.effort_wake_le (p : Phase) : p.wake.effort ≤ p.effort + 3 := by
  rcases p with _ | _ | (_ | _) | (_ | _) <;> decide

theorem Phase.effort_le (p : Phase) : p.effort ≤ 4 := by
  rcases p with _ | _ | (_ | _) | (_ | _) <;> decide

/-- **A turn.**  Only an unwoken sleeper has none; a task goes to sleep unwoken when it has found
    its condition not to hold, and passes when it has found it to hold or by a signal. -/
theorem Phase.move_cases (p : Phase) (cond signal : Bool) :
    (p = .asleep false ∧ p.move cond signal = .sleeps) ∨
    (∃ p', p.move cond signal = .becomes p' ∧ (signal = false → p'.effort + 1 = p.effort) ∧
      (p' = .asleep false → cond = false)) ∨
    (p.move cond signal = .passes ∧ (signal = false → cond = true)) := by
  cases p with
  | calling => cases cond <;> simp [Phase.move, Phase.effort]
  | entering => simp [Phase.move, Phase.effort]
  | testing woken => cases cond <;> cases signal <;> cases woken <;> simp [Phase.move, Phase.effort]
  | asleep woken => cases signal <;> cases woken <;> simp [Phase.move, Phase.effort]

/-! ### A machine with tasks -/

/-- A machine with a wait queue, for tasks of the kinds `κ`. -/
structure WaitQueue (σ ι ω κ : Type*) where
  machine : Machine σ ι ω
  /-- What a task waits for. -/
  cond : κ → σ → Bool
  /-- The task tests its condition before it enters the queue. -/
  testsFirst : κ → Bool
  /-- The step wakes the queue. -/
  wakes : σ → ι → Bool
  /-- What the machine does when a task stops waiting, with a signal pending or not. -/
  goOn : κ → Bool → σ → List ι

/-- The state of the machine, and its tasks. -/
structure Waiting (σ κ : Type*) where
  state : σ
  tasks : List (κ × Phase)

/-- A step of the machine, a new task, or the turn of the task `j`. -/
inductive WaitInput (ι κ : Type*)
  | step (i : ι)
  | call (k : κ)
  | turn (j : ℕ) (signal : Bool)

namespace WaitQueue

variable {σ ι ω κ : Type*} (q : WaitQueue σ ι ω κ)

/-- One step of the machine or of a task. -/
def step (w : Waiting σ κ) : WaitInput ι κ → Option (Waiting σ κ × List ω)
  | .step i =>
    (q.machine.step w.state i).map fun r =>
      (⟨r.1, if q.wakes w.state i then w.tasks.map (Prod.map id Phase.wake) else w.tasks⟩, r.2)
  | .call k =>
    some ({ w with tasks := w.tasks ++ [(k, if q.testsFirst k then .calling else .entering)] }, [])
  | .turn j signal =>
    match w.tasks[j]? with
    | none => none
    | some (k, p) =>
      match p.move (q.cond k w.state) signal with
      | .sleeps => none
      | .becomes p' => some ({ w with tasks := w.tasks.set j (k, p') }, [])
      | .passes =>
        (q.machine.runFrom (w.state, []) (q.goOn k signal w.state)).map fun r =>
          (⟨r.1, w.tasks.eraseIdx j⟩, r.2)

/-- The machine with its tasks, none at first. -/
def waiting : Machine (Waiting σ κ) (WaitInput ι κ) ω := ⟨⟨q.machine.init, []⟩, q.step⟩


/-- What a step does: a step of the machine may wake the queue; a task is new, goes on waiting, or
    stops, and the machine goes on for it. -/
inductive Taken (w : Waiting σ κ) : WaitInput ι κ → Waiting σ κ → List ω → Prop
  | wake {i : ι} {s' : σ} {e : List ω} (hs : q.machine.step w.state i = some (s', e))
      (hwakes : q.wakes w.state i = true) :
      Taken w (.step i) ⟨s', w.tasks.map (Prod.map id Phase.wake)⟩ e
  | quiet {i : ι} {s' : σ} {e : List ω} (hs : q.machine.step w.state i = some (s', e))
      (hwakes : q.wakes w.state i = false) : Taken w (.step i) ⟨s', w.tasks⟩ e
  | call (k : κ) {p : Phase} (hp : p ≠ .asleep false) :
      Taken w (.call k) ⟨w.state, w.tasks ++ [(k, p)]⟩ []
  | turn (j : ℕ) {signal : Bool} {pre post : List (κ × Phase)} {k : κ} {p p' : Phase}
      (htasks : w.tasks = pre ++ (k, p) :: post)
      (heffort : signal = false → p'.effort + 1 = p.effort)
      (hasleep : p' = .asleep false → q.cond k w.state = false) :
      Taken w (.turn j signal) ⟨w.state, pre ++ (k, p') :: post⟩ []
  | pass (j : ℕ) {signal : Bool} {pre post : List (κ × Phase)} {k : κ} {p : Phase} {s' : σ}
      {e : List ω} (htasks : w.tasks = pre ++ (k, p) :: post)
      (hgo : q.machine.runFrom (w.state, []) (q.goOn k signal w.state) = some (s', e)) :
      Taken w (.turn j signal) ⟨s', pre ++ post⟩ e

/-- **Inversion.** -/
theorem taken_of_step {w w' : Waiting σ κ} {i : WaitInput ι κ} {e : List ω}
    (hs : q.step w i = some (w', e)) : q.Taken w i w' e := by
  cases i with
  | step j =>
    obtain ⟨⟨s', e'⟩, hj, heq⟩ := Option.map_eq_some_iff.mp hs
    obtain ⟨rfl, rfl⟩ := Prod.mk.inj heq
    cases hwakes : q.wakes w.state j with
    | true => exact .wake hj hwakes
    | false => exact .quiet hj hwakes
  | call k =>
    obtain ⟨rfl, rfl⟩ := Prod.mk.inj (Option.some.inj hs)
    apply Taken.call
    split <;> simp
  | turn j signal =>
    simp only [step] at hs
    split at hs
    · cases hs
    · next k p hj =>
      obtain ⟨pre, post, htasks, hset, herase⟩ := split_of_getElem? hj
      obtain ⟨-, hmove⟩ | ⟨p', hmove, heffort, hasleep⟩ | ⟨hmove, -⟩ :=
        p.move_cases (q.cond k w.state) signal
      · rw [hmove] at hs
        cases hs
      · rw [hmove] at hs
        obtain ⟨rfl, rfl⟩ := Prod.mk.inj (Option.some.inj hs)
        rw [hset]
        exact .turn j htasks heffort hasleep
      · rw [hmove] at hs
        obtain ⟨⟨s', e'⟩, hgo, heq⟩ := Option.map_eq_some_iff.mp hs
        obtain ⟨rfl, rfl⟩ := Prod.mk.inj heq
        rw [herase]
        exact .pass j htasks hgo

/-! ### Runs without their tasks -/

/-- An input of the machine that meets a condition, or anything a task does. -/
def Meets (C : ι → Prop) : WaitInput ι κ → Prop
  | .step i => C i
  | _ => True

/-- **Step lemma.**  What a step does without its tasks: a step of the machine, nothing, or what the
    machine does for a task that passes. -/
theorem state_step {C : ι → Prop} (hgoOn : ∀ k signal s, ∀ i ∈ q.goOn k signal s, C i)
    {w w' : Waiting σ κ} {i : WaitInput ι κ} {e : List ω} (hi : Meets C i)
    (hs : q.step w i = some (w', e)) :
    ∃ js, (∀ j ∈ js, C j) ∧ q.machine.runFrom (w.state, []) js = some (w'.state, e) := by
  cases q.taken_of_step hs with
  | @wake i s' e hs =>
    exact ⟨[i], by simpa [Meets] using hi, q.machine.runFrom_singleton hs []⟩
  | @quiet i s' e hs =>
    exact ⟨[i], by simpa [Meets] using hi, q.machine.runFrom_singleton hs []⟩
  | call k => exact ⟨[], by simp, rfl⟩
  | turn j => exact ⟨[], by simp, rfl⟩
  | @pass j signal pre post k p s' e htasks hgo => exact ⟨_, hgoOn k signal w.state, hgo⟩

/-- **Run lemma.**  Without its tasks, a run is one of the machine. -/
theorem run_state {C : ι → Prop} (hgoOn : ∀ k signal s, ∀ i ∈ q.goOn k signal s, C i)
    (is : List (WaitInput ι κ)) (w : Waiting σ κ) (o : List ω) (his : ∀ i ∈ is, Meets C i)
    (hrun : q.waiting.run is = some (w, o)) :
    ∃ js, (∀ j ∈ js, C j) ∧ q.machine.run js = some (w.state, o) := by
  refine Machine.run_induct_along (C := fun _ _ i => Meets C i)
    (P := fun _ w o => ∃ js, (∀ j ∈ js, C j) ∧ q.machine.run js = some (w.state, o))
    ⟨[], by simp, rfl⟩ ?_ is w o (Machine.along_of_forall his) hrun
  rintro is i w o w' e - ⟨js, hjs, hrun⟩ hi hs
  obtain ⟨ks, hks, hrun'⟩ := q.state_step hgoOn hi hs
  refine ⟨js ++ ks, fun j hj => (List.mem_append.mp hj).elim (hjs j) (hks j), ?_⟩
  rw [q.machine.run_append, hrun, Option.bind_some, q.machine.runFrom_trace, hrun']
  rfl

/-! ### Sleepers -/

/-- Where the condition of an unwoken sleeper holds, a wake-up is due. -/
def Attended (due : σ → Prop) (w : Waiting σ κ) : Prop :=
  ∀ k, (k, Phase.asleep false) ∈ w.tasks → q.cond k w.state = true → due w.state

/-- Where a condition has come to hold, a wake-up has come to be due. -/
def Keeps (due : σ → Prop) (s s' : σ) : Prop :=
  ∀ k, (q.cond k s = true → due s) → q.cond k s' = true → due s'

variable {q}

/-- No unwoken sleeper is among tasks that have been woken. -/
theorem notMem_wake (k : κ) (ts : List (κ × Phase)) :
    (k, Phase.asleep false) ∉ ts.map (Prod.map id Phase.wake) := by
  intro hmem
  obtain ⟨⟨k', p⟩, -, heq⟩ := List.mem_map.mp hmem
  exact p.wake_ne_asleep (Prod.mk.inj heq).2

/-- **Step lemma.**  It is enough that each step of the machine wakes the queue or keeps the
    conditions accounted for. -/
theorem attended_step {due : σ → Prop} {w w' : Waiting σ κ} (h : q.Attended due w)
    {i : WaitInput ι κ} {e : List ω}
    (hstep : ∀ j s' e, i = .step j → q.machine.step w.state j = some (s', e) →
      q.wakes w.state j = false → q.Keeps due w.state s')
    (hgoOn : ∀ k signal s' e,
      q.machine.runFrom (w.state, []) (q.goOn k signal w.state) = some (s', e) →
      q.Keeps due w.state s')
    (hs : q.step w i = some (w', e)) : q.Attended due w' := by
  intro k hk
  cases q.taken_of_step hs with
  | wake hs => exact absurd hk (notMem_wake k _)
  | quiet hs hwakes => exact hstep _ _ _ rfl hs hwakes k (h k hk)
  | call k' hp =>
    apply h k
    rcases List.mem_append.mp hk with hk | hk
    · exact hk
    · exact absurd (Prod.mk.inj (List.mem_singleton.mp hk)).2.symm hp
  | turn j htasks heffort hasleep =>
    intro hcond
    rw [List.mem_append, List.mem_cons] at hk
    rcases hk with hk | hk | hk
    · exact h k (by simp [htasks, hk]) hcond
    · -- it has just found its condition not to hold
      obtain ⟨rfl, rfl⟩ := Prod.mk.inj hk
      rw [hasleep rfl] at hcond
      cases hcond
    · exact h k (by simp [htasks, hk]) hcond
  | pass j htasks hgo =>
    apply hgoOn _ _ _ _ hgo k
    apply h k
    rw [htasks]
    rcases List.mem_append.mp hk with hk | hk
    · exact List.mem_append_left _ hk
    · exact List.mem_append_right _ (List.mem_cons_of_mem _ hk)

/-! ### What tasks can still cause -/

/-- The tasks hold up no step of the machine. -/
theorem exists_step {w : Waiting σ κ} {i : ι} {s' : σ} {e : List ω}
    (hs : q.machine.step w.state i = some (s', e)) : ∃ w', q.step w (.step i) = some (w', e) := by
  rw [step, hs]
  exact ⟨_, rfl⟩

/-- A task that is no unwoken sleeper has a turn. -/
theorem turn_of_ne_asleep {w : Waiting σ κ} {k : κ} {p : Phase} (hp : (k, p) ∈ w.tasks)
    (hne : p ≠ .asleep false)
    (hgoOn : q.cond k w.state = true →
      ∃ r, q.machine.runFrom (w.state, []) (q.goOn k false w.state) = some r) :
    ∃ j r, q.step w (.turn j false) = some r := by
  obtain ⟨j, hj⟩ := List.mem_iff_getElem?.mp hp
  refine ⟨j, ?_⟩
  simp only [step, hj]
  obtain ⟨rfl, -⟩ | ⟨p', hmove, -, -⟩ | ⟨hmove, hcond⟩ := p.move_cases (q.cond k w.state) false
  · exact absurd rfl hne
  · rw [hmove]
    exact ⟨_, rfl⟩
  · obtain ⟨r, hr⟩ := hgoOn (hcond rfl)
    rw [hmove, hr]
    exact ⟨_, rfl⟩

/-- The turns that tasks can take before they sleep or pass. -/
def efforts (ts : List (κ × Phase)) : ℕ := (ts.map fun t => t.2.effort).sum

theorem efforts_middle (pre post : List (κ × Phase)) (t : κ × Phase) :
    efforts (pre ++ t :: post) = efforts (pre ++ post) + t.2.effort := by
  simp [efforts]
  omega

theorem efforts_wake_le (ts : List (κ × Phase)) :
    efforts (ts.map (Prod.map id Phase.wake)) ≤ efforts ts + 3 * ts.length := by
  induction ts with
  | nil => exact Nat.zero_le _
  | cons t ts ih =>
    have hone := t.2.effort_wake_le
    simp only [efforts, List.map_cons, List.sum_cons, List.length_cons, Prod.map_snd] at ih ⊢
    omega

theorem efforts_le (ts : List (κ × Phase)) : efforts ts ≤ 4 * ts.length := by
  induction ts with
  | nil => exact Nat.zero_le _
  | cons t ts ih =>
    have hone := t.2.effort_le
    simp only [efforts, List.map_cons, List.sum_cons, List.length_cons] at ih ⊢
    omega

/-- The potential with at most `n` tasks: a step of the machine can wake them all, and a task that
    passes can put back `c`. -/
def potential (Φ : σ → ℕ) (c n : ℕ) (w : Waiting σ κ) : ℕ :=
  (Φ w.state + (c + 1) * w.tasks.length) * (3 * n + 1) + efforts w.tasks

/-- Without a signal. -/
def Internal (D : ι → Prop) : WaitInput ι κ → Prop
  | .step i => D i
  | .call _ => False
  | .turn _ signal => signal = false

/-- A bad step of the machine. -/
def bad (b : σ → ι → Bool) (w : Waiting σ κ) : WaitInput ι κ → Bool
  | .step i => b w.state i
  | _ => false

/-- **Every step spends**, if the machine's do. -/
theorem potential_step {Φ : σ → ℕ} {b : σ → ι → Bool} {D : ι → Prop} {c m n : ℕ}
    {w w' : Waiting σ κ} (hn : w.tasks.length ≤ n)
    (hstep : ∀ i s' e, D i → q.machine.step w.state i = some (s', e) →
      Φ s' + 1 ≤ Φ w.state + m * (b w.state i).toNat)
    (hgoOn : ∀ k signal s' e,
      q.machine.runFrom (w.state, []) (q.goOn k signal w.state) = some (s', e) →
      Φ s' ≤ Φ w.state + c)
    {i : WaitInput ι κ} (hi : Internal D i) {e : List ω} (hs : q.step w i = some (w', e)) :
    w'.tasks.length ≤ n ∧
      potential Φ c n w' + 1 ≤ potential Φ c n w + m * (3 * n + 1) * (bad b w i).toNat := by
  -- what the machine spends pays for `3 * n` turns, and one more
  have hspent {s' : σ} {x : ℕ} (hs : Φ s' + 1 ≤ Φ w.state + m * x) (l : ℕ) :
      (Φ s' + l) * (3 * n + 1) + (3 * n + 1)
        ≤ (Φ w.state + l) * (3 * n + 1) + m * (3 * n + 1) * x := by
    calc (Φ s' + l) * (3 * n + 1) + (3 * n + 1)
        = (Φ s' + 1 + l) * (3 * n + 1) := by ring
      _ ≤ (Φ w.state + m * x + l) * (3 * n + 1) := Nat.mul_le_mul_right _ (by omega)
      _ = (Φ w.state + l) * (3 * n + 1) + m * (3 * n + 1) * x := by ring
  cases q.taken_of_step hs with
  | wake hs =>
    have hmachine := hspent (hstep _ _ _ hi hs) ((c + 1) * w.tasks.length)
    have hwake := efforts_wake_le w.tasks
    simp only [potential, List.length_map, bad]
    omega
  | quiet hs =>
    have hmachine := hspent (hstep _ _ _ hi hs) ((c + 1) * w.tasks.length)
    simp only [potential, bad]
    omega
  | call k => exact hi.elim
  | turn j htasks heffort =>
    have hlen := heffort hi
    simp only [potential, htasks, efforts_middle, List.length_append, List.length_cons] at hn ⊢
    omega
  | @pass j signal pre post k p s' e htasks hgo =>
    have hlength : w.tasks.length = (pre ++ post).length + 1 := by
      rw [htasks, List.length_append, List.length_cons, List.length_append]
      omega
    have hmachine : (Φ s' + (c + 1) * (pre ++ post).length) * (3 * n + 1) + (3 * n + 1)
        ≤ (Φ w.state + (c + 1) * w.tasks.length) * (3 * n + 1) := by
      have hle := hgoOn _ _ _ _ hgo
      calc (Φ s' + (c + 1) * (pre ++ post).length) * (3 * n + 1) + (3 * n + 1)
          = (Φ s' + 1 + (c + 1) * (pre ++ post).length) * (3 * n + 1) := by ring
        _ ≤ (Φ w.state + (c + 1) * w.tasks.length) * (3 * n + 1) := by
          apply Nat.mul_le_mul_right
          rw [hlength, Nat.mul_add]
          omega
    have hefforts := efforts_middle pre post (k, p)
    simp only [potential]
    rw [htasks] at hmachine ⊢
    rw [hefforts]
    constructor
    · omega
    · omega

end WaitQueue

end Gap
