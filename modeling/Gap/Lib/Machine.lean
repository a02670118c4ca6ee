import Mathlib.Data.List.Forall2
import Mathlib.Data.List.Induction

namespace Gap

/-!
# Machines and their runs

A `Machine` consumes inputs one at a time; a step may refuse its input (the environment
cannot offer it in that state) and emits a list of outputs.  The outputs of a whole run,
in order, are its trace.

* `run` — execute a list of inputs from the initial state, collecting the trace.
* `run_induct` — the run lemma: a property of (inputs, state, trace) that holds initially
  and is kept by every step holds after every run.  `run_invariant` is its state-only form.
* `Along` / `run_induct_along` — the same for runs all of whose steps meet a condition on
  the state, the trace so far and the input.
* `iff_along` — a property lost for good by the first step that does not meet a condition.
* `simulate` — forward simulation: a step-by-step correspondence lifts to whole runs, with
  the traces related entry by entry.
* `project` — a run of a machine, seen on one of its components.
* `AtEach` — a law about each output of a trace and the outputs in front of it.
-/

/-- A law that holds of each output of a trace, given the outputs in front of it. -/
def AtEach {ω : Type*} (P : List ω → ω → Prop) (o : List ω) : Prop :=
  ∀ pre x post, o = pre ++ x :: post → P pre x

theorem atEach_nil {ω : Type*} (P : List ω → ω → Prop) : AtEach P [] := by
  intro pre x post heq
  simp at heq

/-- The law on a trace that is one output longer. -/
theorem atEach_concat {ω : Type*} {P : List ω → ω → Prop} {o : List ω} {x : ω} :
    AtEach P (o ++ [x]) ↔ AtEach P o ∧ P o x := by
  constructor
  · intro h
    refine ⟨fun pre y post heq => h pre y (post ++ [x]) (by simp [heq]), h o x [] rfl⟩
  · rintro ⟨hinit, hlast⟩ pre y post heq
    -- the output is the last one, or one of the shorter trace
    rcases List.eq_nil_or_concat post with rfl | ⟨post, z, rfl⟩
    · obtain ⟨rfl, hxy⟩ := List.append_inj' heq rfl
      obtain rfl : x = y := by simpa using hxy
      exact hlast
    · rw [List.concat_eq_append, ← List.cons_append, ← List.append_assoc] at heq
      exact hinit pre y post (List.append_inj' heq rfl).1

/-- A deterministic machine over states `σ`, inputs `ι` and outputs `ω`.  The environment's
    choices are the inputs; `step` is `none` on an input that cannot occur in that state. -/
structure Machine (σ ι ω : Type*) where
  /-- The state before the first input. -/
  init : σ
  /-- The state after one input, with the outputs of that step. -/
  step : σ → ι → Option (σ × List ω)

namespace Machine

variable {σ ι ω : Type*} (M : Machine σ ι ω)

/-! ### Runs -/

/-- Execute `is` from a state with the trace collected so far. -/
def runFrom : σ × List ω → List ι → Option (σ × List ω)
  | so, []      => some so
  | so, i :: is => (M.step so.1 i).bind fun r => runFrom (r.1, so.2 ++ r.2) is

/-- Execute `is` from the initial state. -/
def run (is : List ι) : Option (σ × List ω) := M.runFrom (M.init, []) is

@[simp] theorem runFrom_nil (so : σ × List ω) : M.runFrom so [] = some so := rfl

@[simp] theorem run_nil : M.run [] = some (M.init, []) := rfl

/-- Running `is ++ js` is running `is` and then `js`. -/
theorem runFrom_append (so : σ × List ω) (is js : List ι) :
    M.runFrom so (is ++ js) = (M.runFrom so is).bind fun r => M.runFrom r js := by
  induction is generalizing so with
  | nil => rfl
  | cons i is ih =>
    simp only [List.cons_append, runFrom, Option.bind_assoc]
    exact congrArg _ (funext fun r => ih _)

theorem run_append (is js : List ι) :
    M.run (is ++ js) = (M.run is).bind fun r => M.runFrom r js :=
  M.runFrom_append _ is js

/-- A run of one step. -/
theorem runFrom_singleton {s s' : σ} {i : ι} {e : List ω} (h : M.step s i = some (s', e))
    (o : List ω) : M.runFrom (s, o) [i] = some (s', o ++ e) := by
  rw [runFrom, h]
  rfl

/-- A run ends with a step, taken after a shorter run. -/
theorem run_concat_eq_some {is : List ι} {i : ι} {s' : σ} {o' : List ω} :
    M.run (is ++ [i]) = some (s', o') ↔
      ∃ s o e, M.run is = some (s, o) ∧ M.step s i = some (s', e) ∧ o' = o ++ e := by
  rw [run_append]
  -- the run of `is` may be refused, and so may the last step
  cases hr : M.run is with
  | none => simp
  | some so =>
    obtain ⟨s, o⟩ := so
    cases hs : M.step s i with
    | none => simp [runFrom, hs]
    | some r =>
      obtain ⟨t, e⟩ := r
      simp only [Option.bind_some, runFrom, hs, Option.some.injEq, Prod.mk.injEq]
      constructor
      · rintro ⟨rfl, rfl⟩
        exact ⟨s, o, e, ⟨rfl, rfl⟩, by rw [hs], rfl⟩
      · rintro ⟨s₁, o₁, e₁, ⟨rfl, rfl⟩, hs₁, rfl⟩
        rw [hs, Option.some.injEq, Prod.mk.injEq] at hs₁
        exact ⟨hs₁.1, by rw [hs₁.2]⟩

/-- A concrete run, in a form that can be evaluated. -/
theorem exists_run {is : List ι} {P : σ → List ω → Prop} (h : ∃ r ∈ M.run is, P r.1 r.2) :
    ∃ s o, M.run is = some (s, o) ∧ P s o := by
  obtain ⟨r, hr, hP⟩ := h
  exact ⟨r.1, r.2, hr, hP⟩

/-! ### The run lemmas -/

/-- A condition met by every step of a run: `C s o i` at the state `s` and trace `o` in
    which the input `i` is taken. -/
def Along (C : σ → List ω → ι → Prop) (is : List ι) : Prop :=
  ∀ pre i post s o, is = pre ++ i :: post → M.run pre = some (s, o) → C s o i

variable {M} {C : σ → List ω → ι → Prop}

theorem Along.init {is : List ι} {i : ι} (h : M.Along C (is ++ [i])) : M.Along C is := by
  intro pre j post s o heq hrun
  exact h pre j (post ++ [i]) s o (by simp [heq]) hrun

theorem Along.last {is : List ι} {i : ι} (h : M.Along C (is ++ [i])) {s : σ} {o : List ω}
    (hrun : M.run is = some (s, o)) : C s o i :=
  h is i [] s o rfl hrun

/-- A run along a condition is a shorter one, and a last step that meets it. -/
theorem along_concat {is : List ι} {i : ι} :
    M.Along C (is ++ [i]) ↔ M.Along C is ∧ ∀ s o, M.run is = some (s, o) → C s o i := by
  refine ⟨fun h => ⟨h.init, fun _ _ hrun => h.last hrun⟩, ?_⟩
  rintro ⟨hinit, hlast⟩ pre j post s o heq hrun
  -- the step is the last one, or one of the shorter run
  rcases List.eq_nil_or_concat post with rfl | ⟨post, k, rfl⟩
  · obtain ⟨rfl, hij⟩ := List.append_inj' heq rfl
    obtain rfl : i = j := by simpa using hij
    exact hlast s o hrun
  · rw [List.concat_eq_append, ← List.cons_append, ← List.append_assoc] at heq
    exact hinit pre j post s o (List.append_inj' heq rfl).1 hrun

/-- A condition on the inputs alone, met by each of them, is met along the run. -/
theorem along_of_forall {D : ι → Prop} {is : List ι} (h : ∀ i ∈ is, D i) :
    M.Along (fun _ _ i => D i) is := by
  intro pre i post _ _ heq _
  exact h i (by simp [heq])

/-- `Along` step by step, so that a condition on a concrete run can be evaluated. -/
def AlongFrom (M : Machine σ ι ω) (C : σ → List ω → ι → Prop) : σ × List ω → List ι → Prop
  | _, []       => True
  | so, i :: is => C so.1 so.2 i ∧
      match M.step so.1 i with
      | none => True
      | some r => AlongFrom M C (r.1, so.2 ++ r.2) is

instance decidableAlongFrom [∀ s o i, Decidable (C s o i)] (so : σ × List ω) :
    (is : List ι) → Decidable (M.AlongFrom C so is)
  | []      => isTrue trivial
  | i :: is =>
    haveI : Decidable (match M.step so.1 i with
        | none => True
        | some r => M.AlongFrom C (r.1, so.2 ++ r.2) is) :=
      match M.step so.1 i with
      | none => isTrue trivial
      | some r => decidableAlongFrom (r.1, so.2 ++ r.2) is
    inferInstanceAs (Decidable (C so.1 so.2 i ∧ _))

/-- What holds step by step holds at each step. -/
theorem AlongFrom.meets {is : List ι} {so : σ × List ω} (h : M.AlongFrom C so is)
    {pre post : List ι} {i : ι} {s : σ} {o : List ω} (heq : is = pre ++ i :: post)
    (hrun : M.runFrom so pre = some (s, o)) : C s o i := by
  -- the inputs in front of `i` are taken off one by one, with the state they lead to
  induction pre generalizing is so with
  | nil =>
    rw [runFrom_nil, Option.some.injEq] at hrun
    subst heq hrun
    exact h.1
  | cons j pre ih =>
    subst heq
    obtain ⟨r, hr, hrun⟩ := Option.bind_eq_some_iff.mp hrun
    have hrest := h.2
    simp only [List.append_eq, hr] at hrest
    exact ih hrest rfl hrun

/-- A run that meets the condition step by step meets it along. -/
theorem along_of_alongFrom {is : List ι} (h : M.AlongFrom C (M.init, []) is) : M.Along C is :=
  fun _ _ _ _ _ heq hrun => h.meets heq hrun

/-- **Run lemma, under a condition.**  A property of (inputs, state, trace) that holds
    initially and is kept by every step meeting `C` holds after every run along `C`. -/
theorem run_induct_along {P : List ι → σ → List ω → Prop} (hinit : P [] M.init [])
    (hstep : ∀ is i s o s' e, M.run is = some (s, o) → P is s o → C s o i →
      M.step s i = some (s', e) → P (is ++ [i]) s' (o ++ e))
    (is : List ι) (s : σ) (o : List ω) (hC : M.Along C is) (hrun : M.run is = some (s, o)) :
    P is s o := by
  -- from the back: the last step is taken in the state the inputs before it lead to
  induction is using List.reverseRecOn generalizing s o with
  | nil =>
    rw [run_nil, Option.some.injEq, Prod.mk.injEq] at hrun
    obtain ⟨rfl, rfl⟩ := hrun
    exact hinit
  | append_singleton is i ih =>
    obtain ⟨s₁, o₁, e, hrun₁, hs, rfl⟩ := M.run_concat_eq_some.mp hrun
    exact hstep is i s₁ o₁ s e hrun₁ (ih s₁ o₁ hC.init hrun₁) (hC.last hrun₁) hs

/-- **Run lemma.**  `run_induct_along` without a condition. -/
theorem run_induct {P : List ι → σ → List ω → Prop} (hinit : P [] M.init [])
    (hstep : ∀ is i s o s' e, M.run is = some (s, o) → P is s o →
      M.step s i = some (s', e) → P (is ++ [i]) s' (o ++ e))
    (is : List ι) (s : σ) (o : List ω) (hrun : M.run is = some (s, o)) : P is s o :=
  run_induct_along (C := fun _ _ _ => True) hinit
    (fun is i s o s' e hr hP _ hs => hstep is i s o s' e hr hP hs) is s o
    (fun _ _ _ _ _ _ _ => trivial) hrun

/-- **Invariants.**  A state property that holds initially and is kept by every step holds
    in every reachable state. -/
theorem run_invariant {I : σ → Prop} (hinit : I M.init)
    (hstep : ∀ s i s' e, I s → M.step s i = some (s', e) → I s')
    (is : List ι) (s : σ) (o : List ω) (hrun : M.run is = some (s, o)) : I s :=
  run_induct (P := fun _ s _ => I s) hinit
    (fun _ i s _ s' e _ hI hs => hstep s i s' e hI hs) is s o hrun

/-- **Exactly along.**  A property that the steps meeting a condition keep, that the others lose,
    and that no step restores, holds exactly after the runs along the condition.  `J` is an
    invariant that the steps are taken under. -/
theorem iff_along {I J : σ → List ω → Prop} (hinit : I M.init []) (hJ : J M.init [])
    (hkeep : ∀ s o i s' e, J s o → M.step s i = some (s', e) → J s' (o ++ e))
    (hstep : ∀ s o i s' e, J s o → M.step s i = some (s', e) →
      (I s' (o ++ e) ↔ I s o ∧ C s o i))
    (is : List ι) (s : σ) (o : List ω) (hrun : M.run is = some (s, o)) :
    I s o ↔ M.Along C is := by
  induction is using List.reverseRecOn generalizing s o with
  | nil =>
    rw [run_nil, Option.some.injEq, Prod.mk.injEq] at hrun
    obtain ⟨rfl, rfl⟩ := hrun
    refine ⟨fun _ pre j post _ _ heq _ => ?_, fun _ => hinit⟩
    simp at heq
  | append_singleton is i ih =>
    obtain ⟨s₁, o₁, e, hrun₁, hs, rfl⟩ := M.run_concat_eq_some.mp hrun
    have hJ₁ : J s₁ o₁ := run_induct (P := fun _ s o => J s o) hJ
      (fun _ i s o s' e _ h hs => hkeep s o i s' e h hs) is s₁ o₁ hrun₁
    rw [along_concat, ← ih s₁ o₁ hrun₁, hstep s₁ o₁ i s e hJ₁ hs, hrun₁]
    simp

/-- The same from any state of a run on, for a property of the state and the trace. -/
theorem runFrom_invariant {I : σ → List ω → Prop}
    (hstep : ∀ s o i s' e, I s o → M.step s i = some (s', e) → I s' (o ++ e))
    (is : List ι) (s s' : σ) (o o' : List ω) (hI : I s o)
    (hrun : M.runFrom (s, o) is = some (s', o')) : I s' o' := by
  induction is generalizing s o with
  | nil =>
    rw [runFrom_nil, Option.some.injEq, Prod.mk.injEq] at hrun
    obtain ⟨rfl, rfl⟩ := hrun
    exact hI
  | cons i is ih =>
    obtain ⟨⟨t, e⟩, hs, hrun⟩ := Option.bind_eq_some_iff.mp hrun
    exact ih t (o ++ e) (hstep s o i t e hI hs) hrun

/-! ### Forward simulation -/

variable {σ' ι' ω' : Type*} {A : Machine σ' ι' ω'}

/-- **Simulation.**  If related states step to related states on corresponding inputs, with
    outputs related entry by entry, then every run of `M` is matched by a run of `A`. -/
theorem simulate (R : σ → σ' → Prop) (f : ι → ι') (Q : ω → ω' → Prop) (hinit : R M.init A.init)
    (hstep : ∀ s a o i s' e, R s a → C s o i → M.step s i = some (s', e) →
      ∃ a' e', A.step a (f i) = some (a', e') ∧ R s' a' ∧ List.Forall₂ Q e e')
    (is : List ι) (s : σ) (o : List ω) (hC : M.Along C is) (hrun : M.run is = some (s, o)) :
    ∃ a o', A.run (is.map f) = some (a, o') ∧ R s a ∧ List.Forall₂ Q o o' := by
  refine run_induct_along
    (P := fun is s o => ∃ a o', A.run (is.map f) = some (a, o') ∧ R s a ∧ List.Forall₂ Q o o')
    ⟨A.init, [], rfl, hinit, .nil⟩ ?_ is s o hC hrun
  rintro is i s o s' e - ⟨a, oa, hruna, hR, ho⟩ hCi hs
  -- the step that matches the last one goes on where the abstract run has ended
  obtain ⟨a', e', hsa, hR', he⟩ := hstep s a o i s' e hR hCi hs
  refine ⟨a', oa ++ e', ?_, hR', List.rel_append ho he⟩
  rw [List.map_append, List.map_singleton, A.run_concat_eq_some]
  exact ⟨a, oa, e', hruna, hsa, rfl⟩

/-! ### Components -/

/-- The trace collected before a run is kept in front of it. -/
theorem runFrom_trace (M : Machine σ ι ω) (s : σ) (o : List ω) (is : List ι) :
    M.runFrom (s, o) is = (M.runFrom (s, []) is).map fun r => (r.1, o ++ r.2) := by
  induction is generalizing s o with
  | nil => simp
  | cons i is ih =>
    simp only [runFrom]
    cases hs : M.step s i with
    | none => rfl
    | some r =>
      simp only [Option.bind_some, List.nil_append]
      rw [ih r.1 (o ++ r.2), ih r.1 r.2, Option.map_map]
      simp [Function.comp_def, List.append_assoc]

/-- **Projection.**  If every step of `M` on an input in `D` is, on one component of its state
    and on the outputs that `p` keeps, a few steps of `A` on inputs in `D'`, then so is every
    run. -/
theorem project (π : σ → σ') (p : ω → Option ω') {D : ι → Prop} {D' : ι' → Prop}
    (hinit : π M.init = A.init)
    (hstep : ∀ s i s' e, D i → M.step s i = some (s', e) →
      ∃ js, (∀ j ∈ js, D' j) ∧ A.runFrom (π s, []) js = some (π s', e.filterMap p))
    (is : List ι) (s : σ) (o : List ω) (hD : ∀ i ∈ is, D i) (hrun : M.run is = some (s, o)) :
    ∃ js, (∀ j ∈ js, D' j) ∧ A.run js = some (π s, o.filterMap p) := by
  refine run_induct_along (C := fun _ _ i => D i)
    (P := fun _ s o => ∃ js, (∀ j ∈ js, D' j) ∧ A.run js = some (π s, o.filterMap p))
    ⟨[], by simp, by rw [hinit]; rfl⟩ ?_ is s o (along_of_forall hD) hrun
  rintro _ i s o s' e - ⟨js, hjs, hrunA⟩ hDi hs
  -- the steps of the component, with an empty trace, are put behind its run so far
  obtain ⟨ks, hks, hstepA⟩ := hstep s i s' e hDi hs
  refine ⟨js ++ ks, fun j hj => (List.mem_append.mp hj).elim (hjs j) (hks j), ?_⟩
  rw [run_append, hrunA, Option.bind_some, runFrom_trace, hstepA, List.filterMap_append]
  rfl

end Machine

end Gap
