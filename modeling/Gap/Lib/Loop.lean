import Mathlib.Order.Basic

namespace Gap

/-!
# Loops without a condition

`while (1)` with a body that goes on, leaves the loop, or does something without a meaning.

* `Pass`, `loop` — one pass of the body, and the loop with a number of passes left.
* `Ends` — the loop is left after finitely many passes.
* `passesOf` — the state behind a number of passes.
* `loop_of_measure` — a measure bounds the passes that are needed.
* `loop_total` — the rule for loops that end: an invariant and a measure.
* `loop_eq` — the same for loops whose result, or lack of one, is known in every state.
* `not_ends_of_invariant` — the rule for loops that go on: an invariant in which they never leave.
-/

/-- What one pass does: it goes on with a state, or leaves the loop with a result. -/
inductive Pass (σ ρ : Type*)
  | next (s : σ)
  | leave (r : ρ)

variable {σ ρ : Type*}

/-- The loop with `n` passes left; `none` when they are used up, or a pass has no meaning. -/
def loop (body : σ → Option (Pass σ ρ)) : ℕ → σ → Option ρ
  | 0, _ => none
  | n + 1, s =>
    match body s with
    | some (.next s') => loop body n s'
    | some (.leave r) => some r
    | none => none

/-- The state behind `n` passes. -/
def passesOf (body : σ → Option (Pass σ ρ)) : ℕ → σ → Option σ
  | 0, s => some s
  | n + 1, s =>
    match body s with
    | some (.next s') => passesOf body n s'
    | _ => none

/-- The loop is left. -/
def Ends (body : σ → Option (Pass σ ρ)) (s : σ) : Prop := ∃ n r, loop body n s = some r

variable {body : σ → Option (Pass σ ρ)} {s s' : σ} {r : ρ}

theorem loop_next (h : body s = some (.next s')) (n : ℕ) :
    loop body (n + 1) s = loop body n s' := by
  simp only [loop, h]

theorem loop_leave (h : body s = some (.leave r)) (n : ℕ) : loop body (n + 1) s = some r := by
  simp only [loop, h]

theorem passesOf_next (h : body s = some (.next s')) (n : ℕ) :
    passesOf body (n + 1) s = passesOf body n s' := by
  simp only [passesOf, h]

/-- One pass of a loop that is left. -/
theorem loop_succ_cases {n : ℕ} (h : loop body (n + 1) s = some r) :
    body s = some (.leave r) ∨ ∃ s', body s = some (.next s') ∧ loop body n s' = some r := by
  cases hbody : body s with
  | none => simp [loop, hbody] at h
  | some p =>
    cases p with
    | leave r' =>
      rw [loop_leave hbody, Option.some.injEq] at h
      exact .inl (by rw [h])
    | next s' =>
      rw [loop_next hbody] at h
      exact .inr ⟨s', rfl, h⟩

/-- **The measure rule.**  A loop whose passes lower a measure needs one pass more than it. -/
theorem loop_of_measure (μ : σ → ℕ) (hless : ∀ s s', body s = some (.next s') → μ s' < μ s) {n : ℕ}
    (h : loop body n s = some r) {m : ℕ} (hm : μ s < m) : loop body m s = some r := by
  induction m generalizing n s with
  | zero => omega
  | succ m ih =>
    cases n with
    | zero => cases h
    | succ n =>
      rcases loop_succ_cases h with hleave | ⟨s', hnext, hrest⟩
      · exact loop_leave hleave m
      · have hlt := hless s s' hnext
        rw [loop_next hnext]
        exact ih hrest (by omega)

/-- **The rule for loops that end.**  Each pass keeps the invariant and lowers the measure, or leaves
    with what is wanted. -/
theorem loop_total (inv : σ → Prop) (post : ρ → Prop) (μ : σ → ℕ)
    (hpass : ∀ s, inv s → (∃ s', body s = some (.next s') ∧ inv s' ∧ μ s' < μ s) ∨
      ∃ r, body s = some (.leave r) ∧ post r)
    (h : inv s) {n : ℕ} (hn : μ s < n) : ∃ r, loop body n s = some r ∧ post r := by
  induction n generalizing s with
  | zero => omega
  | succ n ih =>
    rcases hpass s h with ⟨s', hnext, hinv, hless⟩ | ⟨r, hleave, hpost⟩
    · rw [loop_next hnext]
      exact ih hinv (by omega)
    · exact ⟨r, loop_leave hleave n, hpost⟩

/-- **The rule for loops that compute.**  Each pass goes on to a state with the same result and a lower
    measure, or leaves with the result, or has no meaning where there is none. -/
theorem loop_eq (inv : σ → Prop) (f : σ → Option ρ) (μ : σ → ℕ)
    (hpass : ∀ s, inv s →
      (∃ s', body s = some (.next s') ∧ inv s' ∧ f s = f s' ∧ μ s' < μ s) ∨
      (∃ r, body s = some (.leave r) ∧ f s = some r) ∨ body s = none ∧ f s = none)
    (h : inv s) {n : ℕ} (hn : μ s < n) : loop body n s = f s := by
  induction n generalizing s with
  | zero => omega
  | succ n ih =>
    rcases hpass s h with ⟨s', hnext, hinv, hsame, hless⟩ | ⟨r, hleave, hresult⟩ | ⟨hnone, hresult⟩
    · rw [loop_next hnext, hsame]
      exact ih hinv (by omega)
    · rw [loop_leave hleave, hresult]
    · rw [loop, hnone, hresult]

/-- More passes than are needed do no harm. -/
theorem loop_of_le {n m : ℕ} (hle : n ≤ m) (h : loop body n s = some r) :
    loop body m s = some r := by
  induction m generalizing n s with
  | zero =>
    obtain rfl : n = 0 := by omega
    exact h
  | succ m ih =>
    cases n with
    | zero => cases h
    | succ n =>
      rcases loop_succ_cases h with hleave | ⟨s', hnext, hrest⟩
      · exact loop_leave hleave m
      · rw [loop_next hnext]
        exact ih (by omega) hrest

/-- **The rule for loops that go on.**  A body that keeps an invariant, and never leaves in it. -/
theorem not_ends_of_invariant (inv : σ → Prop) (hleave : ∀ s r, inv s → body s ≠ some (.leave r))
    (hnext : ∀ s s', inv s → body s = some (.next s') → inv s') (h : inv s) : ¬ Ends body s := by
  rintro ⟨n, r, hr⟩
  induction n generalizing s with
  | zero => cases hr
  | succ n ih =>
    rcases loop_succ_cases hr with hl | ⟨s', hn, hrest⟩
    · exact hleave s r h hl
    · exact ih (hnext s s' h hn) hrest

end Gap
