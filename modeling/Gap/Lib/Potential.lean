import Gap.Lib.Machine

namespace Gap.Machine

/-!
# Runs that come to an end

A potential that every step spends bounds the length of a run.  Some steps may put a little back;
then the bound grows with the number of those.

* `countFrom` — the steps of a run that are taken where a test holds.
* `length_add_potential_le` — the bound.
* `exists_run_to` — where every state that is not final has a step, a final state is reached.
-/

variable {σ ι ω : Type*} {M : Machine σ ι ω}

/-- The steps of a run that are taken from a state, and on an input, with `bad`. -/
def countFrom (M : Machine σ ι ω) (bad : σ → ι → Bool) : σ → List ι → ℕ
  | _, []      => 0
  | s, i :: is => (bad s i).toNat +
      match M.step s i with
      | none => 0
      | some r => countFrom M bad r.1 is

theorem countFrom_concat (bad : σ → ι → Bool) {is : List ι} {s s' : σ} {o o' : List ω}
    (hrun : M.runFrom (s, o) is = some (s', o')) (i : ι) :
    M.countFrom bad s (is ++ [i]) = M.countFrom bad s is + (bad s' i).toNat := by
  induction is generalizing s o with
  | nil =>
    rw [runFrom_nil, Option.some.injEq, Prod.mk.injEq] at hrun
    obtain ⟨rfl, -⟩ := hrun
    simp only [List.nil_append, countFrom]
    cases M.step s i <;> simp
  | cons j is ih =>
    obtain ⟨⟨t, e⟩, hs, hrun⟩ := Option.bind_eq_some_iff.mp hrun
    simp only [List.cons_append, countFrom, hs, ih hrun, Nat.add_assoc]

variable {J : σ → Prop} {Φ : σ → ℕ}

/-- **Potential.**  If every step spends at least one, but for the `c` that a bad step may put
    back, then a run is no longer than its potential and `c` for each bad step. -/
theorem length_add_potential_le {D : ι → Prop} {c : ℕ} {bad : σ → ι → Bool}
    (hstep : ∀ s i s' e, J s → D i → M.step s i = some (s', e) →
      J s' ∧ Φ s' + 1 ≤ Φ s + c * (bad s i).toNat)
    (is : List ι) (s s' : σ) (o o' : List ω) (hJ : J s) (hD : ∀ i ∈ is, D i)
    (hrun : M.runFrom (s, o) is = some (s', o')) :
    is.length + Φ s' ≤ Φ s + c * M.countFrom bad s is := by
  induction is generalizing s o with
  | nil =>
    rw [runFrom_nil, Option.some.injEq, Prod.mk.injEq] at hrun
    obtain ⟨rfl, rfl⟩ := hrun
    simp [countFrom]
  | cons i is ih =>
    obtain ⟨⟨t, e⟩, hs, hrun⟩ := Option.bind_eq_some_iff.mp hrun
    obtain ⟨hJt, hspent⟩ := hstep s i t e hJ (hD i List.mem_cons_self) hs
    have hrest := ih t (o ++ e) hJt (fun j hj => hD j (List.mem_cons_of_mem _ hj)) hrun
    simp only [countFrom, hs, List.length_cons, Nat.mul_add]
    omega

/-- **Progress.**  If every state that is not final has a step that meets `C`, and these steps
    spend, then from every state a final one is reached by such steps. -/
theorem exists_run_to {C : σ → ι → Prop} {F : σ → Prop}
    (hstep : ∀ s i s' e, J s → C s i → M.step s i = some (s', e) → J s' ∧ Φ s' < Φ s)
    (hnext : ∀ s, J s → ¬ F s → ∃ i s' e, C s i ∧ M.step s i = some (s', e))
    (s : σ) (o : List ω) (hJ : J s) :
    ∃ is s' o', M.AlongFrom (fun s _ i => C s i) (s, o) is ∧
      M.runFrom (s, o) is = some (s', o') ∧ F s' := by
  induction hpot : Φ s using Nat.strongRecOn generalizing s o with
  | ind n ih =>
    subst hpot
    by_cases hF : F s
    · exact ⟨[], s, o, trivial, rfl, hF⟩
    · obtain ⟨i, t, e, hC, hs⟩ := hnext s hJ hF
      obtain ⟨hJt, hspent⟩ := hstep s i t e hJ hC hs
      -- the state reached has less to spend
      obtain ⟨is, s', o', halong, hrun, hF'⟩ := ih (Φ t) hspent t (o ++ e) hJt rfl
      refine ⟨i :: is, s', o', ⟨hC, ?_⟩, ?_, hF'⟩
      · rw [hs]
        exact halong
      · rw [runFrom, hs]
        exact hrun

end Gap.Machine
