import Gap.Lib.Along
import Gap.Lib.Potential

namespace Gap.Machine

/-!
# A machine that follows another

Each step of a machine is matched by a few steps, or none, of a second one, and a relation between
the two is kept.  The second machine then has a run for every run of the first.

* `alongFrom_of_forall`, `countFrom_append` — runs put together of short ones.
* `follow` — the run lemma; conditions met along the first run are met along the second, and the
  bad steps of both are as many.
-/

variable {σ ι ω : Type*} {M : Machine σ ι ω}

/-- A condition on the inputs alone, met by each of them, is met from any state on. -/
theorem alongFrom_of_forall {C : σ → List ω → ι → Prop} {is : List ι} {so : σ × List ω}
    (h : ∀ i ∈ is, ∀ s o, C s o i) : M.AlongFrom C so is := by
  induction is generalizing so with
  | nil => trivial
  | cons i is ih =>
    refine ⟨h i List.mem_cons_self _ _, ?_⟩
    cases M.step so.1 i with
    | none => trivial
    | some r => exact ih fun j hj => h j (List.mem_cons_of_mem i hj)

/-- The bad steps of a run and of what follows it. -/
theorem countFrom_append (bad : σ → ι → Bool) {is : List ι} {s s' : σ} {o o' : List ω}
    (hrun : M.runFrom (s, o) is = some (s', o')) (js : List ι) :
    M.countFrom bad s (is ++ js) = M.countFrom bad s is + M.countFrom bad s' js := by
  induction is generalizing s o with
  | nil =>
    rw [runFrom_nil, Option.some.injEq, Prod.mk.injEq] at hrun
    obtain ⟨rfl, -⟩ := hrun
    exact (Nat.zero_add _).symm
  | cons i is ih =>
    obtain ⟨⟨t, e⟩, hs, hrun⟩ := Option.bind_eq_some_iff.mp hrun
    simp only [List.cons_append, countFrom, hs, ih hrun, Nat.add_assoc]

/-- Inputs that are never bad. -/
theorem countFrom_eq_zero {bad : σ → ι → Bool} {is : List ι} (h : ∀ i ∈ is, ∀ s, bad s i = false)
    (s : σ) : M.countFrom bad s is = 0 := by
  induction is generalizing s with
  | nil => rfl
  | cons i is ih =>
    simp only [countFrom, h i List.mem_cons_self s, Bool.toNat_false, Nat.zero_add]
    cases M.step s i with
    | none => rfl
    | some r => exact ih (fun j hj => h j (List.mem_cons_of_mem i hj)) r.1

variable {σ' ι' ω' : Type*} {A : Machine σ' ι' ω'}

/-- **Run lemma.**  If every step of `M` is matched by steps of `A` that keep `R`, then so is
    every run. -/
theorem follow {R : σ → List ω → σ' → List ω' → Prop} {C : σ → ι → Prop} {C' : σ' → ι' → Prop}
    {bad : σ → ι → Bool} {bad' : σ' → ι' → Bool} (hinit : R M.init [] A.init [])
    (hstep : ∀ s o a oa i s' e, R s o a oa → C s i → M.step s i = some (s', e) →
      ∃ js a' oa', A.AlongFrom (fun a _ j => C' a j) (a, oa) js ∧
        A.runFrom (a, oa) js = some (a', oa') ∧ A.countFrom bad' a js = (bad s i).toNat ∧
        R s' (o ++ e) a' oa')
    (is : List ι) (s : σ) (o : List ω) (hC : M.Along (fun s _ i => C s i) is)
    (hrun : M.run is = some (s, o)) :
    ∃ js a oa, A.Along (fun a _ j => C' a j) js ∧ A.run js = some (a, oa) ∧
      A.countFrom bad' A.init js = M.countFrom bad M.init is ∧ R s o a oa := by
  refine run_induct_along (C := fun s _ i => C s i) (P := fun is s o => ∃ js a oa,
    A.Along (fun a _ j => C' a j) js ∧ A.run js = some (a, oa) ∧
      A.countFrom bad' A.init js = M.countFrom bad M.init is ∧ R s o a oa)
    ⟨[], A.init, [], along_of_alongFrom trivial, rfl, rfl, hinit⟩ ?_ is s o hC hrun
  rintro is i s o s' e hrun ⟨js, a, oa, hjs, hrunA, hcount, hR⟩ hCi hs
  -- the steps that match the last one are put behind the run so far
  obtain ⟨ks, a', oa', hks, hrunK, hcountK, hR'⟩ := hstep s o a oa i s' e hR hCi hs
  refine ⟨js ++ ks, a', oa', along_append hrunA hjs hks hrunK, ?_, ?_, hR'⟩
  · rw [run_append, hrunA]
    exact hrunK
  · rw [countFrom_append bad' (o := []) hrunA, hcount, hcountK,
      countFrom_concat bad (o := []) hrun]

end Gap.Machine
