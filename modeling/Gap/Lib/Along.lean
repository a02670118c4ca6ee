import Gap.Lib.Machine

namespace Gap.Machine

/-!
# Runs along a condition, put together

* `AlongFrom.imp`, `AlongFrom.invariant` — a weaker condition, and what the steps along one keep.
* `along_append` — a run along a condition, continued.
* `project_along` — a run of a machine, seen on one of its components, where the steps of the
  component meet a condition on its own state.
-/

variable {σ ι ω : Type*} {M : Machine σ ι ω}

theorem AlongFrom.imp {C C' : σ → List ω → ι → Prop} (himp : ∀ s o i, C s o i → C' s o i)
    {is : List ι} {so : σ × List ω} (h : M.AlongFrom C so is) : M.AlongFrom C' so is := by
  induction is generalizing so with
  | nil => trivial
  | cons i is ih =>
    refine ⟨himp _ _ _ h.1, ?_⟩
    have hrest := h.2
    cases hs : M.step so.1 i with
    | none => trivial
    | some r =>
      simp only [hs] at hrest
      exact ih hrest

/-- What every step that meets a condition keeps is kept by a run along it. -/
theorem AlongFrom.invariant {C : σ → List ω → ι → Prop} {I : σ → List ω → Prop}
    (hstep : ∀ s o i s' e, I s o → C s o i → M.step s i = some (s', e) → I s' (o ++ e))
    {is : List ι} {s s' : σ} {o o' : List ω} (h : M.AlongFrom C (s, o) is) (hI : I s o)
    (hrun : M.runFrom (s, o) is = some (s', o')) : I s' o' := by
  induction is generalizing s o with
  | nil =>
    rw [runFrom_nil, Option.some.injEq, Prod.mk.injEq] at hrun
    obtain ⟨rfl, rfl⟩ := hrun
    exact hI
  | cons i is ih =>
    obtain ⟨⟨t, e⟩, hs, hrun⟩ := Option.bind_eq_some_iff.mp hrun
    have hrest := h.2
    simp only [hs] at hrest
    exact ih hrest (hstep s o i t e hI h.1 hs) hrun

/-- A run that meets a condition along, continued by steps that meet it. -/
theorem along_append {C : σ → List ω → ι → Prop} {is js : List ι} {s s' : σ} {o o' : List ω}
    (hrun : M.run is = some (s, o)) (his : M.Along C is) (hjs : M.AlongFrom C (s, o) js)
    (hrun' : M.runFrom (s, o) js = some (s', o')) : M.Along C (is ++ js) := by
  induction js generalizing is s o with
  | nil => rwa [List.append_nil]
  | cons j js ih =>
    obtain ⟨⟨t, e⟩, hs, hrun'⟩ := Option.bind_eq_some_iff.mp hrun'
    have hrest := hjs.2
    simp only [hs] at hrest
    -- the first of them is put behind the run
    have hlong : M.Along C (is ++ [j]) := along_concat.mpr ⟨his, fun s₁ o₁ hrun₁ => by
      rw [hrun, Option.some.injEq, Prod.mk.injEq] at hrun₁
      obtain ⟨rfl, rfl⟩ := hrun₁
      exact hjs.1⟩
    rw [List.append_cons]
    exact ih (M.run_concat_eq_some.mpr ⟨s, o, e, hrun, hs, rfl⟩) hlong hrest hrun'

/-! ### Components -/

variable {σ' ι' ω' : Type*} {A : Machine σ' ι' ω'}

/-- A condition on the state and the input does not look at the trace. -/
theorem AlongFrom.trace {C : σ → ι → Prop} {is : List ι} {s : σ} {o : List ω} (o' : List ω)
    (h : M.AlongFrom (fun s _ i => C s i) (s, o) is) :
    M.AlongFrom (fun s _ i => C s i) (s, o') is := by
  induction is generalizing s o o' with
  | nil => trivial
  | cons i is ih =>
    refine ⟨h.1, ?_⟩
    have hrest := h.2
    simp only
    cases hs : M.step s i with
    | none => trivial
    | some r =>
      simp only [hs] at hrest
      exact ih _ hrest

/-- **Projection.**  If every step of `M` along `C`, taken under an invariant `J`, is on one
    component of its state and on the outputs that `p` keeps a few steps of `A` that meet `C'`,
    then every run of `M` along `C` is a run of `A` along `C'`. -/
theorem project_along (π : σ → σ') (p : ω → Option ω') {J : σ → Prop} {C : σ → ι → Prop}
    {C' : σ' → ι' → Prop} (hinit : π M.init = A.init) (hJ : J M.init)
    (hstep : ∀ s i s' e, J s → C s i → M.step s i = some (s', e) → J s' ∧
      ∃ js, A.AlongFrom (fun s _ j => C' s j) (π s, []) js ∧
        A.runFrom (π s, []) js = some (π s', e.filterMap p))
    (is : List ι) (s : σ) (o : List ω) (hC : M.Along (fun s _ i => C s i) is)
    (hrun : M.run is = some (s, o)) :
    ∃ js, A.Along (fun s _ j => C' s j) js ∧ A.run js = some (π s, o.filterMap p) := by
  have hboth : J s ∧ ∃ js, A.Along (fun s _ j => C' s j) js ∧
      A.run js = some (π s, o.filterMap p) := by
    refine run_induct_along (C := fun s _ i => C s i) (P := fun _ s o => J s ∧ ∃ js,
      A.Along (fun s _ j => C' s j) js ∧ A.run js = some (π s, o.filterMap p)) ⟨hJ, [], ?_, ?_⟩ ?_
      is s o hC hrun
    · exact along_of_alongFrom trivial
    · rw [hinit]
      rfl
    rintro _ i s o s' e - ⟨hJs, js, hjs, hrunA⟩ hCi hs
    -- the steps of the component are put behind its run so far
    obtain ⟨hJs', ks, hks, hstepA⟩ := hstep s i s' e hJs hCi hs
    have hrunK : A.runFrom (π s, o.filterMap p) ks = some (π s', (o ++ e).filterMap p) := by
      rw [runFrom_trace, hstepA, List.filterMap_append]
      rfl
    refine ⟨hJs', js ++ ks, along_append hrunA hjs (hks.trace _) hrunK, ?_⟩
    rw [run_append, hrunA]
    exact hrunK
  exact hboth.2

end Gap.Machine
