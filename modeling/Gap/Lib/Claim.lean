import Mathlib.Data.List.Basic

namespace Gap

/-!
# Threads that pass on a claim

Threads are lists of statements still to go, interleaved statement by statement.  They share one
claim: a statement may take it, need it, or give it up; what gives it up may release it or hand it
on to something outside the threads.

* `Claim.Use` — what a statement has to do with the claim.
* `Claim.holds` — whether a thread holds the claim, read off its statements.
* `Claim.Disciplined` — a thread takes the claim before it needs it and gives it up at the end.
* `Claim.holders` — the number of threads that hold the claim, and what a step does to it.
-/

/-! ### One thread of many -/

/-- The entry at `k`, between the others. -/
theorem split_of_getElem? {α : Type*} {ts : List α} {k : ℕ} {t : α} (h : ts[k]? = some t) :
    ∃ pre post, ts = pre ++ t :: post ∧ (∀ t', ts.set k t' = pre ++ t' :: post) ∧
      ts.eraseIdx k = pre ++ post := by
  obtain ⟨hk, rfl⟩ := List.getElem?_eq_some_iff.mp h
  refine ⟨ts.take k, ts.drop (k + 1), ?_, fun t' => ?_, List.eraseIdx_eq_take_drop_succ ..⟩
  · rw [List.getElem_cons_drop, List.take_append_drop]
  · rw [List.set_eq_take_append_cons_drop, if_pos hk]

/-- What holds of all threads, after one of them was changed. -/
theorem forall_mem_middle {α : Type*} {P : α → Prop} {pre post : List α} {t : α} :
    (∀ x ∈ pre ++ t :: post, P x) ↔ P t ∧ ∀ x ∈ pre ++ post, P x := by
  simp only [List.mem_append, List.mem_cons]
  constructor
  · intro h
    exact ⟨h t (.inr (.inl rfl)), fun x hx => h x (hx.imp_right .inr)⟩
  · rintro ⟨ht, hothers⟩ x (hx | rfl | hx)
    · exact hothers x (.inl hx)
    · exact ht
    · exact hothers x (.inr hx)

/-- Counting threads, one of them apart. -/
theorem countP_middle {α : Type*} (p : α → Bool) (pre post : List α) (t : α) :
    (pre ++ t :: post).countP p = (p t).toNat + (pre ++ post).countP p := by
  simp only [List.countP_append, List.countP_cons]
  cases p t with
  | false => simp
  | true =>
    simp only [if_true, Bool.toNat_true]
    omega

namespace Claim

/-- What a statement has to do with the claim. -/
inductive Use
  | acquires
  | needs
  | yields
  | free

variable {S : Type*} (use : S → Use)

/-- A thread holds the claim if the next of its statements that has to do with it does not
    acquire it. -/
def holds : List S → Bool
  | [] => false
  | s :: rest =>
    match use s with
    | .acquires => false
    | .needs => true
    | .yields => true
    | .free => holds rest

/-- The statements keep to the claim. -/
def Disciplined : List S → Prop
  | [] => True
  | s :: rest =>
    Disciplined rest ∧
      match use s with
      | .acquires => holds use rest = true
      | .needs => holds use rest = true
      | .yields => holds use rest = false
      | .free => True

/-- The threads that hold the claim. -/
def holders (threads : List (List S)) : ℕ := threads.countP (holds use)

/-! ### What a thread holds -/

variable {use} {s : S} {rest : List S}

theorem holds_of_needs (h : use s = .needs) : holds use (s :: rest) = true := by
  simp [holds, h]

theorem holds_of_yields (h : use s = .yields) : holds use (s :: rest) = true := by
  simp [holds, h]

/-- A statement that leaves the claim alone leaves it with its thread. -/
theorem holds_of_free (h : use s = .free) : holds use (s :: rest) = holds use rest := by
  simp [holds, h]

theorem Disciplined.tail (h : Disciplined use (s :: rest)) : Disciplined use rest := h.1

/-- Past an acquisition the claim is held. -/
theorem Disciplined.holds_acquires (h : Disciplined use (s :: rest)) (hs : use s = .acquires) :
    holds use rest = true := by
  simpa [hs] using h.2

/-- What needs the claim is not the last to hold it. -/
theorem Disciplined.holds_needs (h : Disciplined use (s :: rest)) (hs : use s = .needs) :
    holds use rest = true := by
  simpa [hs] using h.2

/-- What yields the claim is the last to hold it. -/
theorem Disciplined.holds_yields (h : Disciplined use (s :: rest)) (hs : use s = .yields) :
    holds use rest = false := by
  simpa [hs] using h.2

/-! ### Counting the holders -/

theorem holders_middle (pre post : List (List S)) (t : List S) :
    holders use (pre ++ t :: post) = (holds use t).toNat + holders use (pre ++ post) :=
  countP_middle (holds use) pre post t

theorem holders_concat (threads : List (List S)) (t : List S) :
    holders use (threads ++ [t]) = (holds use t).toNat + holders use threads := by
  rw [holders_middle, List.append_nil]

/-- With no holders counted, no thread holds the claim. -/
theorem holds_eq_false_of_holders {threads : List (List S)} (h : holders use threads = 0)
    {t : List S} (ht : t ∈ threads) : holds use t = false := by
  have hnone := List.countP_eq_zero.mp h t ht
  simpa using hnone

end Claim

end Gap
