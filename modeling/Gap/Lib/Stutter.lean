import Mathlib.Data.List.Infix
import Mathlib.Data.List.Induction

namespace Gap

/-!
# In order, at least once

What a receiver has seen of a sequence of items when each item is passed on in its turn, and may be
passed on again before the next one.

* `Stutter n seen items` — `seen` is `items`, in order, with `n` repeats in between.
* `Stutter.sublist` — nothing is lost and the order is kept; `Stutter.length` counts.
* `Stutter.eq` — without repeats, `seen` is `items`.
* `Stutter.init` — the same of what was seen before the last.
-/

variable {α : Type*}

/-- The items in order, each of them at least once, with `n` repeats. -/
inductive Stutter : ℕ → List α → List α → Prop
  | nil : Stutter 0 [] []
  | next {n : ℕ} {seen items : List α} (x : α) (h : Stutter n seen items) :
      Stutter n (seen ++ [x]) (items ++ [x])
  | again {n : ℕ} {seen items : List α} {x : α} (h : Stutter n seen (items ++ [x])) :
      Stutter (n + 1) (seen ++ [x]) (items ++ [x])

namespace Stutter

variable {n : ℕ} {seen items : List α}

theorem length (h : Stutter n seen items) : seen.length = items.length + n := by
  induction h with
  | nil => rfl
  | next x _ ih => simp only [List.length_append, ih]; omega
  | again _ ih => simp only [List.length_append, List.length_singleton] at ih ⊢; omega

theorem sublist (h : Stutter n seen items) : items.Sublist seen := by
  induction h with
  | nil => exact List.Sublist.refl []
  | next x _ ih => exact ih.append (List.Sublist.refl [x])
  | again _ ih => exact ih.trans (List.sublist_append_left _ _)

/-- Without repeats, each item is seen exactly once. -/
theorem eq (h : Stutter 0 seen items) : seen = items :=
  (h.sublist.eq_of_length (by rw [h.length, Nat.add_zero])).symm

/-- Before the last was seen, the receiver had seen the items up to it, or up to the one in front
    of it. -/
theorem init {x : α} (h : Stutter n (seen ++ [x]) items) :
    ∃ m items', m ≤ n ∧ items' <+: items ∧ Stutter m seen items' := by
  generalize hseen : seen ++ [x] = s at h
  cases h with
  | nil => simp at hseen
  | next y h =>
    obtain ⟨rfl, -⟩ := List.append_inj' hseen rfl
    exact ⟨n, _, le_rfl, List.prefix_append _ _, h⟩
  | again h =>
    obtain ⟨rfl, -⟩ := List.append_inj' hseen rfl
    exact ⟨_, _, Nat.le_succ _, List.prefix_rfl, h⟩

end Stutter

end Gap
