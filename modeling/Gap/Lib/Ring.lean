import Mathlib.Data.List.Basic
import Mathlib.Data.Nat.ModEq
import Mathlib.Order.Basic

namespace Gap.Ring

/-!
# Ring buffers over an array of `n` cells

The abstract contents of a ring buffer are the `count` cells from `tail` on, wrapping at the
end of the array.  Writing at the head appends to the contents (`contents_push`); advancing
the tail drops their first entry (`contents_succ`).
-/

variable {α : Type*} {n : ℕ}

/-- The cell `k` places after `i`, wrapping. -/
def slot (i : Fin n) (k : ℕ) : Fin n := ⟨(i + k) % n, Nat.mod_lt _ i.pos⟩

@[simp] theorem slot_zero (i : Fin n) : slot i 0 = i :=
  Fin.ext (Nat.mod_eq_of_lt i.isLt)

@[simp] theorem slot_slot (i : Fin n) (k l : ℕ) : slot (slot i k) l = slot i (k + l) :=
  Fin.ext (by simp [slot, Nat.add_assoc])

/-- Fewer than `n` places apart, cells are distinct. -/
theorem slot_inj {i : Fin n} {k l : ℕ} (hk : k < n) (hl : l < n) (h : slot i k = slot i l) :
    k = l := by
  -- the cells tell the distances apart modulo `n` only, and both are less
  have hmod : (i.val + k) ≡ (i.val + l) [MOD n] := Fin.ext_iff.mp h
  have hkl : k ≡ l [MOD n] := Nat.ModEq.add_left_cancel' _ hmod
  rwa [Nat.ModEq, Nat.mod_eq_of_lt hk, Nat.mod_eq_of_lt hl] at hkl

/-- The `count` cells from `tail` on, oldest first. -/
def contents (cells : Fin n → α) (tail : Fin n) (count : ℕ) : List α :=
  (List.range count).map fun k => cells (slot tail k)

@[simp] theorem length_contents (cells : Fin n → α) (tail : Fin n) (count : ℕ) :
    (contents cells tail count).length = count := by
  simp [contents]

/-- The oldest entry is the one at the tail. -/
theorem contents_succ (cells : Fin n → α) (tail : Fin n) (count : ℕ) :
    contents cells tail (count + 1) = cells tail :: contents cells (slot tail 1) count := by
  simp only [contents, List.range_succ_eq_map, List.map_cons, List.map_map, slot_zero]
  refine congrArg _ (List.map_congr_left fun k _ => ?_)
  simp [Nat.add_comm 1 k]

/-- Writing at the head appends. -/
theorem contents_push (cells : Fin n → α) (tail : Fin n) {count : ℕ} (x : α) (h : count < n) :
    contents (Function.update cells (slot tail count) x) tail (count + 1)
      = contents cells tail count ++ [x] := by
  simp only [contents, List.range_succ, List.map_append, List.map_singleton,
    Function.update_self]
  refine congrArg (· ++ [x]) (List.map_congr_left fun k hk => ?_)
  -- the cell written is not one of those from the tail to the head
  have hk : k < count := List.mem_range.mp hk
  exact Function.update_of_ne (fun heq => absurd (slot_inj (hk.trans h) h heq) hk.ne) _ _

end Gap.Ring
