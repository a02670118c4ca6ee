import Mathlib.Data.List.OfFn

namespace Gap

/-!
# Fixed-size byte buffers

A C array `uint8_t b[n]` is a function `Fin n → UInt8`.  `Buf.copy` is `memcpy` into the
buffer from an offset on; `Buf.front` reads the first bytes back.

* `copy_of_mem` / `copy_of_le` — a copy puts its bytes in place and keeps those behind them.
* `front_copy` — the bytes copied to the front are the bytes read from the front.
* `storeAll`, `copy_eq_storeAll` — single stores, each with its index, and a copy as such stores.
-/

/-- A C byte array of `n` cells. -/
abbrev Buf (n : ℕ) := Fin n → UInt8

namespace Buf

variable {n : ℕ}

/-- `memcpy (b + off, src, src.length)`; bytes that would fall outside `b` are dropped. -/
def copy (b : Buf n) (off : ℕ) (src : List UInt8) : Buf n := fun i =>
  if h : off ≤ i ∧ i - off < src.length then src[i.val - off] else b i

/-- The first `k` bytes of the buffer. -/
def front (b : Buf n) (k : ℕ) : List UInt8 := (List.ofFn b).take k

@[simp] theorem length_front (b : Buf n) (k : ℕ) : (b.front k).length = min k n := by
  simp [front]

theorem getElem_front (b : Buf n) {k i : ℕ} (h : i < (b.front k).length) :
    (b.front k)[i] = b ⟨i, by simp at h; omega⟩ := by
  simp [front]

@[simp] theorem front_zero (b : Buf n) : b.front 0 = [] := rfl

@[simp] theorem copy_nil (b : Buf n) (off : ℕ) : b.copy off [] = b := by
  funext i
  simp [copy]

/-- Bytes after the copied range are kept. -/
theorem copy_of_le (b : Buf n) {off : ℕ} (src : List UInt8) {i : Fin n}
    (h : off + src.length ≤ i.val) : b.copy off src i = b i := by
  rw [copy, dif_neg (by omega)]

/-- Bytes in the copied range come from the source. -/
theorem copy_of_mem (b : Buf n) {off : ℕ} (src : List UInt8) {i : Fin n} (h : off ≤ i.val)
    (h' : i.val - off < src.length) : b.copy off src i = src[i.val - off] := by
  rw [copy, dif_pos ⟨h, h'⟩]

/-- Stores into the buffer, in order, each with its index; those outside `b` are dropped. -/
def storeAll (b : Buf n) (stores : List (UInt8 × ℕ)) : Buf n :=
  stores.foldl (fun b st => b.copy st.2 [st.1]) b

theorem storeAll_append (b : Buf n) (stores stores' : List (UInt8 × ℕ)) :
    b.storeAll (stores ++ stores') = (b.storeAll stores).storeAll stores' := List.foldl_append ..

/-- A store of one byte. -/
theorem copy_singleton_apply (b : Buf n) (off : ℕ) (c : UInt8) (i : Fin n) :
    b.copy off [c] i = if i.val = off then c else b i := by
  by_cases hi : i.val = off
  · rw [if_pos hi, copy_of_mem b [c] (by omega) (by simp; omega)]
    simp [hi]
  · rw [if_neg hi, copy, dif_neg (by simp; omega)]

/-- A store inside the buffer. -/
theorem copy_singleton (b : Buf n) (i : Fin n) (c : UInt8) :
    b.copy i [c] = Function.update b i c := by
  funext j
  rw [copy_singleton_apply, Function.update_apply]
  exact if_congr Fin.ext_iff.symm rfl rfl

/-- A copy, the first byte apart. -/
theorem copy_cons (b : Buf n) (off : ℕ) (c : UInt8) (src : List UInt8) :
    b.copy off (c :: src) = (b.copy off [c]).copy (off + 1) src := by
  funext i
  rcases Nat.lt_trichotomy i.val off with hlt | rfl | hgt
  · -- in front of both
    simp [copy, not_le.mpr hlt, Nat.not_le.mpr (Nat.lt_succ_of_lt hlt)]
  · rw [copy_of_mem b (c :: src) le_rfl (by simp), copy, dif_neg (by omega),
      copy_of_mem b [c] le_rfl (by simp)]
    simp
  · have hidx : i.val - off = (i.val - (off + 1)) + 1 := by omega
    by_cases hin : i.val - (off + 1) < src.length
    · rw [copy_of_mem b (c :: src) hgt.le (by simp; omega), copy_of_mem _ src hgt hin]
      simp [hidx]
    · rw [copy, dif_neg (by simp; omega), copy, dif_neg (by omega), copy_of_le b [c] (by simp; omega)]

/-- **A copy as single stores.** -/
theorem copy_eq_storeAll (b : Buf n) (off : ℕ) (src : List UInt8) :
    b.copy off src = b.storeAll (src.zipIdx off) := by
  induction src generalizing b off with
  | nil => exact copy_nil b off
  | cons c src ih =>
    rw [copy_cons, ih, List.zipIdx_cons]
    rfl

/-- What a copy to the front leaves at the front. -/
theorem front_copy (b : Buf n) {src : List UInt8} {k : ℕ} (hk : k ≤ src.length)
    (hn : k ≤ n) : (b.copy 0 src).front k = src.take k := by
  refine List.ext_getElem (by simp [hk, hn]) fun i h₁ h₂ => ?_
  -- every byte of the front lies in the copied range
  have hi : i < k := by simp at h₁; omega
  rw [getElem_front, copy_of_mem _ _ (Nat.zero_le _) (by simp; omega)]
  simp

/-- Reading a shorter front of a front. -/
theorem take_front (b : Buf n) (j k : ℕ) : (b.front k).take j = b.front (min j k) := by
  simp [front, List.take_take]

/-- A front is a prefix of every front that is at least as long. -/
theorem front_prefix_front (b : Buf n) {j k : ℕ} (h : (b.front j).length ≤ k) :
    b.front j <+: b.front k :=
  List.prefix_take_iff.mpr ⟨List.take_prefix _ _, h⟩

end Buf

end Gap
