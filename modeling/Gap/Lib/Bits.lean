import Gap.Lib.Bytes
import Mathlib.Data.List.Induction
import Mathlib.Data.Nat.Bitwise

namespace Gap

/-!
# Bits of byte buffers

The bits of a buffer in network order: bit 0 is the most significant bit of the first byte.

* `byteBit`, `Buf.bit` — one bit.
* `Buf.SameBits` — the first bits of two buffers are the same.
* `sameBits_add_iff` — comparing whole bytes, and then the first bits of one more.
* `mask_eq_iff` — comparing two bytes under a mask is comparing the bits of the mask.
* `Buf.num` — the buffer as a number; `testBit_num`, its bits.
* `sameBits_iff_num`, `num_mod_eq_iff` — the first bits and the last bytes, in numbers.
-/

/-- Bit `k` of a byte, from the most significant one. -/
def byteBit (x : UInt8) (k : ℕ) : Bool := x.toNat.testBit (7 - k)

/-- A byte is its eight bits. -/
theorem byte_ext {x y : UInt8} (h : ∀ k < 8, byteBit x k = byteBit y k) : x = y := by
  refine UInt8.toNat_inj.mp (Nat.eq_of_testBit_eq fun i => ?_)
  by_cases hi : i < 8
  · have hbit := h (7 - i) (by omega)
    simp only [byteBit, show 7 - (7 - i) = i by omega] at hbit
    exact hbit
  · -- above its eight bits a byte has none
    have hhigh : ∀ z : UInt8, z.toNat.testBit i = false := by
      intro z
      refine Nat.testBit_lt_two_pow (lt_of_lt_of_le z.toNat_lt ?_)
      exact Nat.pow_le_pow_right (by decide) (by omega)
    rw [hhigh x, hhigh y]

theorem byteBit_and (x m : UInt8) (k : ℕ) : byteBit (x &&& m) k = (byteBit x k && byteBit m k) := by
  rw [byteBit, UInt8.toNat_and, Nat.testBit_and]
  rfl

/-- A mask of the first `r` bits. -/
theorem mask_eq_iff {m : UInt8} {r : ℕ} (hm : ∀ k < 8, byteBit m k = decide (k < r)) (hr : r ≤ 8)
    (x y : UInt8) : x &&& m = y &&& m ↔ ∀ k < r, byteBit x k = byteBit y k := by
  constructor
  · intro h k hk
    have hbit := congrArg (byteBit · k) h
    simpa [byteBit_and, hm k (by omega), hk] using hbit
  · intro h
    refine byte_ext fun k hk => ?_
    rw [byteBit_and, byteBit_and, hm k hk]
    by_cases hkr : k < r
    · rw [h k hkr]
    · simp [hkr]

namespace Buf

variable {n : ℕ}

/-- Bit `i` of a buffer. -/
def bit (b : Buf n) (i : ℕ) : Bool :=
  if h : i / 8 < n then byteBit (b ⟨i / 8, h⟩) (i % 8) else false

theorem bit_of_byte (b : Buf n) {j k : ℕ} (hj : j < n) (hk : k < 8) :
    b.bit (8 * j + k) = byteBit (b ⟨j, hj⟩) k := by
  have hdiv : (8 * j + k) / 8 = j := by omega
  have hmod : (8 * j + k) % 8 = k := by omega
  simp only [bit, hdiv, hj, dif_pos, hmod]

/-- The first `p` bits are the same. -/
def SameBits (p : ℕ) (a b : Buf n) : Prop := ∀ i < p, a.bit i = b.bit i

instance (p : ℕ) (a b : Buf n) : Decidable (SameBits p a b) :=
  inferInstanceAs (Decidable (∀ i < p, a.bit i = b.bit i))

theorem SameBits.symm {p : ℕ} {a b : Buf n} (h : SameBits p a b) : SameBits p b a :=
  fun i hi => (h i hi).symm

theorem SameBits.trans {p : ℕ} {a b c : Buf n} (h : SameBits p a b) (h' : SameBits p b c) :
    SameBits p a c := fun i hi => (h i hi).trans (h' i hi)

/-- The first `k` bytes and `r` bits of the next one. -/
theorem sameBits_add_iff {a b : Buf n} {k r : ℕ} (hk : k < n) (hr : r ≤ 8) :
    SameBits (8 * k + r) a b ↔ (∀ i : Fin n, i.val < k → a i = b i) ∧
      ∀ q < r, byteBit (a ⟨k, hk⟩) q = byteBit (b ⟨k, hk⟩) q := by
  constructor
  · intro h
    refine ⟨fun i hi => byte_ext fun q hq => ?_, fun q hq => ?_⟩
    · have hbit := h (8 * i.val + q) (by omega)
      rwa [bit_of_byte a i.isLt hq, bit_of_byte b i.isLt hq] at hbit
    · have hbit := h (8 * k + q) (by omega)
      rwa [bit_of_byte a hk (by omega), bit_of_byte b hk (by omega)] at hbit
  · rintro ⟨hbytes, hbits⟩ i hi
    -- bit `i` is in one of the bytes compared as a whole, or in the one behind them
    obtain ⟨j, q, hq, rfl⟩ : ∃ j q, q < 8 ∧ i = 8 * j + q :=
      ⟨i / 8, i % 8, Nat.mod_lt _ (by decide), (Nat.div_add_mod i 8).symm⟩
    by_cases hj : j < k
    · rw [bit_of_byte a (hj.trans hk) hq, bit_of_byte b (hj.trans hk) hq,
        hbytes ⟨j, hj.trans hk⟩ hj]
    · obtain rfl : j = k := by omega
      rw [bit_of_byte a hk hq, bit_of_byte b hk hq]
      exact hbits q (by omega)

/-! ### Buffers as numbers -/

/-- Bytes in network order as a number. -/
def numOf (bytes : List UInt8) : ℕ := bytes.foldl (fun a x => a * 2 ^ 8 + x.toNat) 0

theorem numOf_concat (bytes : List UInt8) (x : UInt8) :
    numOf (bytes ++ [x]) = numOf bytes * 2 ^ 8 + x.toNat := by
  rw [numOf, List.foldl_append]
  rfl

/-- The bits of the number, from the last byte on. -/
theorem testBit_numOf (bytes : List UInt8) (i : ℕ) :
    (numOf bytes).testBit i
      = ((bytes.reverse[i / 8]?).map fun x => x.toNat.testBit (i % 8)).getD false := by
  induction bytes using List.reverseRecOn generalizing i with
  | nil => simp [numOf]
  | append_singleton bytes x ih =>
    rw [numOf_concat, Nat.mul_comm, Nat.testBit_two_pow_mul_add _ x.toNat_lt, List.reverse_append,
      List.reverse_singleton, List.singleton_append]
    by_cases hi : i < 8
    · rw [if_pos hi, Nat.div_eq_of_lt hi, Nat.mod_eq_of_lt hi]
      simp
    · -- a bit of the bytes in front of the last one
      have hdiv : i / 8 = (i - 8) / 8 + 1 := by omega
      have hmod : i % 8 = (i - 8) % 8 := by omega
      rw [if_neg hi, ih, hdiv, hmod, List.getElem?_cons_succ]

/-- The buffer as a number. -/
def num (b : Buf n) : ℕ := numOf (List.ofFn b)

theorem testBit_num (b : Buf n) {i : ℕ} (hi : i < 8 * n) :
    b.num.testBit i = b.bit (8 * n - 1 - i) := by
  have hdiv : (8 * n - 1 - i) / 8 = n - 1 - i / 8 := by omega
  have hmod : (8 * n - 1 - i) % 8 = 7 - i % 8 := by omega
  have hbit : 7 - (7 - i % 8) = i % 8 := by omega
  have hbyte : n - 1 - i / 8 < n := by omega
  rw [num, testBit_numOf, List.getElem?_eq_getElem (by simp; omega), List.getElem_reverse]
  simp [bit, byteBit, hdiv, hmod, hbit, hbyte]

/-- Above its bytes the number has no bits. -/
theorem testBit_num_of_le (b : Buf n) {i : ℕ} (hi : 8 * n ≤ i) : b.num.testBit i = false := by
  rw [num, testBit_numOf, List.getElem?_eq_none (by simp; omega)]
  rfl

/-- **The first bits, in numbers.** -/
theorem sameBits_iff_num {a b : Buf n} {p : ℕ} (hp : p ≤ 8 * n) :
    SameBits p a b ↔ a.num / 2 ^ (8 * n - p) = b.num / 2 ^ (8 * n - p) := by
  constructor
  · intro h
    refine Nat.eq_of_testBit_eq fun i => ?_
    rw [Nat.testBit_div_two_pow, Nat.testBit_div_two_pow]
    by_cases hi : i < p
    · rw [testBit_num _ (by omega), testBit_num _ (by omega)]
      exact h _ (by omega)
    · rw [testBit_num_of_le _ (by omega), testBit_num_of_le _ (by omega)]
  · intro h i hi
    have hbit := congrArg (Nat.testBit · (p - 1 - i)) h
    simp only [Nat.testBit_div_two_pow] at hbit
    rw [testBit_num _ (by omega), testBit_num _ (by omega),
      show 8 * n - 1 - (p - 1 - i + (8 * n - p)) = i by omega] at hbit
    exact hbit

/-- **The last bytes, in numbers.** -/
theorem num_mod_eq_iff {a b : Buf n} {k : ℕ} (hk : k ≤ n) :
    a.num % 2 ^ (8 * k) = b.num % 2 ^ (8 * k) ↔ ∀ i : Fin n, n - k ≤ i.val → a i = b i := by
  constructor
  · intro h i hi
    refine byte_ext fun q hq => ?_
    have hbit := congrArg (Nat.testBit · (8 * n - 1 - (8 * i.val + q))) h
    have hlow : 8 * n - 1 - (8 * i.val + q) < 8 * k := by omega
    simp only [Nat.testBit_mod_two_pow, hlow, decide_true, Bool.true_and] at hbit
    rw [testBit_num _ (by omega), testBit_num _ (by omega),
      show 8 * n - 1 - (8 * n - 1 - (8 * i.val + q)) = 8 * i.val + q by omega,
      bit_of_byte a i.isLt hq, bit_of_byte b i.isLt hq] at hbit
    exact hbit
  · intro h
    refine Nat.eq_of_testBit_eq fun i => ?_
    rw [Nat.testBit_mod_two_pow, Nat.testBit_mod_two_pow]
    by_cases hi : i < 8 * k
    · -- the bit is one of the last bytes
      have hbyte : n - 1 - i / 8 < n := by omega
      have hsplit : 8 * n - 1 - i = 8 * (n - 1 - i / 8) + (7 - i % 8) := by omega
      rw [testBit_num _ (by omega), testBit_num _ (by omega), hsplit,
        bit_of_byte a hbyte (by omega), bit_of_byte b hbyte (by omega), h ⟨_, hbyte⟩ (by
          simp only; omega)]
    · simp [hi]

end Buf

end Gap
