import Gap.Lib.Bytes
import Mathlib.Algebra.Ring.Nat
import Mathlib.Data.Fintype.Basic

namespace Gap.Tunnel

/-!
# IPv6 headers in the read buffer

The server looks at a packet through a cast of its 4096-byte read buffer to `struct ipv6hdr`;
how many bytes the last `read` delivered plays no part in it.

* `version`, `saddr`, `daddr` — the header fields the server looks at.
* `linkLocalSource` — the source address, if it passes the tests made before it is learned.
* `Inspectable` — the reads that decide this on their own; `linkLocalSource_copy`.
-/

/-- `struct in6_addr`. -/
abbrev In6Addr := Buf 16

@[instance] theorem neZero_16 : NeZero 16 := ⟨by decide⟩

/-- `memcmp (a.s6_addr + off, b.s6_addr + off, n) == 0`. -/
def In6Addr.agree (a b : In6Addr) (off n : ℕ) : Bool :=
  decide (∀ i : Fin 16, off ≤ i.val → i.val < off + n → a i = b i)

/-- Comparing all sixteen bytes is comparing the addresses. -/
theorem In6Addr.agree_all {a b : In6Addr} : a.agree b 0 16 = true ↔ a = b := by
  rw [In6Addr.agree, decide_eq_true_eq]
  constructor
  · intro h
    funext i
    exact h i (Nat.zero_le _) (by omega)
  · rintro rfl i - -
    rfl

/-- Equal addresses agree on every range. -/
theorem In6Addr.agree_refl (a : In6Addr) (off n : ℕ) : a.agree a off n = true := by
  rw [In6Addr.agree, decide_eq_true_eq]
  intro i _ _
  rfl

theorem In6Addr.agree_comm (a b : In6Addr) (off n : ℕ) : a.agree b off n = b.agree a off n := by
  unfold In6Addr.agree
  exact decide_eq_decide.mpr
    ⟨fun h i h₁ h₂ => (h i h₁ h₂).symm, fun h i h₁ h₂ => (h i h₁ h₂).symm⟩

/-- `s6_addr[0] == 0xfe && s6_addr[1] == 0x80`. -/
def In6Addr.isLinkLocal (a : In6Addr) : Bool := a 0 == 0xfe && a 1 == 0x80

/-! ### The header -/

/-- `iph->version`, the high half of the first byte. -/
def version (buf : Buf 4096) : UInt8 := buf 0 >>> 4

/-- `iph->saddr`. -/
def saddr (buf : Buf 4096) : In6Addr := fun i => buf ⟨8 + i.val, by omega⟩

/-- `iph->daddr`. -/
def daddr (buf : Buf 4096) : In6Addr := fun i => buf ⟨24 + i.val, by omega⟩

/-- The source address of a packet that passes the nested tests before an address is learned. -/
def linkLocalSource (buf : Buf 4096) : Option In6Addr :=
  if version buf = 6 then
    if (saddr buf).isLinkLocal then some (saddr buf) else none
  else none

/-! ### What a read decides -/

/-- The bytes a read delivers are the bytes of the buffer. -/
theorem copy_apply (stale : Buf 4096) {data : List UInt8} {i : ℕ} (hi : i < data.length)
    (h : i < 4096) : stale.copy 0 data ⟨i, h⟩ = data[i] :=
  Buf.copy_of_mem _ _ (Nat.zero_le _) (by simpa using hi)

/-- The reads that decide the tests on their own: a whole header, or bytes that already fail
    one of them. -/
def Inspectable (data : List UInt8) : Prop :=
  40 ≤ data.length ∨ (data[0]?).any (fun b : UInt8 => b >>> 4 != 6) = true ∨
    (data[8]?).any (fun b : UInt8 => b != 0xfe) = true ∨ (data[9]?).any (fun b : UInt8 => b != 0x80) = true

instance (data : List UInt8) : Decidable (Inspectable data) :=
  inferInstanceAs (Decidable (_ ∨ _ ∨ _ ∨ _))

/-- What a read presents as its source address, inspected over a buffer of zeros. -/
def presented (data : List UInt8) : Option In6Addr :=
  linkLocalSource (Buf.copy (fun _ => 0) 0 data)

/-- A byte that a read delivers, whatever the buffer held. -/
theorem copy_of_any {data : List UInt8} {p : UInt8 → Bool} {k : ℕ} (h : (data[k]?).any p = true)
    (hk : k < 4096) (stale : Buf 4096) : p (stale.copy 0 data ⟨k, hk⟩) = true := by
  rw [Option.any_eq_true] at h
  obtain ⟨b, hb, hp⟩ := h
  obtain ⟨hlt, rfl⟩ := List.getElem?_eq_some_iff.mp hb
  rwa [copy_apply stale hlt]

/-- Bytes that fail a test fail it over any buffer. -/
theorem linkLocalSource_of_fails {data : List UInt8}
    (h : (data[0]?).any (fun b : UInt8 => b >>> 4 != 6) = true ∨
      (data[8]?).any (fun b : UInt8 => b != 0xfe) = true ∨ (data[9]?).any (fun b : UInt8 => b != 0x80) = true)
    (stale : Buf 4096) : linkLocalSource (stale.copy 0 data) = none := by
  unfold linkLocalSource
  -- the byte that fails its test was delivered, so the buffer cannot make up for it
  rcases h with hversion | hfirst | hsecond
  · have hne := copy_of_any hversion (by omega) stale
    rw [bne_iff_ne] at hne
    exact if_neg hne
  · have hne := copy_of_any hfirst (by omega) stale
    have hnot : (saddr (stale.copy 0 data)).isLinkLocal = false := by
      rw [bne_iff_ne] at hne
      simp only [In6Addr.isLinkLocal, Bool.and_eq_false_iff, beq_eq_false_iff_ne]
      exact .inl hne
    simp [hnot]
  · have hne := copy_of_any hsecond (by omega) stale
    have hnot : (saddr (stale.copy 0 data)).isLinkLocal = false := by
      rw [bne_iff_ne] at hne
      simp only [In6Addr.isLinkLocal, Bool.and_eq_false_iff, beq_eq_false_iff_ne]
      exact .inr hne
    simp [hnot]

/-- A whole header is read over any buffer. -/
theorem linkLocalSource_of_le {data : List UInt8} (h : 40 ≤ data.length) (stale : Buf 4096) :
    linkLocalSource (stale.copy 0 data) = presented data := by
  have hversion : version (stale.copy 0 data) = version (Buf.copy (fun _ => 0) 0 data) := by
    show stale.copy 0 data ⟨0, _⟩ >>> 4 = Buf.copy (fun _ => 0) 0 data ⟨0, _⟩ >>> 4
    rw [copy_apply stale (by omega), copy_apply _ (by omega)]
  have hsaddr : saddr (stale.copy 0 data) = saddr (Buf.copy (fun _ => 0) 0 data) := by
    funext i
    rw [saddr, saddr, copy_apply stale (by omega), copy_apply _ (by omega)]
  rw [presented, linkLocalSource, linkLocalSource, hversion, hsaddr]

/-- **An inspectable read decides what is learned**, whatever the buffer held before it. -/
theorem linkLocalSource_copy {data : List UInt8} (h : Inspectable data) (stale : Buf 4096) :
    linkLocalSource (stale.copy 0 data) = presented data := by
  rcases h with hlen | hfails
  · exact linkLocalSource_of_le hlen stale
  · rw [presented, linkLocalSource_of_fails hfails, linkLocalSource_of_fails hfails]

/-- An inspectable read without a whole header presents nothing. -/
theorem presented_of_lt {data : List UInt8} (h : Inspectable data) (hlt : data.length < 40) :
    presented data = none :=
  linkLocalSource_of_fails (h.resolve_left (by omega)) _

/-- A byte that fails no test, or one that the read does not deliver over a byte that fails
    none. -/
theorem copy_of_not_any {data : List UInt8} {p : UInt8 → Bool} {k : ℕ}
    (h : ¬ (data[k]?).any p = true) (hk : k < 4096) (stale : Buf 4096)
    (hstale : p (stale ⟨k, hk⟩) = false) : p (stale.copy 0 data ⟨k, hk⟩) = false := by
  by_cases hlt : k < data.length
  · rw [copy_apply stale hlt]
    rw [List.getElem?_eq_getElem hlt, Option.any_some, Bool.not_eq_true] at h
    exact h
  · rw [Buf.copy_of_le _ _ (by simp only [Nat.zero_add]; omega)]
    exact hstale

/-- Any other read is learned from, over some buffer. -/
theorem exists_linkLocalSource {data : List UInt8} (h : ¬ Inspectable data) :
    ∃ stale : Buf 4096, (linkLocalSource (stale.copy 0 data)).isSome = true := by
  obtain ⟨-, hversion, hfirst, hsecond⟩ : ¬ 40 ≤ data.length ∧ _ ∧ _ ∧ _ := by
    simpa only [Inspectable, not_or] using h
  -- a buffer that holds the start of a packet from a link-local address
  let stale : Buf 4096 := fun i =>
    if i.val = 0 then 0x60 else if i.val = 8 then 0xfe else if i.val = 9 then 0x80 else 0
  refine ⟨stale, ?_⟩
  have h₀ := copy_of_not_any hversion (by omega) stale (by decide)
  have h₈ := copy_of_not_any hfirst (by omega) stale (by decide)
  have h₉ := copy_of_not_any hsecond (by omega) stale (by decide)
  rw [bne_eq_false_iff_eq] at h₀ h₈ h₉
  have hlocal : (saddr (stale.copy 0 data)).isLinkLocal = true := by
    rw [In6Addr.isLinkLocal, Bool.and_eq_true, beq_iff_eq, beq_iff_eq]
    exact ⟨h₈, h₉⟩
  have hv : version (stale.copy 0 data) = 6 := h₀
  rw [linkLocalSource, if_pos hv, if_pos hlocal]
  rfl

end Gap.Tunnel
