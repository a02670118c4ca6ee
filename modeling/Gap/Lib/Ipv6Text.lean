import Gap.Lib.Bytes
import Mathlib.Algebra.Ring.Nat

namespace Gap

/-!
# IPv6 texts

`inet_pton (AF_INET6, src, dst)` of the C library: groups of one to four hexadecimal digits
between colons, one `::` for any number of zero groups, and a dotted IPv4 address in place of the
last two groups.

* `inetPton6` — the parser, character by character; `inetPton4` — the dotted part.
* `chars_of_inetPton6` — the characters of the texts it accepts.
* `scan_append` — a text scanned in two parts.
* `inetPton6_append_zeros` — a group of zeros behind a final `::` does not change the address.
-/

namespace Ipv6Text

/-- `':'`. -/
def colon : UInt8 := 58

/-- `'.'`. -/
def dot : UInt8 := 46

/-- `'0'`. -/
def zero : UInt8 := 48

/-- A decimal digit. -/
def isDigit (c : UInt8) : Bool := 48 ≤ c && c ≤ 57

/-- The value of a hexadecimal digit. -/
def hexDigitValue (c : UInt8) : Option ℕ :=
  if isDigit c then some (c.toNat - 48)
  else if 65 ≤ c ∧ c ≤ 70 then some (c.toNat - 55)
  else if 97 ≤ c ∧ c ≤ 102 then some (c.toNat - 87)
  else none

/-- The characters of an IPv6 text: hexadecimal digits, colons and dots. -/
def isTextChar (c : UInt8) : Bool := (hexDigitValue c).isSome || c == colon || c == dot

/-! ### The dotted part -/

/-- The rest of an IPv4 text, with the octets so far and the value of the one begun. -/
def scan4 : List UInt8 → Option ℕ → List UInt8 → Option (List UInt8)
  | octets, some v, [] => if octets.length = 3 then some (octets ++ [UInt8.ofNat v]) else none
  | _, none, [] => none
  | octets, cur, c :: src =>
    if isDigit c then
      match cur with
      | none => scan4 octets (some (c.toNat - 48)) src
      | some v =>
        -- no octet of several digits starts with a zero
        if v = 0 ∨ 255 < v * 10 + (c.toNat - 48) then none
        else scan4 octets (some (v * 10 + (c.toNat - 48))) src
    else
      match cur with
      | none => none
      | some v =>
        if c = dot ∧ octets.length < 3 then scan4 (octets ++ [UInt8.ofNat v]) none src else none

/-- `inet_pton4`. -/
def inetPton4 (src : List UInt8) : Option (List UInt8) := scan4 [] none src

/-! ### The groups -/

/-- The variables of the scan: the bytes stored, where the `::` was, and the digits of the group
    begun, with their value. -/
structure Scan where
  tmp : List UInt8
  colonp : Option ℕ
  seen : ℕ
  val : ℕ

/-- Before the first character. -/
def Scan.start : Scan := ⟨[], none, 0, 0⟩

/-- The bytes stored when the group begun is stored too. -/
def Scan.store (st : Scan) : List UInt8 :=
  st.tmp ++ [UInt8.ofNat (st.val / 256), UInt8.ofNat (st.val % 256)]

/-- The scan of the rest of a text; `curtok` is where the group begun starts. -/
def scan : Scan → List UInt8 → List UInt8 → Option Scan
  | st, _, [] => some st
  | st, curtok, c :: src =>
    match hexDigitValue c with
    | some d =>
      if st.seen = 4 then none
      else scan { st with seen := st.seen + 1, val := st.val * 16 + d } curtok src
    | none =>
      if c = colon then
        if st.seen = 0 then
          -- only one `::`
          if st.colonp.isSome then none
          else scan { st with colonp := some st.tmp.length } src src
        -- no single colon at the end
        else if src = [] ∨ 16 < st.tmp.length + 2 then none
        else scan { st with tmp := st.store, seen := 0, val := 0 } src src
      else if c = dot ∧ st.tmp.length + 4 ≤ 16 then
        -- the dotted part goes up to the end
        (inetPton4 curtok).map fun octets => { st with tmp := st.tmp ++ octets, seen := 0 }
      else none

/-- The sixteen bytes: the last group is stored, the `::` filled with zeros. -/
def finish (st : Scan) : Option (List UInt8) :=
  if st.seen ≠ 0 ∧ 16 < st.tmp.length + 2 then none
  else
    let tmp := if st.seen ≠ 0 then st.store else st.tmp
    match st.colonp with
    | some p =>
      if tmp.length = 16 then none
      else some (tmp.take p ++ List.replicate (16 - tmp.length) 0 ++ tmp.drop p)
    | none => if tmp.length = 16 then some tmp else none

/-- Where the scan starts: a leading `::` needs both colons, and the first one is skipped. -/
def leading : List UInt8 → Option (List UInt8)
  | [] => none
  | c :: src =>
    if c = colon then (if src.head? = some colon then some src else none) else some (c :: src)

end Ipv6Text

open Ipv6Text

/-- `inet_pton (AF_INET6, text, ..)`. -/
def inetPton6 (text : List UInt8) : Option (Buf 16) := do
  let src ← leading text
  let st ← scan .start src src
  let bytes ← finish st
  pure fun i => bytes.getD i 0

namespace Ipv6Text

/-! ### The characters -/

/-- A dotted text has digits and dots. -/
theorem chars_of_scan4 {octets : List UInt8} {cur : Option ℕ} {src bytes : List UInt8}
    (h : scan4 octets cur src = some bytes) : ∀ c ∈ src, isDigit c = true ∨ c = dot := by
  fun_induction scan4 octets cur src with
  | case1 | case2 | case3 => simp
  | case4 octets c src hdigit ih =>
    exact List.forall_mem_cons.mpr ⟨.inl hdigit, ih h⟩
  | case5 => cases h
  | case6 octets c src hdigit v hv ih =>
    exact List.forall_mem_cons.mpr ⟨.inl hdigit, ih h⟩
  | case7 => cases h
  | case8 octets c src hdigit v hdot ih =>
    exact List.forall_mem_cons.mpr ⟨.inr hdot.1, ih h⟩
  | case9 => cases h

/-! ### One character -/

/-- A digit of the group. -/
def Scan.digit (st : Scan) (d : ℕ) : Scan := { st with seen := st.seen + 1, val := st.val * 16 + d }

/-- The `::` is here. -/
def Scan.gap (st : Scan) : Scan := { st with colonp := some st.tmp.length }

/-- The group has ended. -/
def Scan.group (st : Scan) : Scan := { st with tmp := st.store, seen := 0, val := 0 }

/-- What can come next in a text that is accepted. -/
inductive Next (st : Scan) (curtok : List UInt8) (c : UInt8) (src : List UInt8) (st' : Scan) : Prop
  | digit (d : ℕ) (hd : hexDigitValue c = some d) (hseen : st.seen ≠ 4)
      (h : scan (st.digit d) curtok src = some st')
  | gap (hc : c = colon) (hseen : st.seen = 0) (hnone : st.colonp = none)
      (h : scan st.gap src src = some st')
  | group (hc : c = colon) (hseen : st.seen ≠ 0) (hne : src ≠ []) (hroom : st.tmp.length + 2 ≤ 16)
      (h : scan st.group src src = some st')
  | dotted (hc : c = dot) (octets : List UInt8) (h : inetPton4 curtok = some octets)

theorem next_of_scan {st st' : Scan} {curtok src : List UInt8} {c : UInt8}
    (h : scan st curtok (c :: src) = some st') : Next st curtok c src st' := by
  rw [scan] at h
  split at h
  · next d hd =>
    obtain ⟨hseen, h⟩ := Option.ite_none_left_eq_some.mp h
    exact .digit d hd hseen h
  · split at h
    · next hcolon =>
      split at h
      · next hseen =>
        obtain ⟨hnone, h⟩ := Option.ite_none_left_eq_some.mp h
        exact .gap hcolon hseen (by simpa using hnone) h
      · next hseen =>
        obtain ⟨hroom, h⟩ := Option.ite_none_left_eq_some.mp h
        rw [not_or, not_lt] at hroom
        exact .group hcolon hseen hroom.1 hroom.2 h
    · obtain ⟨hdot, h⟩ := Option.ite_none_right_eq_some.mp h
      obtain ⟨octets, hoctets, -⟩ := Option.map_eq_some_iff.mp h
      exact .dotted hdot.1 octets hoctets

theorem scan_digit {st : Scan} {c : UInt8} {d : ℕ} (hd : hexDigitValue c = some d)
    (hseen : st.seen ≠ 4) (curtok src : List UInt8) :
    scan st curtok (c :: src) = scan (st.digit d) curtok src := by
  simp only [scan, hd]
  exact if_neg hseen

/-- Two digits of the group. -/
theorem scan_two {st : Scan} {c c' : UInt8} {d d' : ℕ} (hd : hexDigitValue c = some d)
    (hd' : hexDigitValue c' = some d') (hseen : st.seen + 2 ≤ 4) (curtok src : List UInt8) :
    scan st curtok (c :: c' :: src) = scan ((st.digit d).digit d') curtok src := by
  have hone : st.seen ≠ 4 := by omega
  have htwo : (st.digit d).seen ≠ 4 := by
    show st.seen + 1 ≠ 4
    omega
  rw [scan_digit hd hone, scan_digit hd' htwo]

theorem scan_gap {st : Scan} (hseen : st.seen = 0) (hnone : st.colonp = none)
    (curtok src : List UInt8) : scan st curtok (colon :: src) = scan st.gap src src := by
  have hcolon : hexDigitValue colon = none := by decide
  simp [scan, hcolon, hseen, hnone, Scan.gap]

theorem scan_group {st : Scan} (hseen : st.seen ≠ 0) (hroom : st.tmp.length + 2 ≤ 16)
    {src : List UInt8} (hne : src ≠ []) (curtok : List UInt8) :
    scan st curtok (colon :: src) = scan st.group src src := by
  have hcolon : hexDigitValue colon = none := by decide
  have hfits : ¬ (src = [] ∨ 16 < st.tmp.length + 2) := by
    rintro (hnil | hlt)
    · exact hne hnil
    · omega
  simp only [scan, hcolon, if_pos, if_neg hseen]
  exact if_neg hfits

/-- A text is scanned to its end, or up to its dotted part. -/
theorem chars_of_scan {st st' : Scan} {curtok src : List UInt8} (h : scan st curtok src = some st')
    (hsuffix : src <:+ curtok) : ∀ c ∈ src, isTextChar c = true := by
  induction src generalizing st curtok with
  | nil => simp
  | cons c src ih =>
    have htail : src <:+ curtok := (List.suffix_cons c src).trans hsuffix
    cases next_of_scan h with
    | digit d hd hseen h =>
      exact List.forall_mem_cons.mpr ⟨by simp [isTextChar, hd], ih h htail⟩
    | gap hc hseen hnone h =>
      exact List.forall_mem_cons.mpr ⟨by simp [isTextChar, hc], ih h List.suffix_rfl⟩
    | group hc hseen hne hroom h =>
      exact List.forall_mem_cons.mpr ⟨by simp [isTextChar, hc], ih h List.suffix_rfl⟩
    | dotted hc octets h =>
      -- the dotted part starts in front of the dot and takes in all that is left
      intro x hx
      rcases chars_of_scan4 h x (hsuffix.subset hx) with hdigit | hdot
      · simp [isTextChar, hexDigitValue, hdigit]
      · simp [isTextChar, hdot]

/-- The characters of the texts that are accepted. -/
theorem chars_of_inetPton6 {text : List UInt8} {addr : Buf 16} (h : inetPton6 text = some addr) :
    ∀ c ∈ text, isTextChar c = true := by
  obtain ⟨src, hsrc, h⟩ := Option.bind_eq_some_iff.mp h
  obtain ⟨st, hst, -⟩ := Option.bind_eq_some_iff.mp h
  have hchars := chars_of_scan hst List.suffix_rfl
  cases text with
  | nil => simp
  | cons c rest =>
    by_cases hcolon : c = colon
    · rw [leading, if_pos hcolon] at hsrc
      obtain ⟨-, hsrc⟩ := Option.ite_none_right_eq_some.mp hsrc
      obtain rfl := Option.some.inj hsrc
      exact List.forall_mem_cons.mpr ⟨by simp [isTextChar, hcolon], hchars⟩
    · rw [leading, if_neg hcolon, Option.some.injEq] at hsrc
      rwa [hsrc]

/-! ### Zeros behind a final `::` -/

/-- A text that ends in a colon has no dotted part. -/
theorem dot_notMem_of_scan {st st' : Scan} {curtok src : List UInt8}
    (h : scan st curtok (src ++ [colon]) = some st') (hsuffix : src ++ [colon] <:+ curtok) :
    dot ∉ src := by
  induction src generalizing st curtok with
  | nil => simp
  | cons c src ih =>
    have htail : src ++ [colon] <:+ curtok := (List.suffix_cons c _).trans hsuffix
    rw [List.mem_cons, not_or]
    cases next_of_scan h with
    | digit d hd hseen h =>
      refine ⟨?_, ih h htail⟩
      rintro rfl
      cases hd
    | gap hc hseen hnone h => exact ⟨by rw [hc]; decide, ih h List.suffix_rfl⟩
    | group hc hseen hne hroom h => exact ⟨by rw [hc]; decide, ih h List.suffix_rfl⟩
    | dotted hc octets h =>
      -- no dotted part has a colon in it
      exact absurd (chars_of_scan4 h colon (htail.subset (by simp))) (by decide)

/-- A text without a dotted part is scanned in two parts. -/
theorem scan_append {st st' : Scan} {curtok src : List UInt8} (h : scan st curtok src = some st')
    (hdot : dot ∉ src) (curtok₂ more : List UInt8) :
    ∃ curtok', scan st curtok₂ (src ++ more) = scan st' curtok' more := by
  induction src generalizing st curtok curtok₂ with
  | nil =>
    obtain rfl := Option.some.inj h
    exact ⟨curtok₂, rfl⟩
  | cons c src ih =>
    rw [List.mem_cons, not_or] at hdot
    rw [List.cons_append]
    cases next_of_scan h with
    | digit d hd hseen h =>
      rw [scan_digit hd hseen]
      exact ih h hdot.2 curtok₂
    | gap hc hseen hnone h =>
      rw [hc, scan_gap hseen hnone]
      exact ih h hdot.2 _
    | group hc hseen hne hroom h =>
      rw [hc, scan_group hseen hroom (List.append_ne_nil_of_left_ne_nil hne _)]
      exact ih h hdot.2 _
    | dotted hc octets h => exact absurd hc.symm hdot.1

/-- Behind a final colon, no group is begun and the `::` is here. -/
theorem scan_colon {st st' : Scan} {curtok src : List UInt8}
    (h : scan st curtok (src ++ [colon]) = some st') (hdot : dot ∉ src)
    (hval : st.seen = 0 → st.val = 0) :
    st'.seen = 0 ∧ st'.val = 0 ∧ st'.colonp = some st'.tmp.length := by
  induction src generalizing st curtok with
  | nil =>
    cases next_of_scan h with
    | digit d hd hseen h => cases hd
    | gap hc hseen hnone h =>
      obtain rfl := Option.some.inj h
      exact ⟨hseen, hval hseen, rfl⟩
    | group hc hseen hne hroom h => exact absurd rfl hne
    | dotted hc octets h => cases hc
  | cons c src ih =>
    rw [List.mem_cons, not_or] at hdot
    cases next_of_scan h with
    | digit d hd hseen h => exact ih h hdot.2 fun h0 => by cases h0
    | gap hc hseen hnone h => exact ih h hdot.2 hval
    | group hc hseen hne hroom h => exact ih h hdot.2 fun _ => rfl
    | dotted hc octets h => exact absurd hc.symm hdot.1

/-- Each group stored has ended in a colon, and the last one ends none. -/
theorem length_tmp_of_scan {st st' : Scan} {curtok src : List UInt8}
    (h : scan st curtok (src ++ [colon]) = some st') (hdot : dot ∉ src) :
    st'.tmp.length ≤ st.tmp.length + 2 * src.count colon := by
  induction src generalizing st curtok with
  | nil =>
    cases next_of_scan h with
    | digit d hd hseen h => cases hd
    | gap hc hseen hnone h =>
      obtain rfl := Option.some.inj h
      exact le_rfl
    | group hc hseen hne hroom h => exact absurd rfl hne
    | dotted hc octets h => cases hc
  | cons c src ih =>
    rw [List.mem_cons, not_or] at hdot
    rw [List.count_cons]
    cases next_of_scan h with
    | digit d hd hseen h =>
      have hle := ih h hdot.2
      have hsame : (st.digit d).tmp.length = st.tmp.length := rfl
      omega
    | gap hc hseen hnone h =>
      have hle := ih h hdot.2
      have hsame : st.gap.tmp.length = st.tmp.length := rfl
      omega
    | group hc hseen hne hroom h =>
      have hle := ih h hdot.2
      have hstore : st.group.tmp.length = st.tmp.length + 2 := by simp [Scan.group, Scan.store]
      rw [hstore] at hle
      simp only [hc, beq_self_eq_true, if_true]
      omega
    | dotted hc octets h => exact absurd hc.symm hdot.1

/-- The sixteen bytes, when nothing is behind the `::`. -/
theorem finish_of_seen_eq_zero {st : Scan} (hseen : st.seen = 0)
    (hcolonp : st.colonp = some st.tmp.length) (hlen : st.tmp.length < 16) :
    finish st = some (st.tmp ++ List.replicate (16 - st.tmp.length) 0) := by
  have hne : st.tmp.length ≠ 16 := by omega
  simp [finish, hseen, hcolonp, hne]

/-- The sixteen bytes, when one group is behind the `::`. -/
theorem finish_of_seen_ne_zero {st : Scan} (hseen : st.seen ≠ 0)
    (hcolonp : st.colonp = some st.tmp.length) (hlen : st.tmp.length + 2 < 16) :
    finish st = some (st.tmp ++ List.replicate (16 - (st.tmp.length + 2)) 0 ++
      [UInt8.ofNat (st.val / 256), UInt8.ofNat (st.val % 256)]) := by
  have hfits : ¬ 16 < st.tmp.length + 2 := by omega
  have hne : st.tmp.length + 2 ≠ 16 := by omega
  simp [finish, hseen, hcolonp, hfits, hne, Scan.store]

/-- A group of zeros behind the `::` is among the zeros that fill it. -/
theorem finish_zeros {st : Scan} (hseen : st.seen = 0) (hval : st.val = 0)
    (hcolonp : st.colonp = some st.tmp.length) (hlen : st.tmp.length + 2 < 16) :
    finish (((st.digit 0).digit 0).digit 0) = finish st := by
  have hval' : (((st.digit 0).digit 0).digit 0).val = 0 := by simp [Scan.digit, hval]
  have hzeros : List.replicate (16 - st.tmp.length) (0 : UInt8)
      = List.replicate (16 - (st.tmp.length + 2)) 0 ++ [0, 0] := by
    rw [show [0, 0] = List.replicate 2 (0 : UInt8) from rfl, List.replicate_append_replicate]
    congr 1
    omega
  have hnew : finish (((st.digit 0).digit 0).digit 0) = some (st.tmp ++ _ ++ _) :=
    finish_of_seen_ne_zero (Nat.succ_ne_zero _) hcolonp hlen
  rw [hnew, hval', finish_of_seen_eq_zero hseen hcolonp (by omega), hzeros, ← List.append_assoc]
  rfl

/-- What is scanned of a text with more behind it. -/
theorem leading_append {text src : List UInt8} (h : leading text = some src) (more : List UInt8) :
    leading (text ++ more) = some (src ++ more) := by
  cases text with
  | nil => cases h
  | cons c rest =>
    rw [List.cons_append]
    by_cases hcolon : c = colon
    · rw [leading, if_pos hcolon] at h ⊢
      obtain ⟨hhead, h⟩ := Option.ite_none_right_eq_some.mp h
      obtain rfl := Option.some.inj h
      exact if_pos (by rw [List.head?_append, hhead]; rfl)
    · rw [leading, if_neg hcolon] at h ⊢
      obtain rfl := Option.some.inj h
      rfl

/-- A text that ends in `::` is scanned up to a colon; what is scanned has no more colons than
    the text. -/
theorem leading_colons {text src : List UInt8} (h : leading text = some src)
    (hends : [colon, colon] <:+ text) :
    (∃ src', src = src' ++ [colon]) ∧ src.count colon ≤ text.count colon := by
  obtain ⟨init, rfl⟩ := hends
  cases init with
  | nil =>
    obtain rfl : [colon] = src := Option.some.inj h
    exact ⟨⟨[], rfl⟩, by decide⟩
  | cons c init =>
    rw [List.cons_append] at h ⊢
    by_cases hcolon : c = colon
    · rw [leading, if_pos hcolon] at h
      obtain ⟨-, h⟩ := Option.ite_none_right_eq_some.mp h
      obtain rfl := Option.some.inj h
      exact ⟨⟨init ++ [colon], by simp⟩, List.Sublist.count_le _ (List.sublist_cons_self _ _)⟩
    · rw [leading, if_neg hcolon] at h
      obtain rfl := Option.some.inj h
      exact ⟨⟨c :: init ++ [colon], by simp⟩, le_rfl⟩

/-- **Zeros behind a final `::`.**  With room for one more group, the group `000` behind a final
    `::` does not change the address. -/
theorem inetPton6_append_zeros {text : List UInt8} {addr : Buf 16}
    (h : inetPton6 text = some addr) (hends : [colon, colon] <:+ text)
    (hcolons : text.count colon ≤ 7) : inetPton6 (text ++ [zero, zero, zero]) = some addr := by
  obtain ⟨src, hsrc, hrest⟩ := Option.bind_eq_some_iff.mp h
  obtain ⟨st, hst, hbytes⟩ := Option.bind_eq_some_iff.mp hrest
  obtain ⟨⟨src', rfl⟩, hcount⟩ := leading_colons hsrc hends
  have hdot' := dot_notMem_of_scan hst List.suffix_rfl
  have hdot : dot ∉ src' ++ [colon] := by
    rw [List.mem_append, not_or]
    exact ⟨hdot', by decide⟩
  obtain ⟨hseen, hval, hcolonp⟩ := scan_colon hst hdot' fun _ => rfl
  -- the last colon stores no group, so that there is room for one more
  have hlen : st.tmp.length + 2 < 16 := by
    have hstored : st.tmp.length ≤ 0 + 2 * src'.count colon := length_tmp_of_scan hst hdot'
    rw [List.count_append, List.count_singleton_self] at hcount
    omega
  obtain ⟨curtok, happend⟩ := scan_append hst hdot (src' ++ [colon] ++ [zero, zero, zero])
    [zero, zero, zero]
  have hzero : hexDigitValue zero = some 0 := by decide
  have hscan : scan st curtok [zero, zero, zero] = some (((st.digit 0).digit 0).digit 0) := by
    rw [scan_digit hzero (by rw [hseen]; decide), scan_digit hzero (by simp [Scan.digit, hseen]),
      scan_digit hzero (by simp [Scan.digit, hseen]), scan]
  rw [inetPton6, leading_append hsrc, Option.bind_eq_bind, Option.bind_some, happend, hscan,
    Option.bind_eq_bind, Option.bind_some, finish_zeros hseen hval hcolonp hlen]
  exact hbytes

end Ipv6Text

end Gap
