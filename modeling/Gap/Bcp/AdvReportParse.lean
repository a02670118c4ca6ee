import Gap.Lib.Loop
import Mathlib.Order.Monotone.Basic

namespace Gap.Bcp

/-!
# The firmware parses an advertisement report

`adv_report_parse` of `main.c`: a report is a sequence of structures, each a length byte `l`, a
type byte and `l - 1` bytes of value.

* `Data` — `data_t`; the memory behind the report is there to be read as well.
* `parsePass` — one pass of the loop, with the bytes of the report it reads.
* `fieldAt` — where the structures start; `Matches`, a complete one with the type.
* `parse_runs` — the passes that are made, and the result.
* `adv_report_parse_iff` — when the result is that of the first complete structure with the type.
-/

/-- `data_t`. -/
structure Data where
  pData : ℕ
  dataLen : UInt16
  deriving DecidableEq

/-- The results of `adv_report_parse`. -/
inductive ParseCode
  | success
  | notFound
  deriving DecidableEq

/-- The result, what `p_typedata` points to, and the indices of `p_data` that have been read. -/
structure ParseResult where
  code : ParseCode
  typedata : Data
  reads : List ℕ
  deriving DecidableEq

/-- The variables of the loop: `index` stays far below 2^32. -/
structure ParseVars where
  index : ℕ
  reads : List ℕ

section

variable (mem : ℕ → UInt8) (type : UInt8) (advdata typedata : Data)

/-- One pass of the loop. -/
def parsePass (v : ParseVars) : Option (Pass ParseVars ParseResult) :=
  if v.index < advdata.dataLen.toNat then
    let fieldLength := mem (advdata.pData + v.index)
    let fieldType := mem (advdata.pData + v.index + 1)
    let reads := v.reads ++ [v.index, v.index + 1]
    if fieldType = type then
      some (.leave ⟨.success,
        -- the difference goes into a `uint16_t`
        ⟨advdata.pData + v.index + 2, fieldLength.toUInt16 - 1⟩, reads⟩)
    else some (.next ⟨v.index + fieldLength.toNat + 1, reads⟩)
  else some (.leave ⟨.notFound, typedata, v.reads⟩)

/-! ### The structures of a report -/

/-- The index of structure `k`. -/
def fieldAt : ℕ → ℕ
  | 0 => 0
  | k + 1 => fieldAt k + (mem (advdata.pData + fieldAt k)).toNat + 1

/-- The length byte of structure `k`. -/
def fieldLength (k : ℕ) : UInt8 := mem (advdata.pData + fieldAt mem advdata k)

/-- The type byte of structure `k`. -/
def fieldType (k : ℕ) : UInt8 := mem (advdata.pData + fieldAt mem advdata k + 1)

theorem fieldAt_succ (k : ℕ) : fieldAt mem advdata (k + 1)
    = fieldAt mem advdata k + (fieldLength mem advdata k).toNat + 1 := rfl

theorem strictMono_fieldAt : StrictMono (fieldAt mem advdata) := by
  refine strictMono_nat_of_lt_succ fun k => ?_
  rw [fieldAt_succ]
  omega

/-- Structure `k` has a type byte and lies inside the report. -/
def CompleteAt (k : ℕ) : Prop :=
  1 ≤ (fieldLength mem advdata k).toNat ∧
    fieldAt mem advdata k + (fieldLength mem advdata k).toNat < advdata.dataLen.toNat

/-- Structure `k` is complete, and of the type. -/
def Matches (k : ℕ) : Prop := CompleteAt mem advdata k ∧ fieldType mem advdata k = type

/-- What `adv_report_parse` is to return. -/
structure Parsed (r : ParseResult) : Prop where
  reads : ∀ i ∈ r.reads, i < advdata.dataLen.toNat
  code : r.code = .success ↔ ∃ k, Matches mem type advdata k
  /-- The value bytes of the first one, inside the report. -/
  value : r.code = .success → ∃ k, Matches mem type advdata k ∧
    (∀ j < k, ¬ Matches mem type advdata j) ∧
    r.typedata.pData = advdata.pData + fieldAt mem advdata k + 2 ∧
    r.typedata.dataLen.toNat + 1 = (fieldLength mem advdata k).toNat ∧
    fieldAt mem advdata k + 2 + r.typedata.dataLen.toNat ≤ advdata.dataLen.toNat

/-- Up to the first structure with the type, no length byte is the last byte of the report; and
    that structure is complete. -/
def WellFormed : Prop :=
  ∀ k, fieldAt mem advdata k < advdata.dataLen.toNat → (∀ j < k, fieldType mem advdata j ≠ type) →
    fieldAt mem advdata k + 1 < advdata.dataLen.toNat ∧
      (fieldType mem advdata k = type → CompleteAt mem advdata k)

/-! ### The loop -/

/-- What the first `k` passes read. -/
def parseReads (k : ℕ) : List ℕ :=
  (List.range k).flatMap fun j => [fieldAt mem advdata j, fieldAt mem advdata j + 1]

theorem parseReads_succ (k : ℕ) : parseReads mem advdata (k + 1)
    = parseReads mem advdata k ++ [fieldAt mem advdata k, fieldAt mem advdata k + 1] := by
  simp [parseReads, List.range_succ]

/-- `k` passes go on, and the next one leaves the loop. -/
inductive ParseRuns (k : ℕ) : ParseResult → Prop
  | notFound (hend : advdata.dataLen.toNat ≤ fieldAt mem advdata k) :
      ParseRuns k ⟨.notFound, typedata, parseReads mem advdata k⟩
  | found (hin : fieldAt mem advdata k < advdata.dataLen.toNat)
      (htype : fieldType mem advdata k = type) :
      ParseRuns k ⟨.success, ⟨advdata.pData + fieldAt mem advdata k + 2,
        (fieldLength mem advdata k).toUInt16 - 1⟩, parseReads mem advdata (k + 1)⟩

/-- **The loop ends**, having passed over structures of other types. -/
theorem parse_runs : ∃ r, loop (parsePass mem type advdata typedata) (advdata.dataLen.toNat + 1)
    ⟨0, []⟩ = some r ∧ ∃ k, (∀ j < k, fieldAt mem advdata j < advdata.dataLen.toNat ∧
      fieldType mem advdata j ≠ type) ∧ ParseRuns mem type advdata typedata k r := by
  refine loop_total (fun v => ∃ k, v = ⟨fieldAt mem advdata k, parseReads mem advdata k⟩ ∧
    ∀ j < k, fieldAt mem advdata j < advdata.dataLen.toNat ∧ fieldType mem advdata j ≠ type) _
    (fun v => advdata.dataLen.toNat - v.index) ?_ ⟨0, rfl, fun j hj => absurd hj (Nat.not_lt_zero j)⟩
    (by simp only; omega)
  rintro _ ⟨k, rfl, hpassed⟩
  by_cases hin : fieldAt mem advdata k < advdata.dataLen.toNat
  · by_cases htype : fieldType mem advdata k = type
    · refine .inr ⟨_, ?_, k, hpassed, .found hin htype⟩
      rw [fieldType] at htype
      rw [parsePass, if_pos hin, parseReads_succ]
      simp only [htype, if_true, fieldLength]
    · refine .inl ⟨⟨fieldAt mem advdata (k + 1), parseReads mem advdata (k + 1)⟩, ?_, ⟨k + 1, rfl, ?_⟩,
        ?_⟩
      · have htype' := htype
        rw [fieldType] at htype'
        rw [parsePass, if_pos hin, parseReads_succ]
        simp only [htype', if_false, fieldAt]
      · intro j hj
        rcases Nat.lt_succ_iff_lt_or_eq.mp hj with hlt | rfl
        · exact hpassed j hlt
        · exact ⟨hin, htype⟩
      · rw [fieldAt_succ]
        simp only
        omega
  · refine .inr ⟨_, ?_, k, hpassed, .notFound (not_lt.mp hin)⟩
    rw [parsePass, if_neg hin]

/-! ### When the result is right -/

variable {mem type advdata typedata}

theorem mem_parseReads {k i : ℕ} : i ∈ parseReads mem advdata k ↔
    ∃ j < k, i = fieldAt mem advdata j ∨ i = fieldAt mem advdata j + 1 := by
  simp [parseReads]

/-- The value bytes of a complete structure. -/
theorem CompleteAt.toNat_dataLen {k : ℕ} (h : CompleteAt mem advdata k) :
    ((fieldLength mem advdata k).toUInt16 - 1).toNat + 1 = (fieldLength mem advdata k).toNat := by
  have hle : (1 : UInt16) ≤ (fieldLength mem advdata k).toUInt16 := by
    rw [UInt16.le_iff_toNat_le]
    simpa using h.1
  rw [UInt16.toNat_sub_of_le _ _ hle]
  simpa using Nat.sub_add_cancel h.1

theorem parsed_of_wellFormed (h : WellFormed mem type advdata) {k : ℕ} {r : ParseResult}
    (hpassed : ∀ j < k, fieldAt mem advdata j < advdata.dataLen.toNat ∧
      fieldType mem advdata j ≠ type) (hr : ParseRuns mem type advdata typedata k r) :
    Parsed mem type advdata r := by
  -- the passes before the last one read inside the report
  have hreads : ∀ i ∈ parseReads mem advdata k, i < advdata.dataLen.toNat := by
    intro i hi
    obtain ⟨j, hj, hi⟩ := mem_parseReads.mp hi
    have hin := (hpassed j hj).1
    have hnext := (h j hin fun j' hj' => (hpassed j' (hj'.trans hj)).2).1
    rcases hi with rfl | rfl
    · exact hin
    · exact hnext
  have hbefore : ∀ j < k, ¬ Matches mem type advdata j := fun j hj hm => (hpassed j hj).2 hm.2
  cases hr with
  | notFound hend =>
    refine ⟨hreads, ?_, fun hcode => by cases hcode⟩
    refine iff_of_false (by simp) ?_
    rintro ⟨m, hm⟩
    have hlt : m < k := by
      refine (strictMono_fieldAt mem advdata).lt_iff_lt.mp ?_
      have hin := hm.1.2
      omega
    exact hbefore m hlt hm
  | found hin htype =>
    obtain ⟨hnext, hcomplete⟩ := h k hin fun j hj => (hpassed j hj).2
    have hmatches : Matches mem type advdata k := ⟨hcomplete htype, htype⟩
    have hlen := hmatches.1.toNat_dataLen
    have hinside := hmatches.1.2
    refine ⟨?_, iff_of_true rfl ⟨k, hmatches⟩, fun _ => ⟨k, hmatches, hbefore, rfl, hlen, ?_⟩⟩
    · intro i hi
      rw [parseReads_succ, List.mem_append] at hi
      rcases hi with hi | hi
      · exact hreads i hi
      · simp only [List.mem_cons, List.not_mem_nil, or_false] at hi
        rcases hi with rfl | rfl
        · exact hin
        · exact hnext
    · simp only
      omega

theorem wellFormed_of_parsed {k : ℕ} {r : ParseResult}
    (hpassed : ∀ j < k, fieldAt mem advdata j < advdata.dataLen.toNat ∧
      fieldType mem advdata j ≠ type) (hr : ParseRuns mem type advdata typedata k r)
    (h : Parsed mem type advdata r) : WellFormed mem type advdata := by
  intro m hin hbefore
  cases hr with
  | notFound hend =>
    have hlt : m < k := (strictMono_fieldAt mem advdata).lt_iff_lt.mp (by omega)
    refine ⟨h.reads _ (mem_parseReads.mpr ⟨m, hlt, .inr rfl⟩), fun htype => ?_⟩
    exact absurd htype (hpassed m hlt).2
  | found hin' htype' =>
    -- the loop has not been left before structure `m`
    have hle : m ≤ k := by
      by_contra hgt
      exact hbefore k (not_le.mp hgt) htype'
    refine ⟨h.reads _ (mem_parseReads.mpr ⟨m, Nat.lt_succ_of_le hle, .inr rfl⟩), fun htype => ?_⟩
    obtain ⟨j, hmatches, -, hptr, -, -⟩ := h.value rfl
    -- what has been found is structure `k`, which is `m`
    have hjk : j = k := (strictMono_fieldAt mem advdata).injective (by simp only at hptr; omega)
    have hmk : m = k := by
      rcases Nat.lt_or_eq_of_le hle with hlt | heq
      · exact absurd htype (hpassed m hlt).2
      · exact heq
    rw [hmk, ← hjk]
    exact hmatches.1

end

/-- **Parsing a report.**  For any memory, any report of any length in it, and any type: the loop
    ends; and it has read nothing behind the report, has found a complete structure with the type if
    there is one, and has returned the value bytes of the first one, exactly if, up to the first
    structure with the type, no length byte is the last byte of the report, and that structure is
    complete. -/
theorem adv_report_parse_iff (mem : ℕ → UInt8) (type : UInt8) (advdata typedata : Data) :
    ∃ r, (∀ n, advdata.dataLen.toNat < n →
        loop (parsePass mem type advdata typedata) n ⟨0, []⟩ = some r) ∧
      (Parsed mem type advdata r ↔ WellFormed mem type advdata) := by
  obtain ⟨r, hloop, k, hpassed, hr⟩ := parse_runs mem type advdata typedata
  refine ⟨r, fun n hn => ?_, wellFormed_of_parsed hpassed hr, fun h => parsed_of_wellFormed h hpassed hr⟩
  refine loop_of_measure (fun v => advdata.dataLen.toNat - v.index) ?_ hloop (by simp only; omega)
  rintro v v' hnext
  unfold parsePass at hnext
  by_cases hin : v.index < advdata.dataLen.toNat
  · rw [if_pos hin] at hnext
    by_cases htype : mem (advdata.pData + v.index + 1) = type
    · simp only [htype, if_true, Option.some.injEq, reduceCtorEq] at hnext
    · simp only [htype, if_false, Option.some.injEq, Pass.next.injEq] at hnext
      rw [← hnext]
      simp only
      omega
  · rw [if_neg hin] at hnext
    cases hnext

/-- A report of two bytes: a structure of length 0, in front of a byte that is the type. -/
def emptyStructure (i : ℕ) : UInt8 := if i = 1 then 9 else 0

/-- 65535 bytes of value are returned, though no structure of the report is complete. -/
theorem adv_report_parse_empty_structure :
    ∃ r, loop (parsePass emptyStructure 9 ⟨0, 2⟩ ⟨0, 0⟩) 3 ⟨0, []⟩ = some r ∧
      r.code = .success ∧ r.typedata.pData = 2 ∧ r.typedata.dataLen.toNat = 65535 ∧
      ¬ Parsed emptyStructure 9 ⟨0, 2⟩ r := by
  refine ⟨_, rfl, rfl, rfl, rfl, fun h => ?_⟩
  obtain ⟨k, -, -, -, -, hle⟩ := h.value rfl
  have hinside : fieldAt emptyStructure ⟨0, 2⟩ k + 2 + 65535 ≤ 2 := hle
  omega

end Gap.Bcp
