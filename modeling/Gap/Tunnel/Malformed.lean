import Gap.Tunnel.Assigned
import Gap.Tunnel.Delegation

namespace Gap.Tunnel

/-!
# Malformed lines

Both conversions of `parse_prefixes` are checked for a message only: whatever is in `local` and
`block` behind the newline goes into the table.

* `Rejected`, `withoutRejected` — the lines with a text `inet_pton` rejects, and the file without
  them.
* `Harmless`, `InPlace` — rejected lines leave the table unchanged, and when they do.
* `rejected_lines_harmless` — the two are equivalent, for every table and every file.
-/

/-! ### Rejected lines -/

/-- The texts `inet_pton` is called with in the pass over a line. -/
def converted (line : List UInt8) : List (List UInt8) :=
  match cutAt blank (lineText line) with
  | none => []
  | some (addrText, rest) =>
    match cutAt newline rest with
    | none => [addrText]
    | some (blockText, _) => [addrText, rewritten blockText]

/-- `inet_pton` rejects a text of the line. -/
def Rejected (line : List UInt8) : Prop := ∃ text ∈ converted line, inetPton6 text = none

instance (line : List UInt8) : Decidable (Rejected line) :=
  decidable_of_iff (∃ text ∈ converted line, (inetPton6 text).isNone = true)
    (exists_congr fun _ => and_congr_right' Option.isNone_iff_eq_none)

/-- The file without these lines. -/
def withoutRejected (contents : List UInt8) : List UInt8 :=
  ((fgetsLines [] contents).filter fun line => ¬ Rejected line).flatten ++
    contents.drop (fgetsLines [] contents).flatten.length

/-- Its lines are the others. -/
theorem fgetsLines_withoutRejected (contents : List UInt8) :
    fgetsLines [] (withoutRejected contents)
      = (fgetsLines [] contents).filter fun line => ¬ Rejected line := by
  obtain ⟨hcomplete, rest, hsplit, hrest, hlen⟩ :=
    fgetsLines_spec List.not_mem_nil (Nat.zero_le _) contents
  rw [List.nil_append] at hsplit
  have hdrop : contents.drop (fgetsLines [] contents).flatten.length = rest :=
    (congrArg (List.drop _) hsplit).trans List.drop_left
  rw [withoutRejected, hdrop]
  exact fgetsLines_flatten (fun line hline => hcomplete line (List.mem_of_mem_filter hline))
    hrest hlen

/-- The address and the block of a line whose texts are both accepted. -/
def given (line : List UInt8) : Option (In6Addr × In6Addr) :=
  (tokens line).bind fun p => (inetPton6 p.1).bind fun localAddr =>
    (inetPton6 (rewritten p.2)).map fun block => (localAddr, block)

theorem converted_of_tokens {line addrText blockText : List UInt8}
    (h : tokens line = some (addrText, blockText)) :
    converted line = [addrText, rewritten blockText] := by
  obtain ⟨p, hp, hmap⟩ := Option.bind_eq_some_iff.mp h
  obtain ⟨q, hq, he⟩ := Option.map_eq_some_iff.mp hmap
  cases he
  simp only [converted, hp, hq]

theorem rejected_iff_of_tokens {line addrText blockText : List UInt8}
    (h : tokens line = some (addrText, blockText)) :
    Rejected line ↔ inetPton6 addrText = none ∨ inetPton6 (rewritten blockText) = none := by
  rw [Rejected, converted_of_tokens h]
  simp

theorem given_of_rejected {line : List UInt8} (h : Rejected line) : given line = none := by
  unfold given
  cases htokens : tokens line with
  | none => rfl
  | some p =>
    rcases (rejected_iff_of_tokens htokens).mp h with haddr | hblock
    · rw [Option.bind_some, haddr, Option.bind_none]
    · rw [Option.bind_some, hblock]
      simp

/-- No text of one character is an address. -/
theorem inetPton6_short {text : List UInt8} (h : text.length ≤ 1) : inetPton6 text = none := by
  have hall : ∀ n < 256, inetPton6 [UInt8.ofNat n] = none := by decide +kernel
  cases text with
  | nil => rfl
  | cons c rest =>
    obtain rfl : rest = [] := List.length_eq_zero_iff.mp (by simpa using h)
    have hc := hall c.toNat c.toNat_lt
    rwa [UInt8.ofNat_toNat] at hc

/-- So the texts of a short line are rejected. -/
theorem rejected_of_short {line : List UInt8} (h : Short line) : Rejected line := by
  obtain ⟨p, htokens, hlt⟩ := h
  exact (rejected_iff_of_tokens htokens).mpr (.inl (inetPton6_short (by omega)))

/-- Where no text is rejected, nothing indeterminate is used. -/
theorem parseLine_of_not_rejected {line : List UInt8} (hlen : line.length ≤ 511)
    (h : ¬ Rejected line) (ind : Indeterminate) (t : Prefixes) :
    parseLine inetPton6 ind line t = some (match given line with
      | some d => assign t d.1 d.2
      | none => t) := by
  rw [parseLine_eq inetPton6 ind hlen, if_neg (mt rejected_of_short h), given]
  cases htokens : tokens line with
  | none => rfl
  | some p =>
    rw [rejected_iff_of_tokens htokens, not_or] at h
    obtain ⟨localAddr, haddr⟩ := Option.ne_none_iff_exists'.mp h.1
    obtain ⟨block, hblock⟩ := Option.ne_none_iff_exists'.mp h.2
    simp [leftLocal, leftBlock, haddr, hblock]

/-! ### The passes over a file -/

/-- The passes of the outer loop over these lines. -/
def passes (ind : ℕ → Indeterminate) (lines : List (List UInt8)) (t : Prefixes) : Option Prefixes :=
  lines.zipIdx.foldlM (fun t lk => parseLine inetPton6 (ind lk.2) lk.1 t) t

theorem parsePrefixes_eq_passes (ind : ℕ → Indeterminate) (contents : List UInt8) (t : Prefixes) :
    parsePrefixes inetPton6 ind contents t = passes ind (fgetsLines [] contents) t := rfl

theorem passes_append_singleton (ind : ℕ → Indeterminate) (lines : List (List UInt8))
    (line : List UInt8) (t : Prefixes) :
    passes ind (lines ++ [line]) t
      = (passes ind lines t).bind (parseLine inetPton6 (ind lines.length) line) := by
  rw [passes, List.zipIdx_append, List.foldlM_append, passes, Nat.zero_add, Option.bind_eq_bind]
  congr 1
  funext t'
  rw [List.zipIdx_singleton, List.foldlM_cons, Option.bind_eq_bind]
  simp only [List.foldlM_nil, Option.pure_def, Option.bind_fun_some]

/-- Each pass over a rejected line leaves the table as it is. -/
def Harmless (ind : ℕ → Indeterminate) (lines : List (List UInt8)) (t : Prefixes) : Prop :=
  ∀ n line, lines[n]? = some line → Rejected line →
    ∃ t', passes ind (lines.take n) t = some t' ∧ parseLine inetPton6 (ind n) line t' = some t'

/-- The block an entry with an address holds, with the length 62, behind these lines. -/
def blockBehind (lines : List (List UInt8)) (p : SocketPrefix) : Option In6Addr :=
  match lastBlock p.addrLl (lines.filterMap given) with
  | some block => some block
  | none => if p.plenPd = 62 then some p.addrPd else none

/-- No rejected line is short; and where one has a blank, and a newline behind it, the first entry
    with the address that is in `local` holds the block that is in `block` already. -/
def InPlace (ind : ℕ → Indeterminate) (lines : List (List UInt8)) (t : Prefixes) : Prop :=
  ∀ n line, lines[n]? = some line → Rejected line → ¬ Short line ∧
    ∀ addrText blockText, tokens line = some (addrText, blockText) →
    ∀ j, First t j → (t j).addrLl = leftLocal inetPton6 (ind n) addrText →
      blockBehind (lines.take n) (t j) = some (leftBlock inetPton6 (ind n) blockText)

/-- The match loop leaves a table as it is if it gives a block that is there. -/
theorem assign_eq_self_iff (t : Prefixes) (localAddr block : In6Addr) :
    assign t localAddr block = t ↔
      ∀ j, First t j → (t j).addrLl = localAddr → (t j).addrPd = block ∧ (t j).plenPd = 62 := by
  constructor
  · rintro h j hfirst rfl
    have hj := congrFun h j
    rw [assign_first hfirst] at hj
    rw [← hj]
    exact ⟨rfl, rfl⟩
  · intro h
    funext j
    by_cases hj : First t j ∧ (t j).addrLl = localAddr
    · obtain ⟨hfirst, rfl⟩ := hj
      obtain ⟨hpd, hplen⟩ := h j hfirst rfl
      rw [assign_first hfirst, ← hpd, ← hplen]
    · exact assign_of_not hj block

/-- Behind lines that have given their blocks, an entry holds the last one. -/
theorem holds_block_iff {t : Prefixes} {j : Fin 512} (h : First t j) (lines : List (List UInt8))
    (block : In6Addr) :
    (((lines.filterMap given).foldl (fun t d => assign t d.1 d.2) t j).addrPd = block ∧
      ((lines.filterMap given).foldl (fun t d => assign t d.1 d.2) t j).plenPd = 62) ↔
      blockBehind lines (t j) = some block := by
  rw [foldl_assign_first h, blockBehind]
  cases lastBlock (t j).addrLl (lines.filterMap given) with
  | some last => simp
  | none =>
    by_cases hplen : (t j).plenPd = 62
    · simp [hplen]
    · simp [hplen]

section

variable {ind : ℕ → Indeterminate} {lines : List (List UInt8)} {t : Prefixes}
  (hcomplete : ∀ line ∈ lines, Complete line)
include hcomplete

/-- **One more pass.**  Behind lines that have given their blocks, a pass over a line leaves the
    table as it is exactly if the line is not short, and the entry it would write to holds this
    block. -/
theorem parseLine_eq_self_iff {n : ℕ} {line : List UInt8} (hn : lines[n]? = some line) :
    (∃ t', some (((lines.take n).filterMap given).foldl (fun t d => assign t d.1 d.2) t) = some t' ∧
        parseLine inetPton6 (ind n) line t' = some t') ↔ ¬ Short line ∧
      ∀ addrText blockText, tokens line = some (addrText, blockText) →
      ∀ j, First t j → (t j).addrLl = leftLocal inetPton6 (ind n) addrText →
        blockBehind (lines.take n) (t j) = some (leftBlock inetPton6 (ind n) blockText) := by
  have hlen := (hcomplete line (List.mem_of_getElem? hn)).length_le
  have hr := foldl_assign_reloaded t ((lines.take n).filterMap given)
  simp only [Option.some.injEq, exists_eq_left', parseLine_eq inetPton6 (ind n) hlen]
  by_cases hshort : Short line
  · simp [hshort]
  rw [if_neg hshort, Option.some.injEq, and_iff_right hshort]
  cases htokens : tokens line with
  | none => simp
  | some p =>
    obtain ⟨addrText, blockText⟩ := p
    simp only [assign_eq_self_iff, first_reloaded hr, hr.addrLl, Option.some.injEq, Prod.mk.injEq,
      and_imp]
    constructor
    · rintro h _ _ rfl rfl j hfirst haddr
      exact (holds_block_iff hfirst _ _).mp (h j hfirst haddr)
    · intro h j hfirst haddr
      exact (holds_block_iff hfirst _ _).mpr (h _ _ rfl rfl j hfirst haddr)

/-- Passes that rejected lines do not change anything in give the blocks of the other lines. -/
theorem passes_take {n : ℕ} (hn : n ≤ lines.length)
    (h : ∀ m < n, ∀ line, lines[m]? = some line → Rejected line →
      ∃ t', passes ind (lines.take m) t = some t' ∧ parseLine inetPton6 (ind m) line t' = some t') :
    passes ind (lines.take n) t
      = some (((lines.take n).filterMap given).foldl (fun t d => assign t d.1 d.2) t) := by
  induction n with
  | zero => rw [List.take_zero]; rfl
  | succ n ih =>
    have hbefore := ih (by omega) fun m hm => h m (by omega)
    have hget : lines[n]? = some lines[n] := List.getElem?_eq_getElem (by omega)
    rw [List.take_add_one, hget, Option.toList_some, passes_append_singleton,
      List.length_take_of_le (by omega), List.filterMap_append, List.foldl_append, hbefore,
      Option.bind_some]
    by_cases hrejected : Rejected lines[n]
    · obtain ⟨t', hpasses, hself⟩ := h n (by omega) _ hget hrejected
      rw [hbefore, Option.some.injEq] at hpasses
      rw [hpasses, hself, List.filterMap_cons, given_of_rejected hrejected]
      rfl
    · have hlen := (hcomplete _ (List.getElem_mem (show n < lines.length by omega))).length_le
      rw [parseLine_of_not_rejected hlen hrejected, List.filterMap_cons]
      cases given lines[n] with
      | none => rfl
      | some d => rw [List.filterMap_nil, List.foldl_cons, List.foldl_nil]

theorem harmless_iff_inPlace : Harmless ind lines t ↔ InPlace ind lines t := by
  constructor
  · intro h n line hn hrejected
    have hle : n ≤ lines.length := (List.getElem?_eq_some_iff.mp hn).1.le
    have hself := h n line hn hrejected
    rw [passes_take hcomplete hle fun m _ => h m] at hself
    exact (parseLine_eq_self_iff hcomplete hn).mp hself
  · intro h n
    -- the passes in front of it are harmless
    induction n using Nat.strong_induction_on with
    | _ n ih =>
      intro line hn hrejected
      have hle : n ≤ lines.length := (List.getElem?_eq_some_iff.mp hn).1.le
      rw [passes_take hcomplete hle ih]
      exact (parseLine_eq_self_iff hcomplete hn).mpr (h n line hn hrejected)

end

/-- **Malformed assignment lines.**  For every table, every file, and all indeterminate values: the
    pass over each line with a rejected text leaves the table unchanged, and the table behind the
    call is the one of the file without these lines, exactly if none of these lines is short, and
    each that has a blank, and a newline behind it, finds the block that is in `block` in place
    already. -/
theorem rejected_lines_harmless (t : Prefixes) (contents : List UInt8)
    (ind : ℕ → Indeterminate) :
    (Harmless ind (fgetsLines [] contents) t ∧
      ∀ ind', ∃ t', parsePrefixes inetPton6 ind contents t = some t' ∧
        parsePrefixes inetPton6 ind' (withoutRejected contents) t = some t') ↔
      InPlace ind (fgetsLines [] contents) t := by
  obtain ⟨hcomplete, -⟩ :=
    fgetsLines_spec List.not_mem_nil (Nat.zero_le _) contents
  rw [← harmless_iff_inPlace hcomplete]
  refine ⟨And.left, fun h => ⟨h, fun ind' => ?_⟩⟩
  have hall := passes_take hcomplete le_rfl fun m _ => h m
  rw [List.take_length] at hall
  -- the file without these lines has none
  set kept := (fgetsLines [] contents).filter fun line => ¬ Rejected line with hkept
  have hcomplete' : ∀ line ∈ kept, Complete line := fun line hline =>
    hcomplete line (List.mem_of_mem_filter hline)
  have hall' : passes ind' (kept.take kept.length) t
      = some (((kept.take kept.length).filterMap given).foldl (fun t d => assign t d.1 d.2) t) := by
    refine passes_take hcomplete' le_rfl fun m _ line hm hrejected => ?_
    have hline := List.of_mem_filter (List.mem_of_getElem? hm)
    exact absurd hrejected (by simpa using hline)
  rw [List.take_length] at hall'
  refine ⟨_, hall, ?_⟩
  rw [parsePrefixes_eq_passes, fgetsLines_withoutRejected, hall']
  -- what they would give is nothing
  congr 2
  rw [hkept, List.filterMap_filter]
  refine List.filterMap_congr fun line _ => ?_
  by_cases hrejected : Rejected line
  · simp [hrejected, given_of_rejected hrejected]
  · simp [hrejected]

/-! ### A block that its rewriting breaks -/

/-- The block "2001:db8:0:20::". -/
def otherBlock : In6Addr := addrOf [0x20, 0x01, 0x0d, 0xb8, 0, 0, 0, 0x20]

/-- The line "fe80::2 2001:db8:0:20::/62". -/
def otherLine : List UInt8 :=
  textOf ['f', 'e', '8', '0', ':', ':', '2'] ++ blank ::
    textOf ['2', '0', '0', '1', ':', 'd', 'b', '8', ':', '0', ':', '2', '0', ':', ':'] ++
    [slash, digit 6, digit 2, newline]

/-- The line "fe80::1 2001:db8:0:10::/8". -/
def brokenLine : List UInt8 :=
  sampleAddrText ++ blank :: sampleBlockText ++ [slash, digit 8, newline]

/-- The client `fe80::1` on 7, and `fe80::2` on 8. -/
def twoClients : Prefixes := fun j =>
  if j = 7 then { SocketPrefix.zero with addrLl := linkLocal 1, plenLl := 128 }
  else if j = 8 then { SocketPrefix.zero with addrLl := linkLocal 2, plenLl := 128 }
  else SocketPrefix.zero

/-- The second pass finds what the first one has left in `local` and `block`. -/
def leftovers : ℕ → Indeterminate
  | 0 => ⟨fun _ => 0, fun _ => 0⟩
  | _ => ⟨linkLocal 2, otherBlock⟩

/-- The rewriting turns `2001:db8:0:10::/8` into `2001:db8:0:10:000`: the client gets the block of the
    line in front. -/
theorem rejected_line_assigns :
    (∃ t, parsePrefixes inetPton6 leftovers (otherLine ++ brokenLine) twoClients = some t ∧
      (t 7).addrPd = otherBlock ∧ (t 7).plenPd = 62) ∧
    (∃ t, parsePrefixes inetPton6 leftovers (withoutRejected (otherLine ++ brokenLine)) twoClients
        = some t ∧ (t 7).plenPd = 0) ∧
    ¬ (Harmless leftovers (fgetsLines [] (otherLine ++ brokenLine)) twoClients ∧
      ∀ ind', ∃ t', parsePrefixes inetPton6 leftovers (otherLine ++ brokenLine) twoClients = some t' ∧
        parsePrefixes inetPton6 ind' (withoutRejected (otherLine ++ brokenLine)) twoClients
          = some t') := by
  obtain ⟨t, hload, hblock, hplen⟩ :
      ∃ t ∈ parsePrefixes inetPton6 leftovers (otherLine ++ brokenLine) twoClients,
        (t 7).addrPd = otherBlock ∧ (t 7).plenPd = 62 := by decide +kernel
  obtain ⟨u, hload', hwithout⟩ :
      ∃ u ∈ parsePrefixes inetPton6 leftovers (withoutRejected (otherLine ++ brokenLine)) twoClients,
        (u 7).plenPd = 0 := by decide +kernel
  refine ⟨⟨t, hload, hblock, hplen⟩, ⟨u, hload', hwithout⟩, fun h => ?_⟩
  obtain ⟨t', ht, hu⟩ := h.2 leftovers
  obtain rfl := Option.some.inj (hload.symm.trans ht)
  obtain rfl := Option.some.inj (hload'.symm.trans hu)
  rw [hwithout] at hplen
  cases hplen

end Gap.Tunnel
