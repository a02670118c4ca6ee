import Gap.Tunnel.AssignmentsFile
import Mathlib.Data.List.TakeWhile

namespace Gap.Tunnel

/-!
# The texts of a line

The pass of `parse_prefixes` over a line with any bytes.

* `tokens`, `rewritten` — the two texts of a line, the second as the code rewrites it.
* `TextAt` — a text in the array, and what the stores of the scan make of it.
* `Short` — the lines for which the three digits do not fit in front of the newline.
* `scanLine_textAt`, `parseLine_eq` — the scan of any line, and the pass over it.
* `fgetsLines_spec` — a file is its lines, and an end without a newline.
* `parsePrefixes_eq_none_iff` — a load leaves `line[]` exactly if some line is short.
-/

/-! ### Cutting a text -/

/-- The text in front of the first `c`, and the text behind it. -/
def cutAt (c : UInt8) : List UInt8 → Option (List UInt8 × List UInt8)
  | [] => none
  | x :: text => if x = c then some ([], text) else (cutAt c text).map fun p => (x :: p.1, p.2)

theorem cutAt_eq_none {c : UInt8} {text : List UInt8} (h : cutAt c text = none) : c ∉ text := by
  induction text with
  | nil => exact List.not_mem_nil
  | cons x text ih =>
    rw [cutAt] at h
    by_cases hx : x = c
    · rw [if_pos hx] at h
      cases h
    · rw [if_neg hx, Option.map_eq_none_iff] at h
      rw [List.mem_cons, not_or]
      exact ⟨fun hc => hx hc.symm, ih h⟩

theorem cutAt_eq_some {c : UInt8} {text front rest : List UInt8}
    (h : cutAt c text = some (front, rest)) : text = front ++ c :: rest ∧ c ∉ front := by
  induction text generalizing front with
  | nil => cases h
  | cons x text ih =>
    rw [cutAt] at h
    by_cases hx : x = c
    · rw [if_pos hx] at h
      cases h
      exact ⟨by rw [hx, List.nil_append], List.not_mem_nil⟩
    · rw [if_neg hx] at h
      obtain ⟨p, hp, he⟩ := Option.map_eq_some_iff.mp h
      cases he
      obtain ⟨htext, hnot⟩ := ih hp
      refine ⟨by rw [htext, List.cons_append], ?_⟩
      rw [List.mem_cons, not_or]
      exact ⟨fun h => hx h.symm, hnot⟩

/-! ### The texts of a line -/

/-- The text of a line, up to its first `'\0'`. -/
def lineText (line : List UInt8) : List UInt8 := line.takeWhile fun c => c != 0

/-- The text behind the blank, with zeros for its last three characters. -/
def rewritten (text : List UInt8) : List UInt8 :=
  text.take (text.length - 3) ++ List.replicate (min 3 text.length) digitZero

/-- The text in front of the first blank, and the text behind it up to the newline. -/
def tokens (line : List UInt8) : Option (List UInt8 × List UInt8) :=
  (cutAt blank (lineText line)).bind fun p => (cutAt newline p.2).map fun q => (p.1, q.1)

/-- The newline behind the first blank is among the first three characters: the digits that are
    stored in front of it do not fit into the array. -/
def Short (line : List UInt8) : Prop := ∃ p ∈ tokens line, p.1.length + 1 + p.2.length < 3

instance (line : List UInt8) : Decidable (Short line) := Option.decidableExistsMem _

theorem tokens_of_addr {line addrText rest : List UInt8}
    (h : cutAt blank (lineText line) = some (addrText, rest)) :
    tokens line = (cutAt newline rest).map fun q => (addrText, q.1) := by
  rw [tokens, h, Option.bind_some]

theorem length_rewritten (text : List UInt8) : (rewritten text).length = text.length := by
  simp [rewritten]
  omega

/-! ### The array -/

/-- The text at `i`, with a `'\0'` behind it. -/
structure TextAt (buf : Buf 512) (i : ℕ) (text : List UInt8) : Prop where
  length_lt : i + text.length < 512
  byte : ∀ k (h : k < text.length),
    buf ⟨i + k, (Nat.add_lt_add_left h i).trans length_lt⟩ = text[k]
  ne : ∀ c ∈ text, c ≠ 0
  terminated : buf ⟨i + text.length, length_lt⟩ = 0

theorem TextAt.cString {buf : Buf 512} {i : ℕ} {text : List UInt8} (h : TextAt buf i text) :
    cString buf i = text := cString_eq h.length_lt h.byte h.ne h.terminated

/-- A `'\0'` is behind the text of a line: one of its own, or the one `fgets` appends. -/
theorem exists_behind_lineText (line : List UInt8) :
    ∃ behind, line ++ [0] = lineText line ++ 0 :: behind := by
  have hsplit : line = lineText line ++ line.dropWhile fun c => c != 0 :=
    List.takeWhile_append_dropWhile.symm
  cases hdrop : line.dropWhile fun c => c != 0 with
  | nil =>
    rw [hdrop, List.append_nil] at hsplit
    exact ⟨[], by rw [← hsplit]⟩
  | cons c behind =>
    have hnot := List.head?_dropWhile_not (fun c : UInt8 => c != 0) line
    rw [hdrop, List.head?_cons] at hnot
    obtain rfl : c = 0 := by simpa using hnot
    rw [hdrop] at hsplit
    refine ⟨behind ++ [0], ?_⟩
    rw [← List.cons_append, ← List.append_assoc, ← hsplit]

/-- The array after `fgets`. -/
theorem textAt_fgets (stale : Buf 512) {line : List UInt8} (h : line.length ≤ 511) :
    TextAt (stale.copy 0 (line ++ [0])) 0 (lineText line) := by
  have hne : ∀ c ∈ lineText line, c ≠ 0 := fun c hc => by simpa using List.mem_takeWhile_imp hc
  obtain ⟨behind, hline⟩ := exists_behind_lineText line
  have hlen := congrArg List.length hline
  simp only [List.length_append, List.length_cons, List.length_nil] at hlen
  rw [hline]
  generalize lineText line = text at hne hlen
  refine ⟨by omega, fun k hk => ?_, hne, ?_⟩
  · rw [Buf.copy_of_mem _ _ (Nat.zero_le _) (by simp; omega)]
    simp only [Nat.zero_add, Nat.sub_zero]
    exact List.getElem_append_left hk
  · simp only [Nat.zero_add]
    rw [Buf.copy_of_mem _ _ (Nat.zero_le _) (by simp)]
    simp

/-- The array in which the bytes behind the line are zero as well. -/
theorem textAt_loaded {line : List UInt8} (h : line.length ≤ 511) :
    TextAt (Buf.copy (fun _ => 0) 0 line) 0 (lineText line) := by
  have hsame : Buf.copy (fun _ => 0) 0 line = Buf.copy (n := 512) (fun _ => 0) 0 (line ++ [0]) := by
    funext i
    by_cases hi : i.val < line.length
    · rw [Buf.copy_of_mem _ _ (Nat.zero_le _) (by simpa using hi),
        Buf.copy_of_mem _ _ (Nat.zero_le _) (by simp; omega)]
      exact (List.getElem_append_left (by simpa using hi)).symm
    · rw [Buf.copy_of_le _ _ (by omega)]
      unfold Buf.copy
      split_ifs with hlast
      · simp only [List.length_append, List.length_singleton] at hlast
        rw [List.getElem_append_right (by omega)]
        simp
      · rfl
  rw [hsame]
  exact textAt_fgets _ h

/-- A byte of the text is overwritten with `'\0'`: the text in front of it. -/
theorem TextAt.front {buf : Buf 512} {i : ℕ} {front rest : List UInt8} {c : UInt8}
    (h : TextAt buf i (front ++ c :: rest)) :
    TextAt (buf.copy (i + front.length) [0]) i front := by
  have hlen := h.length_lt
  rw [List.length_append, List.length_cons] at hlen
  refine ⟨by omega, fun k hk => ?_, fun d hd => h.ne d (List.mem_append_left _ hd), ?_⟩
  · rw [Buf.copy_singleton_apply, if_neg (by simp only; omega), h.byte k (by simp; omega),
      List.getElem_append_left hk]
  · rw [Buf.copy_singleton_apply, if_pos rfl]

/-- The text behind it. -/
theorem TextAt.rest {buf : Buf 512} {i : ℕ} {front rest : List UInt8} {c : UInt8}
    (h : TextAt buf i (front ++ c :: rest)) :
    TextAt (buf.copy (i + front.length) [0]) (i + front.length + 1) rest := by
  have hlen := h.length_lt
  have hzero := h.terminated
  simp only [List.length_append, List.length_cons] at hlen hzero
  refine ⟨by omega, fun k hk => ?_, fun d hd => h.ne d (by simp [hd]), ?_⟩
  · rw [Buf.copy_singleton_apply, if_neg (by simp only; omega)]
    have hbyte := h.byte (front.length + 1 + k) (by simp; omega)
    rw [List.getElem_append_right (by omega)] at hbyte
    simp only [show i + front.length + 1 + k = i + (front.length + 1 + k) by omega, hbyte]
    simp [show front.length + 1 + k - front.length = k + 1 by omega]
  · rw [Buf.copy_singleton_apply, if_neg (by simp only; omega), ← hzero]
    exact congrArg buf (Fin.ext (show i + front.length + 1 + rest.length
      = i + (front.length + (rest.length + 1)) by omega))

/-- The byte itself. -/
theorem TextAt.mid {buf : Buf 512} {i : ℕ} {front rest : List UInt8} {c : UInt8}
    (h : TextAt buf i (front ++ c :: rest)) (hlt : i + front.length < 512) :
    buf ⟨i + front.length, hlt⟩ = c := by
  rw [h.byte front.length (by simp)]
  simp

/-! ### The scan of any line -/

theorem storeBack_apply (line : Buf 512) (ptr k : ℕ) (c : UInt8) (i : Fin 512) :
    storeBack line ptr k c i = if i.val + k = ptr then c else line i := by
  unfold storeBack
  by_cases hk : k ≤ ptr
  · rw [if_pos hk, Buf.copy_singleton_apply]
    exact if_congr (by omega) rfl rfl
  · rw [if_neg hk, if_neg (by omega)]

theorem stampLine_apply (line : Buf 512) (ptr : ℕ) (i : Fin 512) :
    stampLine line ptr i = if i.val = ptr then 0
      else if i.val < ptr ∧ ptr ≤ i.val + 3 then digitZero else line i := by
  simp only [stampLine, List.foldl_cons, List.foldl_nil, storeBack_apply]
  by_cases hptr : i.val = ptr
  · rw [if_neg (by omega), if_neg (by omega), if_neg (by omega), if_pos (by omega), if_pos hptr]
  · rw [if_neg hptr]
    by_cases hnear : i.val < ptr ∧ ptr ≤ i.val + 3
    · rw [if_pos hnear]
      obtain h | h | h : i.val + 3 = ptr ∨ i.val + 2 = ptr ∨ i.val + 1 = ptr := by omega
      · rw [if_pos h]
      · rw [if_neg (by omega), if_pos h]
      · rw [if_neg (by omega), if_neg (by omega), if_pos h]
    · rw [if_neg hnear, if_neg (by omega), if_neg (by omega), if_neg (by omega), if_neg (by omega)]

/-- The text in front of the newline, as the code rewrites it. -/
theorem cString_stampLine {buf : Buf 512} {i : ℕ} {front rest : List UInt8} {c : UInt8}
    (h : TextAt buf i (front ++ c :: rest)) :
    cString (stampLine buf (i + front.length)) i = rewritten front := by
  have hlen := h.length_lt
  rw [List.length_append, List.length_cons] at hlen
  have hsame := length_rewritten front
  refine cString_eq (by omega) (fun k hk => ?_) (fun d hd => ?_) ?_
  · rw [stampLine_apply, if_neg (by simp only; omega)]
    simp only [rewritten]
    by_cases hnear : k < front.length - 3
    · rw [if_neg (by omega), h.byte k (by simp; omega), List.getElem_append_left (by omega),
        List.getElem_append_left (by simp; omega), List.getElem_take]
    · rw [if_pos (by omega), List.getElem_append_right (by simp; omega), List.getElem_replicate]
  · rcases List.mem_append.mp hd with hfront | hzeros
    · exact h.ne d (List.mem_append_left _ (List.mem_of_mem_take hfront))
    · rw [List.eq_of_mem_replicate hzeros]
      decide
  · rw [stampLine_apply, if_pos (by simp only; omega)]

section

variable (inetPton : List UInt8 → Option In6Addr) (ind : Indeterminate)

/-- The scan ends at a `'\0'`. -/
theorem scanLine_end (v : LineVars) {i : ℕ} (hi : i < 512) (h : v.line ⟨i, hi⟩ = 0) :
    scanLine inetPton (512 - i) v = some (false, v) := by
  obtain ⟨left, hleft⟩ : ∃ left, 512 - i = left + 1 := ⟨511 - i, by omega⟩
  have hptr : 511 - left = i := by omega
  rw [hleft, scanLine]
  simp only [hptr]
  rw [if_pos h]

/-- A text without the character that is looked for. -/
theorem scanLine_text (v : LineVars) {i : ℕ} {text : List UInt8} (h : TextAt v.line i text)
    (hnot : (if v.passes = 0 then blank else newline) ∉ text) :
    scanLine inetPton (512 - i) v = some (false, v) := by
  have hlen := h.length_lt
  rw [scanLine_over inetPton v (by omega) (fun k hk _ => h.byte k hk) h.ne hnot]
  exact scanLine_end inetPton v h.length_lt h.terminated

/-- The scan up to the character that is looked for. -/
theorem scanLine_front (v : LineVars) {i : ℕ} {front rest : List UInt8} {c : UInt8}
    (h : TextAt v.line i (front ++ c :: rest))
    (hnot : (if v.passes = 0 then blank else newline) ∉ front) :
    scanLine inetPton (512 - i) v = scanLine inetPton (512 - (i + front.length)) v := by
  have hlen := h.length_lt
  rw [List.length_append, List.length_cons] at hlen
  refine scanLine_over inetPton v (by omega) (fun k hk _ => ?_)
    (fun d hd => h.ne d (List.mem_append_left _ hd)) hnot
  rw [h.byte k (by simp; omega), List.getElem_append_left hk]

/-- What is in `local` behind the newline. -/
def leftLocal (addrText : List UInt8) : In6Addr := (inetPton addrText).getD ind.localAddr

/-- What is in `block` behind the newline. -/
def leftBlock (blockText : List UInt8) : In6Addr :=
  (inetPton (rewritten blockText)).getD ind.block

/-- What a scan hands to the match loop. -/
def handed (r : Bool × LineVars) : Option (In6Addr × In6Addr) :=
  if r.1 then some (r.2.localAddr, r.2.block) else none

/-- The scan of the second text, up to the newline. -/
theorem scanLine_block (v : LineVars) {i : ℕ} {rest : List UInt8} (h : TextAt v.line i rest)
    (hpasses : v.passes ≠ 0) (hptr2 : v.ptr2 = i) :
    (scanLine inetPton (512 - i) v).map handed = match cutAt newline rest with
      | none => some none
      | some q => if i + q.1.length < 3 then none
          else some (some (v.localAddr, (inetPton (rewritten q.1)).getD v.block)) := by
  cases hblock : cutAt newline rest with
  | none =>
    rw [scanLine_text inetPton v h (by rw [if_neg hpasses]; exact cutAt_eq_none hblock)]
    rfl
  | some q =>
    obtain ⟨blockText, more⟩ := q
    obtain ⟨rfl, hnot⟩ := cutAt_eq_some hblock
    have hlen := h.length_lt
    rw [List.length_append, List.length_cons] at hlen
    rw [scanLine_front inetPton v h (by rwa [if_neg hpasses]),
      scanLine_stamp inetPton v (by omega) hpasses (h.mid (by omega)), hptr2, cString_stampLine h]
    simp only
    split_ifs
    · rfl
    · rfl

/-- **The scan of any line.**  With a blank, and a newline behind it, it hands over what is in
    `local` and `block` then, unless the line is short; and nothing otherwise. -/
theorem scanLine_textAt {buf : Buf 512} {line : List UInt8} (h : TextAt buf 0 (lineText line)) :
    (scanLine inetPton 512 (.start ind buf)).map handed = if Short line then none
      else some ((tokens line).map fun p => (leftLocal inetPton ind p.1, leftBlock inetPton ind p.2))
    := by
  cases haddr : cutAt blank (lineText line) with
  | none =>
    have htokens : tokens line = none := by rw [tokens, haddr, Option.bind_none]
    have hscan := scanLine_text inetPton (.start ind buf) h (cutAt_eq_none haddr)
    rw [Nat.sub_zero] at hscan
    simp [Short, htokens, hscan, handed]
  | some p =>
    obtain ⟨addrText, rest⟩ := p
    have htokens := tokens_of_addr haddr
    obtain ⟨hsplit, hnot⟩ := cutAt_eq_some haddr
    rw [hsplit] at h
    have hlen := h.length_lt
    rw [List.length_append, List.length_cons] at hlen
    have hfront := scanLine_front inetPton (.start ind buf) h hnot
    have hblank := h.mid (by omega)
    have hcut := h.front.cString
    have hrest := h.rest
    simp only [Nat.zero_add, Nat.sub_zero] at hfront hblank hcut hrest
    rw [hfront, scanLine_blank _ (by omega) rfl hblank]
    simp only [LineVars.start, hcut, Nat.zero_add]
    -- the second text, in the array as the blank has left it
    have hsecond := scanLine_block inetPton ⟨buf.copy addrText.length [0], addrText.length + 1, 1,
      (inetPton addrText).getD ind.localAddr, ind.block⟩ hrest Nat.one_ne_zero rfl
    rw [hsecond]
    cases hblock : cutAt newline rest with
    | none => simp [Short, htokens, hblock]
    | some q => simp [Short, htokens, hblock, leftLocal, leftBlock]

/-- The pass over a line as `fgets` returns it, whatever was in the array before. -/
theorem parseLine_textAt {buf : Buf 512} {line : List UInt8} (h : TextAt buf 0 (lineText line))
    (t : Prefixes) :
    ((scanLine inetPton 512 (.start ind buf)).map fun r =>
        if r.1 then assign t r.2.localAddr r.2.block else t) = if Short line then none
      else some (match tokens line with
        | some p => assign t (leftLocal inetPton ind p.1) (leftBlock inetPton ind p.2)
        | none => t) := by
  have hscan := scanLine_textAt inetPton ind h
  generalize scanLine inetPton 512 (.start ind buf) = o at hscan ⊢
  by_cases hshort : Short line
  · rw [if_pos hshort, Option.map_eq_none_iff] at hscan
    rw [if_pos hshort, hscan, Option.map_none]
  · rw [if_neg hshort] at hscan ⊢
    obtain ⟨⟨found, v⟩, rfl, hhanded⟩ := Option.map_eq_some_iff.mp hscan
    -- the match loop uses only what is handed over
    cases htokens : tokens line with
    | none =>
      cases found with
      | true => simp [handed, htokens] at hhanded
      | false => simp
    | some p =>
      cases found with
      | true =>
        rw [htokens] at hhanded
        obtain ⟨hlocal, hblock⟩ := Prod.mk.inj (Option.some.inj hhanded)
        simp only [Option.map_some, if_true, ← hlocal, ← hblock]
      | false => simp [handed, htokens] at hhanded

/-- **The pass over a line.** -/
theorem parseLine_eq {line : List UInt8} (h : line.length ≤ 511) (t : Prefixes) :
    parseLine inetPton ind line t = if Short line then none
      else some (match tokens line with
        | some p => assign t (leftLocal inetPton ind p.1) (leftBlock inetPton ind p.2)
        | none => t) :=
  parseLine_textAt inetPton ind (textAt_loaded h) t

end

/-! ### What `fgets` returns -/

/-- A line as `fgets` returns it: up to a newline, or as much as the array takes. -/
def Complete (line : List UInt8) : Prop :=
  ∃ body c, line = body ++ [c] ∧ newline ∉ body ∧ body.length ≤ 510 ∧
    (c = newline ∨ body.length = 510)

theorem Complete.length_le {line : List UInt8} (h : Complete line) : line.length ≤ 511 := by
  obtain ⟨body, c, rfl, -, hlen, -⟩ := h
  simp
  omega

/-- Such a line is read back in one call. -/
theorem Complete.fgetsLines {line : List UInt8} (h : Complete line) (rest : List UInt8) :
    fgetsLines [] (line ++ rest) = line :: fgetsLines [] rest := by
  obtain ⟨body, c, rfl, hbody, hlen, hend⟩ := h
  have hread : Tunnel.fgetsLines [] (body ++ c :: rest)
      = ([] ++ body ++ [c]) :: Tunnel.fgetsLines [] rest :=
    fgetsLines_append (by simpa using hlen) hbody (by simpa using hend) rest
  simpa using hread

/-- The end of a file without a newline is not returned as a line. -/
theorem fgetsLines_eq_nil {acc rest : List UInt8} (hrest : newline ∉ rest)
    (hlen : acc.length + rest.length ≤ 510) : fgetsLines acc rest = [] := by
  induction rest generalizing acc with
  | nil => rw [fgetsLines]
  | cons c rest ih =>
    rw [List.mem_cons, not_or] at hrest
    rw [List.length_cons] at hlen
    have hgo : ¬ (c = newline ∨ acc.length = 510) := by
      rintro (hc | hfull)
      · exact hrest.1 hc.symm
      · omega
    rw [fgetsLines, if_neg hgo]
    exact ih hrest.2 (by rw [List.length_append, List.length_singleton]; omega)

/-- **A file** is its lines, and an end without a newline. -/
theorem fgetsLines_spec {acc : List UInt8} (hacc : newline ∉ acc) (hlen : acc.length ≤ 510)
    (contents : List UInt8) :
    (∀ line ∈ fgetsLines acc contents, Complete line) ∧
    ∃ rest, acc ++ contents = (fgetsLines acc contents).flatten ++ rest ∧ newline ∉ rest ∧
      rest.length ≤ 510 := by
  induction contents generalizing acc with
  | nil =>
    rw [fgetsLines]
    exact ⟨by simp, acc, by simp, hacc, hlen⟩
  | cons c contents ih =>
    by_cases hend : c = newline ∨ acc.length = 510
    · obtain ⟨hcomplete, rest, hsplit, hrest⟩ := ih List.not_mem_nil (Nat.zero_le _)
      rw [fgetsLines, if_pos hend]
      refine ⟨List.forall_mem_cons.mpr ⟨⟨acc, c, rfl, hacc, hlen, hend⟩, hcomplete⟩, rest, ?_, hrest⟩
      rw [List.nil_append] at hsplit
      rw [List.flatten_cons, List.append_assoc, ← hsplit]
      simp
    · rw [fgetsLines, if_neg hend]
      rw [not_or] at hend
      have hacc' : newline ∉ acc ++ [c] := by
        rw [List.mem_append, List.mem_singleton, not_or]
        exact ⟨hacc, fun h => hend.1 h.symm⟩
      have hmore := ih hacc' (by rw [List.length_append, List.length_singleton]; omega)
      rwa [List.append_assoc, List.singleton_append] at hmore

/-- A file made of lines and an end. -/
theorem fgetsLines_flatten {lines : List (List UInt8)} (h : ∀ line ∈ lines, Complete line)
    {rest : List UInt8} (hrest : newline ∉ rest) (hlen : rest.length ≤ 510) :
    fgetsLines [] (lines.flatten ++ rest) = lines := by
  induction lines with
  | nil => exact fgetsLines_eq_nil hrest (by simpa using hlen)
  | cons line lines ih =>
    rw [List.flatten_cons, List.append_assoc, (h line List.mem_cons_self).fgetsLines,
      ih fun m hm => h m (List.mem_cons_of_mem _ hm)]

/-! ### Loads that stay inside the line -/

section

variable {inetPton : List UInt8 → Option In6Addr} {ind : ℕ → Indeterminate}

/-- The passes over these lines have a result unless one of them is short. -/
theorem foldlM_parseLine_eq_none_iff {lines : List (List UInt8)} (h : ∀ line ∈ lines, Complete line)
    (n : ℕ) (t : Prefixes) :
    (lines.zipIdx n).foldlM (fun t lk => parseLine inetPton (ind lk.2) lk.1 t) t = none ↔
      ∃ line ∈ lines, Short line := by
  induction lines generalizing n t with
  | nil => simp
  | cons line lines ih =>
    have hline := parseLine_eq inetPton (ind n) (h line List.mem_cons_self).length_le t
    rw [List.zipIdx_cons, List.foldlM_cons, hline]
    by_cases hshort : Short line
    · simp [hshort]
    · rw [if_neg hshort, Option.bind_eq_bind, Option.bind_some,
        ih (fun m hm => h m (List.mem_cons_of_mem _ hm))]
      simp [hshort]

/-- **Inside the line.**  A load stores in front of `line[]` exactly if some line is short. -/
theorem parsePrefixes_eq_none_iff (contents : List UInt8) (t : Prefixes) :
    parsePrefixes inetPton ind contents t = none ↔ ∃ line ∈ fgetsLines [] contents, Short line :=
  foldlM_parseLine_eq_none_iff (fgetsLines_spec List.not_mem_nil (Nat.zero_le _) contents).1 0 t

end

end Gap.Tunnel
