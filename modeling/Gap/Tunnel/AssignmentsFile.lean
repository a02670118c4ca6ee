import Gap.Tunnel.Prefixes

namespace Gap.Tunnel

/-!
# Well-formed assignments files

The lines `parse_prefixes` is written for, "fe80::1:2:3:4 2607:4::/60": an address, a blank, a
block that ends in `::`, and its length in two digits.  The parser overwrites the last three
characters with zeros, so that the length turns into one more group of the block.

* `InetPton` — what is used of `inet_pton`.
* `Line`, `fileOf` — the lines, and a file made of them.
* `scanLine_over`, `scanLine_blank`, `scanLine_stamp` — the scan over a text, at the blank and at the
  newline.
* `parseLine_line` — the pass over one line gives its block to its address.
* `parsePrefixes_fileOf` — so the file delegates each of its blocks; the lengths play no part.
-/

/-- `':'`. -/
def colon : UInt8 := 58

/-- `'/'`. -/
def slash : UInt8 := 47

/-- A decimal digit. -/
def digit (n : ℕ) : UInt8 := UInt8.ofNat (48 + n)

/-- The characters of an IPv6 text: hexadecimal digits, colons, and dots. -/
def isAddrChar (c : UInt8) : Bool :=
  (48 ≤ c && c ≤ 57) || (65 ≤ c && c ≤ 70) || (97 ≤ c && c ≤ 102) || c == 58 || c == 46

/-- What is used of `inet_pton (AF_INET6, ..)`. -/
structure InetPton (inetPton : List UInt8 → Option In6Addr) : Prop where
  chars : ∀ text addr, inetPton text = some addr → ∀ c ∈ text, isAddrChar c = true
  /-- A group of zeros behind a final `::` that stands for two groups or more. -/
  zeros : ∀ text addr, inetPton text = some addr → [colon, colon] <:+ text →
    text.count colon ≤ 7 → inetPton (text ++ [digitZero, digitZero, digitZero]) = some addr

/-- A line `LL B/P` of at most 511 characters: `LL` and `B` are IPv6 texts, and `B` has at most six
    groups and ends in `::`. -/
structure Line (inetPton : List UInt8 → Option In6Addr) where
  addrText : List UInt8
  blockText : List UInt8
  addr : In6Addr
  block : In6Addr
  plen : ℕ
  addr_eq : inetPton addrText = some addr
  block_eq : inetPton blockText = some block
  ends : [colon, colon] <:+ blockText
  groups : blockText.count colon ≤ 7
  plen_lt : plen < 100
  length_le : addrText.length + blockText.length ≤ 506

section

variable {inetPton : List UInt8 → Option In6Addr}

/-- The part of a line behind the blank. -/
def Line.tail (l : Line inetPton) : List UInt8 :=
  l.blockText ++ [slash, digit (l.plen / 10), digit (l.plen % 10)]

/-- The line without its newline. -/
def Line.body (l : Line inetPton) : List UInt8 := l.addrText ++ blank :: l.tail

/-- The line. -/
def Line.bytes (l : Line inetPton) : List UInt8 := l.body ++ [newline]

/-- The file made of these lines. -/
def fileOf (lines : List (Line inetPton)) : List UInt8 := lines.flatMap Line.bytes

/-! ### The characters of a line -/

theorem isAddrChar_ne {c : UInt8} (h : isAddrChar c = true) : c ≠ 0 ∧ c ≠ blank ∧ c ≠ newline := by
  refine ⟨?_, ?_, ?_⟩
  all_goals
    rintro rfl
    revert h
    decide

theorem digit_ne {n : ℕ} (h : n < 10) : digit n ≠ 0 ∧ digit n ≠ newline := by
  have hall : ∀ n < 10, digit n ≠ 0 ∧ digit n ≠ newline := by decide
  exact hall n h

theorem Line.length_tail (l : Line inetPton) : l.tail.length = l.blockText.length + 3 := by
  simp [Line.tail]

theorem Line.length_body (l : Line inetPton) :
    l.body.length = l.addrText.length + 1 + l.tail.length := by
  simp [Line.body]
  omega

variable (hpton : InetPton inetPton)
include hpton

theorem Line.addrText_ne (l : Line inetPton) {c : UInt8} (h : c ∈ l.addrText) :
    c ≠ 0 ∧ c ≠ blank ∧ c ≠ newline :=
  isAddrChar_ne (hpton.chars _ _ l.addr_eq c h)

theorem Line.tail_ne (l : Line inetPton) {c : UInt8} (h : c ∈ l.tail) : c ≠ 0 ∧ c ≠ newline := by
  rcases List.mem_append.mp h with hblock | hlen
  · have hne := isAddrChar_ne (hpton.chars _ _ l.block_eq c hblock)
    exact ⟨hne.1, hne.2.2⟩
  · have hplen := l.plen_lt
    simp only [List.mem_cons, List.not_mem_nil, or_false] at hlen
    rcases hlen with rfl | rfl | rfl
    · decide
    · exact digit_ne (by omega)
    · exact digit_ne (Nat.mod_lt _ (by decide))

theorem Line.newline_notMem_body (l : Line inetPton) : newline ∉ l.body := by
  intro h
  rcases List.mem_append.mp h with haddr | htail
  · exact (l.addrText_ne hpton haddr).2.2 rfl
  · rcases List.mem_cons.mp htail with hblank | htail
    · exact absurd hblank (by decide)
    · exact (l.tail_ne hpton htail).2 rfl

omit hpton

/-! ### `fgets` -/

/-- `fgets` returns a line up to its newline, or as much as the array takes. -/
theorem fgetsLines_append {acc body : List UInt8} {c : UInt8}
    (hlen : acc.length + body.length ≤ 510) (hbody : newline ∉ body)
    (hend : c = newline ∨ acc.length + body.length = 510) (rest : List UInt8) :
    fgetsLines acc (body ++ c :: rest) = (acc ++ body ++ [c]) :: fgetsLines [] rest := by
  -- character by character, into the line read so far
  induction body generalizing acc with
  | nil =>
    rw [List.length_nil, Nat.add_zero] at hend
    rw [List.nil_append, fgetsLines, if_pos hend, List.append_nil]
  | cons d body ih =>
    rw [List.mem_cons, not_or] at hbody
    rw [List.length_cons] at hlen hend
    have hgo : ¬ (d = newline ∨ acc.length = 510) := by
      rintro (hd | hfull)
      · exact hbody.1 hd.symm
      · omega
    have hgrow : (acc ++ [d]).length = acc.length + 1 := by simp
    rw [List.cons_append, fgetsLines, if_neg hgo,
      ih (by rw [hgrow]; omega) hbody.2 (hend.imp_right fun h => by rw [hgrow]; omega)]
    simp

include hpton in
/-- The lines of the file are read one by one. -/
theorem fgetsLines_fileOf (lines : List (Line inetPton)) :
    fgetsLines [] (fileOf lines) = lines.map Line.bytes := by
  induction lines with
  | nil => rfl
  | cons l lines ih =>
    have hlen : ([] : List UInt8).length + l.body.length ≤ 510 := by
      have hle := l.length_le
      rw [List.length_nil, l.length_body, l.length_tail]
      omega
    have hcons : fileOf (l :: lines) = l.body ++ newline :: fileOf lines := by
      simp [fileOf, Line.bytes]
    rw [hcons, fgetsLines_append hlen (l.newline_notMem_body hpton) (.inl rfl), ih]
    rfl

/-! ### The scan -/

/-- A text in the array, with a `'\0'` behind it. -/
theorem cString_eq {buf : Buf 512} {i : ℕ} {text : List UInt8} (hlen : i + text.length < 512)
    (htext : ∀ k (h : k < text.length), buf ⟨i + k, by omega⟩ = text[k])
    (hne : ∀ c ∈ text, c ≠ 0) (hend : buf ⟨i + text.length, hlen⟩ = 0) : cString buf i = text := by
  have hsplit : (buf.front 512).drop i
      = text ++ 0 :: (buf.front 512).drop (i + text.length + 1) := by
    refine List.ext_getElem ?_ fun k h₁ h₂ => ?_
    · simp only [List.length_drop, Buf.length_front, List.length_append, List.length_cons]
      omega
    · rw [List.getElem_drop, Buf.getElem_front, List.getElem_append]
      by_cases hk : k < text.length
      · rw [dif_pos hk]
        exact htext k hk
      · rw [dif_neg hk, List.getElem_cons]
        -- the `'\0'`, or a byte behind it
        by_cases hz : k - text.length = 0
        · rw [dif_pos hz, ← hend]
          exact congrArg buf (Fin.ext (show i + k = i + text.length by omega))
        · rw [dif_neg hz, List.getElem_drop, Buf.getElem_front]
          refine congrArg buf (Fin.ext ?_)
          show i + k = i + text.length + 1 + (k - text.length - 1)
          omega
  rw [cString, hsplit, List.takeWhile_append_of_pos (fun c hc => by simpa using hne c hc)]
  simp

/-- The scan goes past characters it does not look for. -/
theorem scanLine_skip (inetPton : List UInt8 → Option In6Addr) (v : LineVars) {i k : ℕ}
    (hik : i + k ≤ 512)
    (h : ∀ p (hp : p < 512), i ≤ p → p < i + k → v.line ⟨p, hp⟩ ≠ 0 ∧
      (v.passes = 0 → v.line ⟨p, hp⟩ ≠ blank) ∧ (v.passes ≠ 0 → v.line ⟨p, hp⟩ ≠ newline)) :
    scanLine inetPton (512 - i) v = scanLine inetPton (512 - (i + k)) v := by
  induction k generalizing i with
  | zero => rfl
  | succ k ih =>
    obtain ⟨left, hleft⟩ : ∃ left, 512 - i = left + 1 := ⟨511 - i, by omega⟩
    have hptr : 511 - left = i := by omega
    obtain ⟨hzero, hblank, hnewline⟩ := h i (by omega) le_rfl (by omega)
    have hnext := ih (i := i + 1) (by omega) fun p hp h₁ h₂ => h p hp (by omega) (by omega)
    rw [show 512 - (i + 1) = left by omega, show i + 1 + k = i + (k + 1) by omega] at hnext
    rw [hleft, scanLine]
    simp only [hptr]
    rw [if_neg hzero]
    by_cases hpasses : v.passes = 0
    · rw [if_pos hpasses, if_neg (hblank hpasses), hnext]
    · rw [if_neg hpasses, if_neg (hnewline hpasses), hnext]

/-- The scan goes past a text without the character it looks for. -/
theorem scanLine_over (inetPton : List UInt8 → Option In6Addr) (v : LineVars) {i : ℕ}
    {text : List UInt8} (hlen : i + text.length ≤ 512)
    (hbyte : ∀ k (h : k < text.length) (hk : i + k < 512), v.line ⟨i + k, hk⟩ = text[k])
    (hne : ∀ c ∈ text, c ≠ 0) (hnot : (if v.passes = 0 then blank else newline) ∉ text) :
    scanLine inetPton (512 - i) v = scanLine inetPton (512 - (i + text.length)) v := by
  refine scanLine_skip inetPton v hlen fun p hp hp₁ hp₂ => ?_
  obtain ⟨k, rfl⟩ : ∃ k, p = i + k := ⟨p - i, by omega⟩
  rw [hbyte k (by omega)]
  have hmem : text[k] ∈ text := List.getElem_mem _
  refine ⟨hne _ hmem, fun hpasses hc => ?_, fun hpasses hc => ?_⟩
  · rw [if_pos hpasses, ← hc] at hnot
    exact hnot hmem
  · rw [if_neg hpasses, ← hc] at hnot
    exact hnot hmem

/-- The blank ends the address. -/
theorem scanLine_blank (v : LineVars) {i : ℕ} (hi : i < 512) (hpasses : v.passes = 0)
    (hblank : v.line ⟨i, hi⟩ = blank) :
    scanLine inetPton (512 - i) v = scanLine inetPton (512 - (i + 1))
      { v with
        line := v.line.copy i [0]
        ptr2 := i + 1
        localAddr := (inetPton (cString (v.line.copy i [0]) 0)).getD v.localAddr
        passes := v.passes + 1 } := by
  obtain ⟨left, hleft⟩ : ∃ left, 512 - i = left + 1 := ⟨511 - i, by omega⟩
  have hptr : 511 - left = i := by omega
  have hzero : v.line ⟨i, hi⟩ ≠ 0 := by rw [hblank]; decide
  rw [hleft, scanLine, show 512 - (i + 1) = left by omega]
  simp only [hptr]
  rw [if_neg hzero, if_pos hpasses, if_pos hblank]
  simp [storeBack]

/-- The array when the newline has been found at `ptr`. -/
def stampLine (line : Buf 512) (ptr : ℕ) : Buf 512 :=
  [1, 2, 3].foldl (fun line k => storeBack line ptr k digitZero) (storeBack line ptr 0 0)

/-- The newline ends the scan, if there are three bytes in front of it for the digits. -/
theorem scanLine_stamp (inetPton : List UInt8 → Option In6Addr) (v : LineVars) {i : ℕ}
    (hi : i < 512) (hpasses : v.passes ≠ 0) (hnewline : v.line ⟨i, hi⟩ = newline) :
    scanLine inetPton (512 - i) v = if i < 3 then none else some (true, { v with
      line := stampLine v.line i
      block := (inetPton (cString (stampLine v.line i) v.ptr2)).getD v.block }) := by
  obtain ⟨left, hleft⟩ : ∃ left, 512 - i = left + 1 := ⟨511 - i, by omega⟩
  have hptr : 511 - left = i := by omega
  have hzero : v.line ⟨i, hi⟩ ≠ 0 := by rw [hnewline]; decide
  rw [hleft, scanLine]
  simp only [hptr]
  rw [if_neg hzero, if_neg hpasses, if_pos hnewline]
  rfl

/-- The array at the end of the scan: the newline and the three characters in front of it are
    overwritten. -/
def cutLine (line : Buf 512) (i : ℕ) : Buf 512 :=
  (((line.copy i [0]).copy (i - 1) [digitZero]).copy (i - 2) [digitZero]).copy (i - 3) [digitZero]

theorem cutLine_eq (line : Buf 512) {i : ℕ} (h3 : 3 ≤ i) : cutLine line i = stampLine line i := by
  have h1 : 1 ≤ i := by omega
  have h2 : 2 ≤ i := by omega
  simp [cutLine, stampLine, storeBack, h1, h2, h3]

/-- The newline ends the block. -/
theorem scanLine_newline (inetPton : List UInt8 → Option In6Addr) (v : LineVars) {i : ℕ}
    (hi : i < 512) (h3 : 3 ≤ i) (hpasses : v.passes ≠ 0) (hnewline : v.line ⟨i, hi⟩ = newline) :
    scanLine inetPton (512 - i) v = some (true, { v with
      line := cutLine v.line i
      block := (inetPton (cString (cutLine v.line i) v.ptr2)).getD v.block }) := by
  have hnot : ¬ i < 3 := by omega
  rw [scanLine_stamp inetPton v hi hpasses hnewline, if_neg hnot, cutLine_eq _ h3]

/-! ### One line -/

/-- The array after `fgets`. -/
def Line.loaded (l : Line inetPton) : Buf 512 := Buf.copy (fun _ => 0) 0 l.bytes

/-- The array when the blank has been found. -/
def Line.split (l : Line inetPton) : Buf 512 := l.loaded.copy l.addrText.length [0]

/-- Where the newline is. -/
def Line.stop (l : Line inetPton) : ℕ := l.addrText.length + 1 + l.tail.length

theorem Line.length_bytes (l : Line inetPton) : l.bytes.length = l.stop + 1 := by
  rw [Line.bytes, List.length_append, l.length_body, List.length_singleton]
  rfl

theorem Line.stop_le (l : Line inetPton) : l.stop ≤ 510 := by
  have hle := l.length_le
  have htail := l.length_tail
  unfold Line.stop
  omega

theorem Line.loaded_apply (l : Line inetPton) {k : ℕ} (h : k < l.bytes.length) (hk : k < 512) :
    l.loaded ⟨k, hk⟩ = l.bytes[k] :=
  Buf.copy_of_mem _ _ (Nat.zero_le _) h

theorem Line.loaded_addrText (l : Line inetPton) {k : ℕ} (h : k < l.addrText.length)
    (hk : k < 512) : l.loaded ⟨k, hk⟩ = l.addrText[k] := by
  rw [l.loaded_apply (by rw [l.length_bytes, Line.stop]; omega)]
  simp [Line.bytes, Line.body, h]

theorem Line.loaded_blank (l : Line inetPton) (h : l.addrText.length < 512) :
    l.loaded ⟨l.addrText.length, h⟩ = blank := by
  rw [l.loaded_apply (by rw [l.length_bytes, Line.stop]; omega)]
  simp [Line.bytes, Line.body]

/-- Behind the blank the array stays as it was read. -/
theorem Line.split_of_lt (l : Line inetPton) {k : ℕ} (h : l.addrText.length < k) (hk : k < 512) :
    l.split ⟨k, hk⟩ = l.loaded ⟨k, hk⟩ := by
  rw [Line.split, Buf.copy_singleton_apply, if_neg (by simp only; omega)]

theorem Line.split_tail (l : Line inetPton) {k : ℕ} (h : k < l.tail.length)
    (hk : l.addrText.length + 1 + k < 512) :
    l.split ⟨l.addrText.length + 1 + k, hk⟩ = l.tail[k] := by
  rw [l.split_of_lt (by omega), l.loaded_apply (by rw [l.length_bytes, Line.stop]; omega)]
  simp only [Line.bytes, Line.body]
  rw [List.getElem_append_left (by simp; omega), List.getElem_append_right (by omega)]
  simp [show l.addrText.length + 1 + k - l.addrText.length = k + 1 by omega]

theorem Line.split_newline (l : Line inetPton) (h : l.stop < 512) :
    l.split ⟨l.stop, h⟩ = newline := by
  rw [l.split_of_lt (by rw [Line.stop]; omega), l.loaded_apply (by rw [l.length_bytes]; omega)]
  simp only [Line.bytes]
  rw [List.getElem_append_right (by rw [l.length_body]; rfl)]
  simp

include hpton

/-- The first string is the address. -/
theorem Line.cString_addr (l : Line inetPton) : cString l.split 0 = l.addrText := by
  have hle := l.length_le
  refine cString_eq (by omega) (fun k hk => ?_) (fun c hc => (l.addrText_ne hpton hc).1) ?_
  · simp only [Nat.zero_add]
    rw [Line.split, Buf.copy_singleton_apply, if_neg (by simp only; omega), l.loaded_addrText hk]
  · simp only [Nat.zero_add]
    rw [Line.split, Buf.copy_singleton_apply, if_pos rfl]

/-- The second string is the block, with zeros where its length was. -/
theorem Line.cString_block (l : Line inetPton) :
    cString (cutLine l.split l.stop) (l.addrText.length + 1)
      = l.blockText ++ [digitZero, digitZero, digitZero] := by
  have hle := l.length_le
  have htail := l.length_tail
  have hstop : l.stop = l.addrText.length + 1 + l.tail.length := rfl
  refine cString_eq (by simp; omega) (fun k hk => ?_) (fun c hc => ?_) ?_
  · simp only [List.length_append, List.length_cons, List.length_nil] at hk
    simp only [cutLine, Buf.copy_singleton_apply]
    -- the block itself is in front of the three characters
    by_cases hblock : k < l.blockText.length
    · rw [if_neg (by omega), if_neg (by omega), if_neg (by omega), if_neg (by omega),
        l.split_tail (by omega), List.getElem_append_left hblock]
      simp [Line.tail, hblock]
    · rw [List.getElem_append_right (by omega)]
      obtain hk₀ | hk₁ | hk₂ : k - l.blockText.length = 0 ∨ k - l.blockText.length = 1 ∨
          k - l.blockText.length = 2 := by omega
      · rw [if_pos (by omega)]
        simp [hk₀]
      · rw [if_neg (by omega), if_pos (by omega)]
        simp [hk₁]
      · rw [if_neg (by omega), if_neg (by omega), if_pos (by omega)]
        simp [hk₂]
  · rcases List.mem_append.mp hc with hblock | hzero
    · exact (isAddrChar_ne (hpton.chars _ _ l.block_eq c hblock)).1
    · simp only [List.mem_cons, List.not_mem_nil, or_false, or_self] at hzero
      rw [hzero]
      decide
  · simp only [cutLine, Buf.copy_singleton_apply, List.length_append, List.length_cons,
      List.length_nil]
    rw [if_neg (by omega), if_neg (by omega), if_neg (by omega), if_pos (by omega)]

/-- The scan up to the blank. -/
theorem Line.scan_addr (l : Line inetPton) (addr block : In6Addr) :
    scanLine inetPton 512 ⟨l.loaded, 0, 0, addr, block⟩
      = scanLine inetPton (512 - (l.addrText.length + 1))
        ⟨l.split, l.addrText.length + 1, 1, l.addr, block⟩ := by
  have hle := l.length_le
  have hskip := scanLine_over inetPton ⟨l.loaded, 0, 0, addr, block⟩ (i := 0)
    (by omega) (fun k h hk => by simp only [Nat.zero_add, l.loaded_addrText h])
    (fun c hc => (l.addrText_ne hpton hc).1) fun hmem => (l.addrText_ne hpton hmem).2.1 rfl
  rw [Nat.sub_zero, Nat.zero_add] at hskip
  rw [hskip, scanLine_blank _ (by omega) rfl (l.loaded_blank (by omega))]
  show scanLine inetPton _ ⟨l.split, _, _, (inetPton (cString l.split 0)).getD addr, block⟩ = _
  rw [l.cString_addr hpton, l.addr_eq]
  rfl

/-- The scan behind the blank. -/
theorem Line.scan_block (l : Line inetPton) (addr block : In6Addr) :
    scanLine inetPton (512 - (l.addrText.length + 1))
        ⟨l.split, l.addrText.length + 1, 1, addr, block⟩
      = some (true, ⟨cutLine l.split l.stop, l.addrText.length + 1, 1, addr, l.block⟩) := by
  have hstop := l.stop_le
  have htail := l.length_tail
  have hskip := scanLine_over inetPton ⟨l.split, l.addrText.length + 1, 1, addr, block⟩
    (by rw [Line.stop] at hstop; omega) (fun k h hk => l.split_tail h hk)
    (fun c hc => (l.tail_ne hpton hc).1) fun hmem => (l.tail_ne hpton hmem).2 rfl
  rw [hskip]
  have hnewline := scanLine_newline inetPton
    ⟨l.split, l.addrText.length + 1, 1, addr, block⟩ (i := l.stop) (by omega)
    (by rw [Line.stop]; omega) (fun h => by cases h) (l.split_newline (by omega))
  rw [Line.stop] at hnewline ⊢
  rw [hnewline]
  simp only
  rw [← Line.stop, l.cString_block hpton, hpton.zeros _ _ l.block_eq l.ends l.groups]
  rfl

/-- **The pass over a line** gives its block to its address. -/
theorem parseLine_line (l : Line inetPton) (ind : Indeterminate) (t : Prefixes) :
    parseLine inetPton ind l.bytes t = some (assign t l.addr l.block) := by
  have hscan := (l.scan_addr hpton ind.localAddr ind.block).trans
    (l.scan_block hpton l.addr ind.block)
  rw [Line.loaded] at hscan
  rw [parseLine, LineVars.start, hscan]
  simp only [Option.map_some, if_true]

/-- **The passes over a file** give the blocks of its lines. -/
theorem parsePrefixes_fileOf (lines : List (Line inetPton)) (ind : ℕ → Indeterminate)
    (t : Prefixes) :
    parsePrefixes inetPton ind (fileOf lines) t
      = some ((lines.map fun l => (l.addr, l.block)).foldl (fun t d => assign t d.1 d.2) t) := by
  have hfrom : ∀ n t, ((lines.map Line.bytes).zipIdx n).foldlM
      (fun t lk => parseLine inetPton (ind lk.2) lk.1 t) t
        = some ((lines.map fun l => (l.addr, l.block)).foldl (fun t d => assign t d.1 d.2) t) := by
    induction lines with
    | nil => exact fun _ _ => rfl
    | cons l lines ih =>
      intro n t
      rw [List.map_cons, List.zipIdx_cons, List.foldlM_cons, parseLine_line hpton l,
        Option.bind_eq_bind, Option.bind_some, ih (n + 1), List.map_cons, List.foldl_cons]
  rw [parsePrefixes, fgetsLines_fileOf hpton]
  exact hfrom 0 t

end

end Gap.Tunnel
