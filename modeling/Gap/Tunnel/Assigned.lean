import Gap.Lib.Ipv6Text
import Gap.Tunnel.AssignmentsFile

namespace Gap.Tunnel

/-!
# A load of a well-formed file

What `parse_prefixes` does to every entry of the table, with the parser of the C library in the
place of `inet_pton`.

* `inetPton_inetPton6` — that parser does what is used of it.
* `LastLine` — the last line that names an address; `lastBlock_of_lastLine`.
* `load_wellFormed` — the table after a load, entry by entry.
-/

theorem isAddrChar_of_isTextChar {c : UInt8} (h : Ipv6Text.isTextChar c = true) :
    isAddrChar c = true := by
  have hall : ∀ n < 256, Ipv6Text.isTextChar (UInt8.ofNat n) = true →
      isAddrChar (UInt8.ofNat n) = true := by decide +kernel
  have hc := hall c.toNat c.toNat_lt
  rw [UInt8.ofNat_toNat] at hc
  exact hc h

/-- The C library accepts only address characters, and takes a group of zeros behind a final `::`
    for some of the zeros it stands for. -/
theorem inetPton_inetPton6 : InetPton inetPton6 where
  chars _ _ h c hc := isAddrChar_of_isTextChar (Ipv6Text.chars_of_inetPton6 h c hc)
  zeros _ _ h hends hcolons := Ipv6Text.inetPton6_append_zeros h hends hcolons

section

variable {inetPton : List UInt8 → Option In6Addr}

/-- The last line that names an address. -/
def LastLine (lines : List (Line inetPton)) (addr : In6Addr) (l : Line inetPton) : Prop :=
  ∃ pre post, lines = pre ++ l :: post ∧ l.addr = addr ∧ ∀ m ∈ post, m.addr ≠ addr

/-- An address that some line names is named by a last one. -/
theorem exists_lastLine {lines : List (Line inetPton)} {addr : In6Addr}
    (h : ∃ l ∈ lines, l.addr = addr) : ∃ l, LastLine lines addr l := by
  induction lines using List.reverseRecOn with
  | nil => simp at h
  | append_singleton lines m ih =>
    by_cases hm : m.addr = addr
    · exact ⟨m, lines, [], rfl, hm, by simp⟩
    · have hinit : ∃ l ∈ lines, l.addr = addr := by
        obtain ⟨l, hl, ha⟩ := h
        rcases List.mem_append.mp hl with hold | hlast
        · exact ⟨l, hold, ha⟩
        · rw [List.mem_singleton.mp hlast] at ha
          exact absurd ha hm
      obtain ⟨l, pre, post, rfl, ha, hpost⟩ := ih hinit
      refine ⟨l, pre, post ++ [m], by simp, ha, fun k hk => ?_⟩
      rcases List.mem_append.mp hk with hold | hlast
      · exact hpost k hold
      · rwa [List.mem_singleton.mp hlast]

/-- Lines that do not name the address do not count. -/
theorem foldl_block_of_ne {lines : List (Line inetPton)} {addr : In6Addr}
    (h : ∀ l ∈ lines, l.addr ≠ addr) (b : Option In6Addr) :
    (lines.map fun l => (l.addr, l.block)).foldl (fun b d => if d.1 = addr then some d.2 else b) b
      = b := by
  induction lines with
  | nil => rfl
  | cons l lines ih =>
    rw [List.map_cons, List.foldl_cons, if_neg (h l List.mem_cons_self)]
    exact ih fun m hm => h m (List.mem_cons_of_mem l hm)

theorem lastBlock_of_forall_ne {lines : List (Line inetPton)} {addr : In6Addr}
    (h : ∀ l ∈ lines, l.addr ≠ addr) :
    lastBlock addr (lines.map fun l => (l.addr, l.block)) = none :=
  foldl_block_of_ne h none

/-- The last line that names the address gives its block. -/
theorem lastBlock_of_lastLine {lines : List (Line inetPton)} {addr : In6Addr} {l : Line inetPton}
    (h : LastLine lines addr l) :
    lastBlock addr (lines.map fun l => (l.addr, l.block)) = some l.block := by
  obtain ⟨pre, post, rfl, ha, hpost⟩ := h
  rw [lastBlock, List.map_append, List.foldl_append, List.map_cons, List.foldl_cons, if_pos ha]
  exact foldl_block_of_ne hpost _

end

/-- **A load of a well-formed file.**  It stays inside the line; the lowest entry with an address that
    some line names gets the block of the last such line, with the length 62; every other entry keeps
    its block; and no address changes. -/
theorem load_wellFormed (t : Prefixes) (lines : List (Line inetPton6)) (ind : ℕ → Indeterminate) :
    ∃ t', parsePrefixes inetPton6 ind (fileOf lines) t = some t' ∧
      (∀ j, First t j → (∃ l ∈ lines, l.addr = (t j).addrLl) →
        ∃ l, LastLine lines (t j).addrLl l ∧ (t' j).addrPd = l.block ∧ (t' j).plenPd = 62) ∧
      (∀ j, ¬ (First t j ∧ ∃ l ∈ lines, l.addr = (t j).addrLl) →
        (t' j).addrPd = (t j).addrPd ∧ (t' j).plenPd = (t j).plenPd) ∧
      ∀ j, (t' j).addrLl = (t j).addrLl ∧ (t' j).plenLl = (t j).plenLl := by
  have hload := parsePrefixes_fileOf inetPton_inetPton6 lines ind t
  have hreloaded := parsePrefixes_reloaded hload
  refine ⟨_, hload, fun j hfirst hnamed => ?_, fun j hnot => ?_,
    fun j => ⟨hreloaded.addrLl j, hreloaded.plenLl j⟩⟩
  · obtain ⟨l, hl⟩ := exists_lastLine hnamed
    refine ⟨l, hl, ?_⟩
    rw [foldl_assign_first hfirst, lastBlock_of_lastLine hl]
    exact ⟨rfl, rfl⟩
  · by_cases hfirst : First t j
    · -- the entry is the lowest with its address, and no line names it
      have hne : ∀ l ∈ lines, l.addr ≠ (t j).addrLl := fun l hl ha => hnot ⟨hfirst, l, hl, ha⟩
      rw [foldl_assign_first hfirst, lastBlock_of_forall_ne hne]
      exact ⟨rfl, rfl⟩
    · rw [foldl_assign_of_not hfirst]
      exact ⟨rfl, rfl⟩

end Gap.Tunnel
