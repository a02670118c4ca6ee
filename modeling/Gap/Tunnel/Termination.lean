import Gap.Lib.Loop
import Gap.Tunnel.Malformed

namespace Gap.Tunnel

/-!
# The loops of the assignments file

`parse_prefixes` as two loops without a condition: the outer one is left at the end of the file,
which it sees by `feof` alone; the inner one scans the array that `fgets` has filled.

* `Stream`, `Stream.fgets` — a file that can be read up to some point, and `fgets` on it.
* `scanPass`, `filePass` — one pass of the inner and of the outer loop.
* `loop_scanPass` — the scan of a line that has been read ends, as `scanLine` says.
* `loop_filePass` — a file that is read to its end is left with the table of `parsePrefixes`.
* `parse_prefixes_ends` — the outer loop is left exactly if reading ends at the end of the file, and
  no line is short.
-/

/-! ### The file -/

/-- How reading ends: at the end of the file, or with an error that every later read meets too. -/
inductive Ending
  | endOfFile
  | error
  deriving DecidableEq

/-- `FILE`: the bytes still to be read, what comes behind them, and the end-of-file indicator. -/
structure Stream where
  rest : List UInt8
  ending : Ending
  eof : Bool

/-- A file that has been opened. -/
def Stream.opened (contents : List UInt8) (ending : Ending) : Stream := ⟨contents, ending, false⟩

/-- The bytes one call reads with room for so many, and whether it gets to the end of a line or of
    the room. -/
def readLine : ℕ → List UInt8 → List UInt8 × Bool
  | 0, _ => ([], true)
  | _ + 1, [] => ([], false)
  | room + 1, c :: rest =>
    if c = newline then ([c], true)
    else
      let r := readLine room rest
      (c :: r.1, r.2)

/-- `fgets (line, 512, prefix_file)`, with what is in the array before, and what is in it behind a
    read error. -/
def Stream.fgets (s : Stream) (stale unspecified : Buf 512) : Stream × Buf 512 :=
  let r := readLine 511 s.rest
  let s' := { s with rest := s.rest.drop r.1.length }
  if r.2 then (s', stale.copy 0 (r.1 ++ [0]))
  else
    match s.ending with
    | .endOfFile =>
      -- with no byte read, the array stays as it is
      ({ s' with eof := true }, if r.1 = [] then stale else stale.copy 0 (r.1 ++ [0]))
    | .error => (s', unspecified)

/-! ### The loops -/

/-- What one pass of the outer loop finds in its variables. -/
structure PassEnv where
  ind : Indeterminate
  stale : Buf 512
  unspecified : Buf 512

/-- One pass of the inner loop, at `ptr`; outside the array it has no meaning. -/
def scanPass (inetPton : List UInt8 → Option In6Addr) (s : ℕ × LineVars) :
    Option (Pass (ℕ × LineVars) (Bool × LineVars)) :=
  let (ptr, v) := s
  if h : ptr < 512 then
    let c := v.line ⟨ptr, h⟩
    if c = 0 then some (.leave (false, v))
    else if v.passes = 0 then
      if c = blank then
        let line := storeBack v.line ptr 0 0
        some (.next (ptr + 1, { v with
          line
          ptr2 := ptr + 1
          localAddr := (inetPton (cString line 0)).getD v.localAddr
          passes := v.passes + 1 }))
      else some (.next (ptr + 1, v))
    else if c = newline then
      if ptr < 3 then none
      else
        let line := stampLine v.line ptr
        some (.leave (true, { v with
          line, block := (inetPton (cString line v.ptr2)).getD v.block }))
    else some (.next (ptr + 1, v))
  else none

/-- The variables of the outer loop, with the number of passes made. -/
structure FileVars where
  pass : ℕ
  stream : Stream
  prefixes : Prefixes

/-- One pass of the outer loop. -/
def filePass (inetPton : List UInt8 → Option In6Addr) (env : ℕ → PassEnv) (s : FileVars) :
    Option (Pass FileVars Prefixes) :=
  let e := env s.pass
  let (stream, line) := s.stream.fgets e.stale e.unspecified
  if stream.eof then some (.leave s.prefixes)
  else
    -- `ptr` goes up with every pass, and out of the array behind 512 of them
    match loop (scanPass inetPton) 513 (0, .start e.ind line) with
    | none => none
    | some (found, v) => some (.next
        { pass := s.pass + 1
          stream
          prefixes := if found then assign s.prefixes v.localAddr v.block else s.prefixes })

section

variable (inetPton : List UInt8 → Option In6Addr)

/-! ### The inner loop -/

/-- **One pass** of the inner loop: it goes on to the next byte, with a step of the scan, or leaves
    where the scan stops, or stores in front of the array like the scan. -/
theorem scanPass_cases (v : LineVars) {ptr : ℕ} (hptr : ptr < 512) :
    (∃ v', scanPass inetPton (ptr, v) = some (.next (ptr + 1, v')) ∧
      v.line ⟨ptr, hptr⟩ ≠ 0 ∧ (∀ i, v.line i = 0 → v'.line i = 0) ∧
      scanLine inetPton (512 - ptr) v = scanLine inetPton (512 - (ptr + 1)) v') ∨
    (∃ r, scanPass inetPton (ptr, v) = some (.leave r) ∧
      scanLine inetPton (512 - ptr) v = some r) ∨
    scanPass inetPton (ptr, v) = none ∧ scanLine inetPton (512 - ptr) v = none := by
  simp only [scanPass, dif_pos hptr]
  by_cases hzero : v.line ⟨ptr, hptr⟩ = 0
  · rw [if_pos hzero]
    exact .inr (.inl ⟨_, rfl, scanLine_end inetPton v hptr hzero⟩)
  rw [if_neg hzero]
  -- a byte the scan does not look for
  have hskip : ∀ (_ : v.passes = 0 → v.line ⟨ptr, hptr⟩ ≠ blank)
      (_ : v.passes ≠ 0 → v.line ⟨ptr, hptr⟩ ≠ newline),
      scanLine inetPton (512 - ptr) v = scanLine inetPton (512 - (ptr + 1)) v := by
    intro hblank hnewline
    refine scanLine_skip inetPton v (k := 1) (by omega) fun p hp hp₁ hp₂ => ?_
    obtain rfl : p = ptr := by omega
    exact ⟨hzero, hblank, hnewline⟩
  by_cases hpasses : v.passes = 0
  · rw [if_pos hpasses]
    by_cases hblank : v.line ⟨ptr, hptr⟩ = blank
    · rw [if_pos hblank]
      refine .inl ⟨_, rfl, hzero, fun i hi => ?_, scanLine_blank v hptr hpasses hblank⟩
      show storeBack v.line ptr 0 0 i = 0
      rw [storeBack_apply]
      split_ifs
      · rfl
      · exact hi
    · rw [if_neg hblank]
      exact .inl ⟨v, rfl, hzero, fun _ => id, hskip (fun _ => hblank) fun h => absurd hpasses h⟩
  · rw [if_neg hpasses]
    by_cases hnewline : v.line ⟨ptr, hptr⟩ = newline
    · rw [if_pos hnewline, scanLine_stamp inetPton v hptr hpasses hnewline]
      right
      by_cases hshort : ptr < 3
      · rw [if_pos hshort, if_pos hshort]
        exact .inr ⟨rfl, rfl⟩
      · rw [if_neg hshort, if_neg hshort]
        exact .inl ⟨_, rfl, rfl⟩
    · rw [if_neg hnewline]
      exact .inl ⟨v, rfl, hzero, fun _ => id, hskip (fun h => absurd h hpasses) fun _ => hnewline⟩

/-- **The scan of a line ends**, at a `'\0'` in the array at the latest, as `scanLine` says. -/
theorem loop_scanPass {v : LineVars} {p : ℕ} (hp : p < 512) (hzero : v.line ⟨p, hp⟩ = 0) :
    loop (scanPass inetPton) 513 (0, v) = scanLine inetPton 512 v := by
  refine loop_eq (fun s : ℕ × LineVars => s.1 ≤ p ∧ s.2.line ⟨p, hp⟩ = 0)
    (fun s => scanLine inetPton (512 - s.1) s.2) (fun s => 512 - s.1) ?_
    ⟨Nat.zero_le p, hzero⟩ (by simp only; omega)
  rintro ⟨ptr, w⟩ ⟨hle, hw⟩
  have hptr : ptr < 512 := lt_of_le_of_lt hle hp
  rcases scanPass_cases inetPton w hptr with ⟨w', hnext, hne, hkeep, hstep⟩ | hstop
  · refine .inl ⟨_, hnext, ⟨?_, hkeep _ hw⟩, hstep, by simp only; omega⟩
    -- the `'\0'` is not behind `ptr` yet
    rcases Nat.lt_or_eq_of_le hle with hlt | rfl
    · exact hlt
    · exact absurd hw hne
  · exact .inr hstop

/-- The bound on the passes loses no run of the inner loop: `ptr` goes up, and not out of the
    array. -/
theorem loop_scanPass_of_ends {v : LineVars} {n : ℕ} {r : Bool × LineVars}
    (h : loop (scanPass inetPton) n (0, v) = some r) :
    loop (scanPass inetPton) 513 (0, v) = some r := by
  refine loop_of_measure (fun s => 512 - s.1) ?_ h (by simp only; omega)
  rintro ⟨ptr, w⟩ s' hnext
  by_cases hptr : ptr < 512
  · rcases scanPass_cases inetPton w hptr with ⟨w', hw, -⟩ | ⟨r, hr, -⟩ | ⟨hnone, -⟩
    · rw [hw] at hnext
      cases hnext
      simp only
      omega
    · rw [hr] at hnext
      cases hnext
    · rw [hnone] at hnext
      cases hnext
  · simp only [scanPass, dif_neg hptr, reduceCtorEq] at hnext

end

/-! ### `fgets` -/

/-- One call reads the next line, if there is one. -/
theorem fgetsLines_eq_readLine (acc : List UInt8) (room : ℕ) (hroom : acc.length + room = 510)
    (rest : List UInt8) :
    fgetsLines acc rest =
      if (readLine (room + 1) rest).2 then
        (acc ++ (readLine (room + 1) rest).1) ::
          fgetsLines [] (rest.drop (readLine (room + 1) rest).1.length)
      else [] := by
  -- byte by byte, as long as there is room
  induction rest generalizing acc room with
  | nil => simp [fgetsLines, readLine]
  | cons c rest ih =>
    rw [fgetsLines, readLine]
    by_cases hc : c = newline
    · simp [hc]
    · rw [if_neg hc]
      cases room with
      | zero =>
        rw [if_pos (.inr hroom)]
        simp [readLine]
      | succ room =>
        have hgo : ¬ (c = newline ∨ acc.length = 510) := by
          rintro (h | h)
          · exact hc h
          · omega
        have hgrow : (acc ++ [c]).length = acc.length + 1 := by simp
        rw [if_neg hgo, ih _ room (by rw [hgrow]; omega)]
        simp

/-- A line that is read takes some bytes off the file. -/
theorem length_drop_readLine {room : ℕ} {rest : List UInt8} (h : (readLine (room + 1) rest).2 = true) :
    (rest.drop (readLine (room + 1) rest).1.length).length < rest.length := by
  cases rest with
  | nil => cases h
  | cons c rest =>
    have hpos : 0 < (readLine (room + 1) (c :: rest)).1.length := by
      rw [readLine]
      split_ifs
      · simp
      · simp
    rw [List.length_drop, List.length_cons]
    omega

/-! ### The outer loop -/

section

variable (inetPton : List UInt8 → Option In6Addr) (env : ℕ → PassEnv)

/-- **One pass** of the outer loop, where a line is read. -/
theorem filePass_line {s : FileVars} (hread : (readLine 511 s.stream.rest).2 = true)
    (heof : s.stream.eof = false) :
    filePass inetPton env s =
      (parseLine inetPton (env s.pass).ind (readLine 511 s.stream.rest).1 s.prefixes).map fun t =>
        .next { pass := s.pass + 1
                stream := { s.stream with
                  rest := s.stream.rest.drop (readLine 511 s.stream.rest).1.length }
                prefixes := t } := by
  have hlines := fgetsLines_eq_readLine [] 510 rfl s.stream.rest
  rw [if_pos hread, List.nil_append] at hlines
  obtain ⟨hcomplete, -⟩ := fgetsLines_spec List.not_mem_nil (Nat.zero_le _) s.stream.rest
  rw [hlines] at hcomplete
  have hlen := (hcomplete _ List.mem_cons_self).length_le
  -- the pass does not depend on what was in the array
  have htext := textAt_fgets (env s.pass).stale hlen
  have hscan := loop_scanPass inetPton (v := .start (env s.pass).ind
    ((env s.pass).stale.copy 0 ((readLine 511 s.stream.rest).1 ++ [0]))) htext.length_lt
    htext.terminated
  have hassign := parseLine_textAt inetPton (env s.pass).ind htext s.prefixes
  rw [← parseLine_eq inetPton (env s.pass).ind hlen] at hassign
  simp only [filePass, Stream.fgets, hread, if_true, heof, Bool.false_eq_true, if_false, hscan]
  rw [← hassign]
  cases scanLine inetPton 512 _ with
  | none => rfl
  | some r => rfl

/-- One pass, where the file ends. -/
theorem filePass_endOfFile {s : FileVars} (hread : (readLine 511 s.stream.rest).2 = false)
    (hending : s.stream.ending = .endOfFile) :
    filePass inetPton env s = some (.leave s.prefixes) := by
  simp only [filePass, Stream.fgets, hread, Bool.false_eq_true, if_false, hending, if_true]

/-- **A file that is read to its end.**  The outer loop is left with the table of `parsePrefixes`, if
    there is one. -/
theorem loop_filePass (contents : List UInt8) (t : Prefixes) {n : ℕ} (hn : contents.length < n) :
    loop (filePass inetPton env) n ⟨0, .opened contents .endOfFile, t⟩
      = parsePrefixes inetPton (fun k => (env k).ind) contents t := by
  -- what the passes to come make of the table stays the same
  refine loop_eq (s := FileVars.mk 0 (.opened contents .endOfFile) t)
    (fun s => s.stream.ending = .endOfFile ∧ s.stream.eof = false)
    (fun s => ((fgetsLines [] s.stream.rest).zipIdx s.pass).foldlM
      (fun t lk => parseLine inetPton (env lk.2).ind lk.1 t) s.prefixes)
    (fun s => s.stream.rest.length) ?_ ⟨rfl, rfl⟩ hn
  rintro s ⟨hending, heof⟩
  have hlines := fgetsLines_eq_readLine [] 510 rfl s.stream.rest
  by_cases hread : (readLine 511 s.stream.rest).2 = true
  · rw [if_pos hread, List.nil_append] at hlines
    have hpass := filePass_line inetPton env hread heof
    simp only [hlines, List.zipIdx_cons, List.foldlM_cons, Option.bind_eq_bind]
    cases hline : parseLine inetPton (env s.pass).ind (readLine 511 s.stream.rest).1 s.prefixes with
    | none =>
      rw [hline, Option.map_none] at hpass
      exact .inr (.inr ⟨hpass, rfl⟩)
    | some t' =>
      rw [hline, Option.map_some] at hpass
      exact .inl ⟨_, hpass, ⟨hending, heof⟩, rfl, length_drop_readLine hread⟩
  · rw [if_neg hread] at hlines
    rw [Bool.not_eq_true] at hread
    simp only [hlines, List.zipIdx_nil, List.foldlM_nil]
    exact .inr (.inl ⟨_, filePass_endOfFile inetPton env hread hending, rfl⟩)

/-- One pass, where reading ends with an error: the indicator is not set. -/
theorem filePass_error {s : FileVars} (hending : s.stream.ending = .error)
    (heof : s.stream.eof = false) :
    filePass inetPton env s = none ∨ ∃ s', filePass inetPton env s = some (.next s') ∧
      s'.stream.ending = .error ∧ s'.stream.eof = false := by
  have hstream : (s.stream.fgets (env s.pass).stale (env s.pass).unspecified).1.ending = .error ∧
      (s.stream.fgets (env s.pass).stale (env s.pass).unspecified).1.eof = false := by
    unfold Stream.fgets
    by_cases hread : (readLine 511 s.stream.rest).2 = true
    · simp only [hread, if_true]
      exact ⟨hending, heof⟩
    · simp only [hread, Bool.false_eq_true, if_false, hending]
      exact ⟨trivial, heof⟩
  simp only [filePass, hstream.2, Bool.false_eq_true, if_false]
  cases loop (scanPass inetPton) 513 _ with
  | none => exact .inl rfl
  | some r => exact .inr ⟨_, rfl, hstream⟩

/-- **Termination of `parse_prefixes`.**  For any bytes that can be read, and any values that are
    indeterminate: the outer loop is left after finitely many passes, in each of which the scan of
    the line has ended, exactly if reading ends at the end of the file, and no line is short. -/
theorem parse_prefixes_ends (contents : List UInt8) (ending : Ending) (t : Prefixes) :
    Ends (filePass inetPton env) ⟨0, .opened contents ending, t⟩ ↔
      ending = .endOfFile ∧ ∀ line ∈ fgetsLines [] contents, ¬ Short line := by
  cases ending with
  | endOfFile =>
    have hnone : parsePrefixes inetPton (fun k => (env k).ind) contents t = none ↔
        ∃ line ∈ fgetsLines [] contents, Short line := parsePrefixes_eq_none_iff contents t
    rw [and_iff_right rfl]
    constructor
    · rintro ⟨n, r, hr⟩ line hline hshort
      -- with passes enough for the file there is no result
      have hmore := loop_of_le (Nat.le_add_right n (contents.length + 1)) hr
      rw [loop_filePass inetPton env contents t (by omega), hnone.mpr ⟨line, hline, hshort⟩] at hmore
      cases hmore
    · intro h
      cases hload : parsePrefixes inetPton (fun k => (env k).ind) contents t with
      | none =>
        obtain ⟨line, hline, hshort⟩ := hnone.mp hload
        exact absurd hshort (h line hline)
      | some t' =>
        exact ⟨_, t', (loop_filePass inetPton env contents t (Nat.lt_succ_self _)).trans hload⟩
  | error =>
    refine iff_of_false ?_ (by simp)
    -- the indicator is never set
    refine not_ends_of_invariant (fun s => s.stream.ending = .error ∧ s.stream.eof = false) ?_ ?_
      ⟨rfl, rfl⟩
    · rintro s r ⟨hending, heof⟩ hleave
      rcases filePass_error inetPton env hending heof with hnone | ⟨s', hnext, -⟩
      · rw [hleave] at hnone
        cases hnone
      · rw [hleave] at hnext
        cases hnext
    · rintro s s' ⟨hending, heof⟩ hnext
      rcases filePass_error inetPton env hending heof with hnone | ⟨s'', hnext', hinv⟩
      · rw [hnext] at hnone
        cases hnone
      · rw [hnext] at hnext'
        cases hnext'
        exact hinv

end

/-! ### A read error -/

/-- Every array is zero, and so is every address. -/
def zeroEnv : PassEnv := ⟨⟨fun _ => 0, fun _ => 0⟩, fun _ => 0, fun _ => 0⟩

/-- A file of which no byte can be read, say a directory: each call of `fgets` fails, each pass goes
    on, and the loop is never left. -/
theorem read_error_never_ends :
    (∀ n, passesOf (filePass inetPton6 fun _ => zeroEnv) n
      ⟨0, .opened [] .error, fun _ => SocketPrefix.zero⟩
        = some ⟨n, .opened [] .error, fun _ => SocketPrefix.zero⟩) ∧
    ¬ Ends (filePass inetPton6 fun _ => zeroEnv)
      ⟨0, .opened [] .error, fun _ => SocketPrefix.zero⟩ := by
  have hpass : ∀ k, filePass inetPton6 (fun _ => zeroEnv)
      ⟨k, .opened [] .error, fun _ => SocketPrefix.zero⟩
        = some (.next ⟨k + 1, .opened [] .error, fun _ => SocketPrefix.zero⟩) := by
    intro k
    have hscan := loop_scanPass inetPton6 (v := .start zeroEnv.ind zeroEnv.unspecified)
      (show 0 < 512 by decide) rfl
    have hend : scanLine inetPton6 512 (.start zeroEnv.ind zeroEnv.unspecified) = some (false, _) :=
      scanLine_end inetPton6 _ (show 0 < 512 by decide) rfl
    rw [hend] at hscan
    simp [filePass, Stream.fgets, Stream.opened, readLine, hscan]
  have hfrom : ∀ n k, passesOf (filePass inetPton6 fun _ => zeroEnv) n
      ⟨k, .opened [] .error, fun _ => SocketPrefix.zero⟩
        = some ⟨k + n, .opened [] .error, fun _ => SocketPrefix.zero⟩ := by
    intro n
    induction n with
    | zero => exact fun k => rfl
    | succ n ih =>
      intro k
      rw [passesOf_next (hpass k), ih (k + 1), Nat.add_right_comm, Nat.add_assoc]
  refine ⟨fun n => ?_, not_ends_of_invariant (fun s => ∃ k, s = ⟨k, .opened [] .error, fun _ =>
    SocketPrefix.zero⟩) ?_ ?_ ⟨0, rfl⟩⟩
  · rw [hfrom n 0, Nat.zero_add]
  · rintro _ r ⟨k, rfl⟩ hleave
    rw [hpass k] at hleave
    cases hleave
  · rintro _ s' ⟨k, rfl⟩ hnext
    rw [hpass k] at hnext
    cases hnext
    exact ⟨k + 1, rfl⟩

end Gap.Tunnel
