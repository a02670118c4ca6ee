import Gap.Lib.Machine

namespace Gap.Bcp

/-!
# The firmware starts to scan

`scan_start` of `main.c`, statement by statement, and the system events that preempt it.  A handler
runs to its end before the statements of `main` go on.

* `ScanStmt`, `ScanStmt.exec` — the statements of `scan_start`, in the style of `Radio.lean`.
* `scanStart`, `onSysEvt` — the function as a handler runs it; `alone_scanStart`.
* `scanner` — `main` and the system events, with the flash operations that are outstanding.
* `scanning_not_forgotten` — when scanning is started, or going to be.

`pstorage_access_status_get` and `sd_ble_gap_scan_start` are taken to succeed.
-/

/-! ### State -/

/-- `ble_gap_scan_params_t`; `none` is `NULL`. -/
structure ScanParams where
  active : UInt8
  selective : UInt8
  interval : UInt16
  window : UInt16
  pWhitelist : Option ℕ
  timeout : UInt16
  deriving DecidableEq

/-- `SCAN_INTERVAL`. -/
def scanInterval : UInt16 := 0x00A0

/-- `SCAN_WINDOW`. -/
def scanWindow : UInt16 := 0x0050

/-- The parameters `scan_start` scans with. -/
def scanParams : ScanParams := ⟨0, 0, scanInterval, scanWindow, none, 0x0000⟩

/-- The two globals, and the flash operations that have not ended. -/
structure ScanGlobals where
  mMemoryAccessInProgress : Bool
  mScanParam : ScanParams
  outstanding : ℕ
  deriving DecidableEq

/-- `sd_ble_gap_scan_start (&m_scan_param)`. -/
inductive ScanObs
  | scanStart (p : ScanParams)
  deriving DecidableEq

/-! ### Statements -/

/-- The fields of `m_scan_param`. -/
inductive ScanField
  | active
  | selective
  | interval
  | window
  | pWhitelist
  | timeout
  deriving DecidableEq

/-- One assignment to `m_scan_param`. -/
def ScanField.assign (p : ScanParams) : ScanField → ScanParams
  | .active => { p with active := 0 }
  | .selective => { p with selective := 0 }
  | .interval => { p with interval := scanInterval }
  | .window => { p with window := scanWindow }
  | .pWhitelist => { p with pWhitelist := none }
  | .timeout => { p with timeout := 0x0000 }

/-- The assignments of `scan_start`, in their order. -/
def scanFields : List ScanField :=
  [.active, .selective, .interval, .window, .pWhitelist, .timeout]

/-- The statements. -/
inductive ScanStmt
  | accessStatusGet
  | ifPending (count : ℕ)
  | setInProgress
  | assign (f : ScanField)
  | scanStart
  deriving DecidableEq

/-- `scan_start`. -/
def scanStartStmts : List ScanStmt := .accessStatusGet :: scanFields.map .assign ++ [.scanStart]

/-- One statement, with the statements `rest` behind it: the globals, the statements that are left,
    and what is to be seen. -/
def ScanStmt.exec (g : ScanGlobals) (rest : List ScanStmt) :
    ScanStmt → ScanGlobals × List ScanStmt × List ScanObs
  | .accessStatusGet => (g, .ifPending g.outstanding :: rest, [])
  -- with an access pending, `scan_start` returns behind the assignment
  | .ifPending count => (g, if count ≠ 0 then [.setInProgress] else rest, [])
  | .setInProgress => ({ g with mMemoryAccessInProgress := true }, rest, [])
  | .assign f => ({ g with mScanParam := f.assign g.mScanParam }, rest, [])
  | .scanStart => (g, rest, [.scanStart g.mScanParam])

/-! ### Handlers -/

/-- `scan_start`, with nothing in between. -/
def scanStart (g : ScanGlobals) : ScanGlobals × List ScanObs :=
  if g.outstanding ≠ 0 then ({ g with mMemoryAccessInProgress := true }, [])
  else ({ g with mScanParam := scanParams }, [.scanStart scanParams])

/-- The system events: those a flash operation ends with, and all others. -/
inductive SysEvt
  | flashOperationSuccess
  | flashOperationError
  | other
  deriving DecidableEq

/-- A flash operation ends with this event. -/
def SysEvt.flash : SysEvt → Bool
  | .flashOperationSuccess => true
  | .flashOperationError => true
  | .other => false

/-- `on_sys_evt`. -/
def onSysEvt (e : SysEvt) (g : ScanGlobals) : ScanGlobals × List ScanObs :=
  if e.flash then
    if g.mMemoryAccessInProgress then scanStart { g with mMemoryAccessInProgress := false }
    else (g, [])
  else (g, [])

/-- `sys_evt_dispatch`: for `pstorage`, an operation has ended. -/
def sysEvtDispatch (e : SysEvt) (g : ScanGlobals) : Option (ScanGlobals × List ScanObs) :=
  if e.flash then
    if g.outstanding = 0 then none
    else some (onSysEvt e { g with outstanding := g.outstanding - 1 })
  else some (onSysEvt e g)

/-! ### The firmware -/

/-- The globals, and the statements of `scan_start` that `main` has to go. -/
structure Scanner where
  globals : ScanGlobals
  main : List ScanStmt

/-- `main` takes its next statement, or a system event preempts it. -/
inductive ScanInput
  | main
  | sysEvt (e : SysEvt)

/-- One step. -/
def Scanner.step (s : Scanner) : ScanInput → Option (Scanner × List ScanObs)
  | .main =>
    match s.main with
    | [] => none
    | stmt :: rest =>
      let x := stmt.exec s.globals rest
      some (⟨x.1, x.2.1⟩, x.2.2)
  | .sysEvt e => (sysEvtDispatch e s.globals).map fun x => ({ s with globals := x.1 }, x.2)

/-- `main` calls `scan_start` while `outstanding` flash operations are going on. -/
def Scanner.init (outstanding : ℕ) : Scanner :=
  ⟨⟨false, ⟨0, 0, 0, 0, none, 0⟩, outstanding⟩, scanStartStmts⟩

/-- The firmware as a machine. -/
def scanner (outstanding : ℕ) : Machine Scanner ScanInput ScanObs :=
  ⟨Scanner.init outstanding, Scanner.step⟩

/-! ### `scan_start` on its own -/

/-- Up to `fuel` statements with nothing in between, and what is to be seen. -/
def aloneScan : ℕ → ScanGlobals × List ScanStmt × List ScanObs →
    ScanGlobals × List ScanStmt × List ScanObs
  | fuel + 1, (g, stmt :: rest, o) =>
    let x := stmt.exec g rest
    aloneScan fuel (x.1, x.2.1, o ++ x.2.2)
  | _, x => x

/-- **The function and its statements.** -/
theorem alone_scanStart (g : ScanGlobals) :
    aloneScan 9 (g, scanStartStmts, []) = ((scanStart g).1, [], (scanStart g).2) := by
  by_cases h : g.outstanding = 0
  · simp [aloneScan, scanStartStmts, scanFields, ScanStmt.exec, ScanField.assign, scanStart,
      scanParams, h]
  · simp [aloneScan, scanStartStmts, scanFields, ScanStmt.exec, scanStart, h]

/-! ### The invariant -/

/-- Where `main` is, what the flag says there, and what has been seen so far. -/
inductive Scanner.Inv (s : Scanner) : List ScanObs → Prop
  | querying (hmain : s.main = scanStartStmts) (hflag : s.globals.mMemoryAccessInProgress = false) :
      Inv s []
  | testing {count : ℕ} (hmain : s.main = .ifPending count :: scanStartStmts.tail)
      (hflag : s.globals.mMemoryAccessInProgress = false)
      (hcount : count = 0 → s.globals.outstanding = 0) : Inv s []
  | marking (hmain : s.main = [.setInProgress])
      (hflag : s.globals.mMemoryAccessInProgress = false) : Inv s []
  /-- With the rest of the assignments made, the parameters are those of `scan_start`. -/
  | assigning {fs : List ScanField} (hmain : s.main = fs.map .assign ++ [.scanStart])
      (hflag : s.globals.mMemoryAccessInProgress = false) (hnone : s.globals.outstanding = 0)
      (hparams : fs.foldl ScanField.assign s.globals.mScanParam = scanParams) : Inv s []
  | waiting (hmain : s.main = []) (hflag : s.globals.mMemoryAccessInProgress = true) : Inv s []
  | scanning (hmain : s.main = []) (hflag : s.globals.mMemoryAccessInProgress = false) :
      Inv s [.scanStart scanParams]

/-- `main` has found an access pending, and has not set the flag yet. -/
def Scanner.deciding (s : Scanner) : Bool :=
  match s.main with
  | .ifPending count :: _ => count != 0
  | .setInProgress :: _ => true
  | _ => false

/-- The last flash operation ends while `main` is about to set the flag. -/
def Scanner.Late (s : Scanner) (i : ScanInput) : Prop :=
  s.deciding = true ∧ s.globals.outstanding = 1 ∧ ∃ e, e.flash = true ∧ i = .sysEvt e

/-- Scanning is started, or an event is outstanding that starts it. -/
def Scanner.Going (s : Scanner) (o : List ScanObs) : Prop :=
  (s.main = [] → o ≠ [] ∨ s.globals.mMemoryAccessInProgress = true ∧ 0 < s.globals.outstanding) ∧
    (s.deciding = true → 0 < s.globals.outstanding)

theorem assign_scanFields (p : ScanParams) : scanFields.foldl ScanField.assign p = scanParams := rfl

/-- **What a system event does**: nothing, or an operation ends and `scan_start` runs if it was
    waited for. -/
theorem sysEvtDispatch_cases {e : SysEvt} {g g' : ScanGlobals} {o : List ScanObs}
    (h : sysEvtDispatch e g = some (g', o)) :
    (e.flash = false ∧ g' = g ∧ o = []) ∨
      e.flash = true ∧ 0 < g.outstanding ∧
        ((g.mMemoryAccessInProgress = false ∧ g' = { g with outstanding := g.outstanding - 1 } ∧
            o = []) ∨
          g.mMemoryAccessInProgress = true ∧
            (g', o) = scanStart
              { g with mMemoryAccessInProgress := false, outstanding := g.outstanding - 1 }) := by
  unfold sysEvtDispatch at h
  cases hflash : e.flash with
  | false =>
    simp only [hflash, onSysEvt, Bool.false_eq_true, if_false, Option.some.injEq,
      Prod.mk.injEq] at h
    exact .inl ⟨rfl, h.1.symm, h.2.symm⟩
  | true =>
    simp only [hflash, if_true, onSysEvt] at h
    by_cases hnone : g.outstanding = 0
    · simp only [hnone, if_true, reduceCtorEq] at h
    · rw [if_neg hnone, Option.some.injEq] at h
      refine .inr ⟨rfl, Nat.pos_of_ne_zero hnone, ?_⟩
      cases hflag : g.mMemoryAccessInProgress with
      | false =>
        simp only [hflag, Bool.false_eq_true, if_false, Prod.mk.injEq] at h
        exact .inl ⟨rfl, h.1.symm, h.2.symm⟩
      | true =>
        simp only [hflag, if_true] at h
        exact .inr ⟨rfl, h.symm⟩

/-! ### Steps -/

/-- An event in front of the return of `main`'s call: the flag is not set. -/
theorem Scanner.step_sysEvt {s s' : Scanner} {e : SysEvt} {o : List ScanObs}
    (hs : s.step (.sysEvt e) = some (s', o)) (hflag : s.globals.mMemoryAccessInProgress = false) :
    o = [] ∧ s'.main = s.main ∧ ((e.flash = false ∧ s' = s) ∨
      e.flash = true ∧ 0 < s.globals.outstanding ∧
        s'.globals = { s.globals with outstanding := s.globals.outstanding - 1 }) := by
  obtain ⟨⟨g', o'⟩, hg, heq⟩ := Option.map_eq_some_iff.mp hs
  obtain ⟨rfl, rfl⟩ := Prod.mk.inj heq
  rcases sysEvtDispatch_cases hg with ⟨hflash, rfl, rfl⟩ | ⟨hflash, hpos, ⟨-, rfl, rfl⟩ | ⟨htrue, -⟩⟩
  · exact ⟨rfl, rfl, .inl ⟨hflash, rfl⟩⟩
  · exact ⟨rfl, rfl, .inr ⟨hflash, hpos, rfl⟩⟩
  · rw [hflag] at htrue
    cases htrue

/-- Once `main` has set the flag, its call has returned and nothing has been seen. -/
theorem Scanner.Inv.waits {s : Scanner} {o : List ScanObs} (h : s.Inv o)
    (hflag : s.globals.mMemoryAccessInProgress = true) : s.main = [] ∧ o = [] := by
  cases h with
  | waiting hmain _ => exact ⟨hmain, rfl⟩
  | querying _ hfalse => rw [hflag] at hfalse; cases hfalse
  | testing _ hfalse _ => rw [hflag] at hfalse; cases hfalse
  | marking _ hfalse => rw [hflag] at hfalse; cases hfalse
  | assigning _ hfalse _ _ => rw [hflag] at hfalse; cases hfalse
  | scanning _ hfalse => rw [hflag] at hfalse; cases hfalse

/-- Where `main` takes a step, its call has not returned. -/
theorem Scanner.main_ne_nil {s s' : Scanner} {e : List ScanObs}
    (hs : s.step .main = some (s', e)) : s.main ≠ [] := by
  intro hmain
  simp only [Scanner.step, hmain, reduceCtorEq] at hs

/-- **Step lemma.** -/
theorem Scanner.inv_step {s s' : Scanner} {i : ScanInput} {o e : List ScanObs} (h : s.Inv o)
    (hs : s.step i = some (s', e)) : s'.Inv (o ++ e) := by
  cases i with
  | main =>
    cases h with
    | querying hmain hflag =>
      rw [scanStartStmts] at hmain
      simp only [Scanner.step, hmain, List.cons_append, ScanStmt.exec] at hs
      obtain ⟨rfl, rfl⟩ := Prod.mk.inj (Option.some.inj hs)
      exact .testing rfl hflag id
    | @testing count hmain hflag hcount =>
      simp only [Scanner.step, hmain, ScanStmt.exec] at hs
      obtain ⟨rfl, rfl⟩ := Prod.mk.inj (Option.some.inj hs)
      by_cases hzero : count = 0
      · have hmain' : (if count ≠ 0 then [.setInProgress] else scanStartStmts.tail)
            = scanFields.map ScanStmt.assign ++ [.scanStart] := if_neg (not_not.mpr hzero)
        exact .assigning hmain' hflag (hcount hzero) (assign_scanFields _)
      · exact .marking (if_pos hzero) hflag
    | marking hmain hflag =>
      simp only [Scanner.step, hmain, ScanStmt.exec] at hs
      obtain ⟨rfl, rfl⟩ := Prod.mk.inj (Option.some.inj hs)
      exact .waiting rfl rfl
    | @assigning fs hmain hflag hnone hparams =>
      cases fs with
      | nil =>
        simp only [Scanner.step, hmain, List.map_nil, List.nil_append, ScanStmt.exec] at hs
        obtain ⟨rfl, rfl⟩ := Prod.mk.inj (Option.some.inj hs)
        -- all assignments are made
        rw [List.foldl_nil] at hparams
        rw [hparams]
        exact .scanning rfl hflag
      | cons f fs =>
        simp only [Scanner.step, hmain, List.map_cons, List.cons_append, ScanStmt.exec] at hs
        obtain ⟨rfl, rfl⟩ := Prod.mk.inj (Option.some.inj hs)
        exact .assigning rfl hflag hnone hparams
    | waiting hmain hflag => exact absurd hmain (Scanner.main_ne_nil hs)
    | scanning hmain hflag => exact absurd hmain (Scanner.main_ne_nil hs)
  | sysEvt ev =>
    -- the flag only matters once `main` has set it
    cases hflag' : s.globals.mMemoryAccessInProgress with
    | false =>
      obtain ⟨rfl, hmain', hg⟩ := Scanner.step_sysEvt hs hflag'
      have hkeep : s'.globals.mMemoryAccessInProgress = false ∧
          s'.globals.mScanParam = s.globals.mScanParam ∧
          (s.globals.outstanding = 0 → s'.globals.outstanding = 0) := by
        rcases hg with ⟨-, rfl⟩ | ⟨-, -, hg⟩
        · exact ⟨hflag', rfl, id⟩
        · rw [hg]
          exact ⟨hflag', rfl, fun hzero => by simp [hzero]⟩
      obtain ⟨hflag₁, hparam, hzero⟩ := hkeep
      rw [List.append_nil]
      cases h with
      | querying hmain hflag => exact .querying (hmain'.trans hmain) hflag₁
      | testing hmain hflag hcount =>
        exact .testing (hmain'.trans hmain) hflag₁ fun h => hzero (hcount h)
      | marking hmain hflag => exact .marking (hmain'.trans hmain) hflag₁
      | assigning hmain hflag hnone hparams =>
        exact .assigning (hmain'.trans hmain) hflag₁ (hzero hnone) (by rw [hparam]; exact hparams)
      | waiting hmain hflag =>
        rw [hflag'] at hflag
        cases hflag
      | scanning hmain hflag => exact .scanning (hmain'.trans hmain) hflag₁
    | true =>
      obtain ⟨hmain, rfl⟩ := h.waits hflag'
      obtain ⟨⟨g', o'⟩, hg, heq⟩ := Option.map_eq_some_iff.mp hs
      obtain ⟨rfl, rfl⟩ := Prod.mk.inj heq
      rcases sysEvtDispatch_cases hg with
        ⟨-, rfl, rfl⟩ | ⟨-, -, ⟨hfalse, -, -⟩ | ⟨-, hstart⟩⟩
      · exact .waiting hmain hflag'
      · rw [hflag'] at hfalse
        cases hfalse
      · unfold scanStart at hstart
        split_ifs at hstart
        · obtain ⟨rfl, rfl⟩ := Prod.mk.inj hstart
          exact .waiting hmain rfl
        · obtain ⟨rfl, rfl⟩ := Prod.mk.inj hstart
          exact .scanning hmain rfl

/-! ### What the steps do to `Going` -/

theorem Scanner.going_iff_of_deciding {s : Scanner} (h : s.deciding = true) (o : List ScanObs) :
    s.Going o ↔ 0 < s.globals.outstanding := by
  have hmain : s.main ≠ [] := by
    intro hmain
    rw [Scanner.deciding, hmain] at h
    cases h
  exact ⟨fun hgoing => hgoing.2 h, fun hpos => ⟨fun hnil => absurd hnil hmain, fun _ => hpos⟩⟩

/-- Where `main` neither decides nor has returned, there is nothing to show. -/
theorem Scanner.going_of_not_deciding {s : Scanner} (h : s.deciding = false) (hmain : s.main ≠ [])
    (o : List ScanObs) : s.Going o := by
  refine ⟨fun hnil => absurd hnil hmain, fun hdeciding => ?_⟩
  rw [h] at hdeciding
  cases hdeciding

theorem Scanner.going_iff_of_returned {s : Scanner} (h : s.main = []) (o : List ScanObs) :
    s.Going o ↔
      (o ≠ [] ∨ s.globals.mMemoryAccessInProgress = true ∧ 0 < s.globals.outstanding) := by
  have hdeciding : s.deciding = false := by
    rw [Scanner.deciding, h]
  refine ⟨fun hgoing => hgoing.1 h, fun hgoing => ⟨fun _ => hgoing, fun hdec => ?_⟩⟩
  rw [hdeciding] at hdec
  cases hdec

theorem Scanner.not_late_main (s : Scanner) : ¬ s.Late .main := by
  rintro ⟨-, -, e, -, he⟩
  cases he

theorem Scanner.not_late_of_not_deciding {s : Scanner} (h : s.deciding = false) (i : ScanInput) :
    ¬ s.Late i := by
  rintro ⟨hdeciding, -, -⟩
  rw [h] at hdeciding
  cases hdeciding

/-- A statement of `main` keeps `Going`, and does not restore it. -/
theorem Scanner.going_main {s s' : Scanner} {o e : List ScanObs} (h : s.Inv o)
    (hs : s.step .main = some (s', e)) : s'.Going (o ++ e) ↔ s.Going o := by
  have hne := Scanner.main_ne_nil hs
  cases h with
  | querying hmain hflag =>
    have hdeciding : s.deciding = false := by
      rw [Scanner.deciding, hmain]
      rfl
    have hgoing := Scanner.going_of_not_deciding hdeciding hne []
    rw [scanStartStmts] at hmain
    simp only [Scanner.step, hmain, List.cons_append, ScanStmt.exec] at hs
    obtain ⟨rfl, rfl⟩ := Prod.mk.inj (Option.some.inj hs)
    refine iff_of_true ⟨fun hnil => (by cases hnil), fun hdeciding => ?_⟩ hgoing
    -- what has been read is the number of outstanding operations
    simp only [Scanner.deciding, bne_iff_ne] at hdeciding
    exact Nat.pos_of_ne_zero hdeciding
  | @testing count hmain hflag hcount =>
    by_cases hzero : count = 0
    · have hdeciding : s.deciding = false := by simp [Scanner.deciding, hmain, hzero]
      have hgoing := Scanner.going_of_not_deciding hdeciding hne []
      simp only [Scanner.step, hmain, ScanStmt.exec, hzero, ne_eq, not_true, if_false] at hs
      obtain ⟨rfl, rfl⟩ := Prod.mk.inj (Option.some.inj hs)
      refine iff_of_true (Scanner.going_of_not_deciding rfl ?_ _) hgoing
      simp [scanStartStmts]
    · have hdeciding : s.deciding = true := by simp [Scanner.deciding, hmain, hzero]
      simp only [Scanner.step, hmain, ScanStmt.exec, hzero, ne_eq, not_false_eq_true,
        if_true] at hs
      obtain ⟨rfl, rfl⟩ := Prod.mk.inj (Option.some.inj hs)
      rw [Scanner.going_iff_of_deciding hdeciding, Scanner.going_iff_of_deciding rfl]
  | marking hmain hflag =>
    have hdeciding : s.deciding = true := by simp [Scanner.deciding, hmain]
    simp only [Scanner.step, hmain, ScanStmt.exec] at hs
    obtain ⟨rfl, rfl⟩ := Prod.mk.inj (Option.some.inj hs)
    rw [Scanner.going_iff_of_deciding hdeciding, Scanner.going_iff_of_returned rfl]
    simp
  | @assigning fs hmain hflag hnone hparams =>
    have hdeciding : s.deciding = false := by
      rw [Scanner.deciding, hmain]
      cases fs <;> rfl
    have hgoing := Scanner.going_of_not_deciding hdeciding hne []
    cases fs with
    | nil =>
      simp only [Scanner.step, hmain, List.map_nil, List.nil_append, ScanStmt.exec] at hs
      obtain ⟨rfl, rfl⟩ := Prod.mk.inj (Option.some.inj hs)
      exact iff_of_true ((Scanner.going_iff_of_returned rfl _).mpr (.inl (by simp))) hgoing
    | cons f fs =>
      simp only [Scanner.step, hmain, List.map_cons, List.cons_append, ScanStmt.exec] at hs
      obtain ⟨rfl, rfl⟩ := Prod.mk.inj (Option.some.inj hs)
      refine iff_of_true (Scanner.going_of_not_deciding ?_ (by simp) _) hgoing
      cases fs <;> rfl
  | waiting hmain hflag => exact absurd hmain hne
  | scanning hmain hflag => exact absurd hmain hne

/-- A system event loses `Going` if it is late, and only then. -/
theorem Scanner.going_sysEvt {s s' : Scanner} {ev : SysEvt} {o e : List ScanObs} (h : s.Inv o)
    (hs : s.step (.sysEvt ev) = some (s', e)) :
    s'.Going (o ++ e) ↔ s.Going o ∧ ¬ s.Late (.sysEvt ev) := by
  cases hdeciding : s.deciding with
  | true =>
    -- the flag is not set yet, so the event only counts
    have hflag : s.globals.mMemoryAccessInProgress = false := by
      rw [← Bool.not_eq_true]
      intro htrue
      rw [Scanner.deciding, (h.waits htrue).1] at hdeciding
      cases hdeciding
    obtain ⟨rfl, hmain', hg⟩ := Scanner.step_sysEvt hs hflag
    have hdeciding' : s'.deciding = true := by
      rw [Scanner.deciding, hmain']
      exact hdeciding
    rw [Scanner.going_iff_of_deciding hdeciding, Scanner.going_iff_of_deciding hdeciding']
    rcases hg with ⟨hflash, rfl⟩ | ⟨hflash, hpos, hg⟩
    · refine ⟨fun hpos => ⟨hpos, ?_⟩, fun hpos => hpos.1⟩
      rintro ⟨-, -, ev', hflash', heq⟩
      obtain rfl := ScanInput.sysEvt.inj heq
      rw [hflash] at hflash'
      cases hflash'
    · have hlate : s.Late (.sysEvt ev) ↔ s.globals.outstanding = 1 :=
        ⟨fun h => h.2.1, fun h => ⟨hdeciding, h, ev, hflash, rfl⟩⟩
      rw [hlate, hg]
      simp only
      omega
  | false =>
    have hlate := Scanner.not_late_of_not_deciding hdeciding (.sysEvt ev)
    have hkeep : ∀ {o'}, s.main ≠ [] → s'.main = s.main → s'.Going o' := by
      intro o' hne hmain'
      refine Scanner.going_of_not_deciding ?_ (by rwa [hmain']) o'
      rw [Scanner.deciding, hmain']
      exact hdeciding
    obtain ⟨⟨g', o'⟩, hg, heq⟩ := Option.map_eq_some_iff.mp hs
    obtain ⟨rfl, rfl⟩ := Prod.mk.inj heq
    by_cases hmain : s.main = []
    · refine Iff.trans ?_ (and_iff_left hlate).symm
      rw [Scanner.going_iff_of_returned hmain, Scanner.going_iff_of_returned (s := ⟨g', s.main⟩) hmain]
      rcases sysEvtDispatch_cases hg with
        ⟨-, rfl, rfl⟩ | ⟨-, hpos, ⟨hflag, rfl, rfl⟩ | ⟨hflag, hstart⟩⟩
      · rw [List.append_nil]
      · -- scanning has started before
        simp only [List.append_nil, hflag, Bool.false_eq_true, false_and]
      · refine iff_of_true ?_ (.inr ⟨hflag, hpos⟩)
        unfold scanStart at hstart
        split_ifs at hstart with hmore
        · obtain ⟨rfl, rfl⟩ := Prod.mk.inj hstart
          exact .inr ⟨rfl, Nat.pos_of_ne_zero hmore⟩
        · obtain ⟨rfl, rfl⟩ := Prod.mk.inj hstart
          exact .inl (by simp)
    · exact iff_of_true (hkeep hmain rfl) ⟨Scanner.going_of_not_deciding hdeciding hmain o, hlate⟩

/-! ### Runs -/

/-- **Scanning is not forgotten.**  For any number of outstanding flash operations, over every run
    of `main`'s call of `scan_start` and the system events that preempt its statements: scanning is
    started at most once, with the parameters of `scan_start`; and once the call has returned, it
    has been started, or the flag is set and a flash operation is outstanding, exactly if the last
    operation has not ended between the test of the status and the assignment of the flag. -/
theorem scanning_not_forgotten (outstanding : ℕ) (is : List ScanInput) (s : Scanner)
    (o : List ScanObs) (hrun : (scanner outstanding).run is = some (s, o)) :
    (o = [] ∨ o = [.scanStart scanParams]) ∧
      (s.main = [] →
        ((o ≠ [] ∨ s.globals.mMemoryAccessInProgress = true ∧ 0 < s.globals.outstanding) ↔
          (scanner outstanding).Along (fun s _ i => ¬ s.Late i) is)) := by
  have hinit : (scanner outstanding).init.Inv [] := .querying rfl rfl
  have hinv : s.Inv o := Machine.run_induct (P := fun _ s o => s.Inv o) hinit
    (fun _ _ _ _ _ _ _ h hs => Scanner.inv_step h hs) is s o hrun
  constructor
  · cases hinv with
    | querying hmain hflag => exact .inl rfl
    | testing hmain hflag hcount => exact .inl rfl
    | marking hmain hflag => exact .inl rfl
    | assigning hmain hflag hnone hparams => exact .inl rfl
    | waiting hmain hflag => exact .inl rfl
    | scanning hmain hflag => exact .inr rfl
  · intro hmain
    rw [← Scanner.going_iff_of_returned hmain]
    refine Machine.iff_along (I := Scanner.Going) (J := Scanner.Inv) ?_ hinit
      (fun _ _ _ _ _ h hs => Scanner.inv_step h hs) ?_ is s o hrun
    · exact Scanner.going_of_not_deciding rfl (by simp [scanner, Scanner.init, scanStartStmts]) []
    · intro s o i s' e h hs
      cases i with
      | main => rw [Scanner.going_main h hs, and_iff_left s.not_late_main]
      | sysEvt ev => exact Scanner.going_sysEvt h hs

/-- Two operations are outstanding, one of which ends while `scan_start` is on its way. -/
def twoOperations : List ScanInput :=
  [.main, .sysEvt .flashOperationSuccess, .main, .main, .sysEvt .flashOperationError]

/-- `scanning_not_forgotten` on that run. -/
theorem scanning_not_forgotten_two :
    ∃ s o, (scanner 2).run twoOperations = some (s, o) ∧ s.main = [] ∧
      o = [.scanStart scanParams] ∧
      (scanner 2).Along (fun s _ i => ¬ s.Late i) twoOperations := by
  obtain ⟨s, o, hrun, hmain, hne⟩ : ∃ s o, (scanner 2).run twoOperations = some (s, o) ∧
      s.main = [] ∧ o ≠ [] := (scanner 2).exists_run (by decide +kernel)
  obtain ⟨hsteps, hgoing⟩ := scanning_not_forgotten 2 twoOperations s o hrun
  exact ⟨s, o, hrun, hmain, hsteps.resolve_left hne, (hgoing hmain).mp (.inl hne)⟩

/-- The only flash operation ends behind the status query: the flag is set when nothing is
    outstanding any more, and whatever comes, scanning is not started. -/
theorem scanning_forgotten :
    ∃ s, (scanner 1).run [.main, .sysEvt .flashOperationSuccess, .main, .main] = some (s, []) ∧
      s.main = [] ∧ s.globals.mMemoryAccessInProgress = true ∧ s.globals.outstanding = 0 ∧
      ∀ is s' o', (scanner 1).runFrom (s, []) is = some (s', o') → o' = [] := by
  refine ⟨⟨⟨true, ⟨0, 0, 0, 0, none, 0⟩, 0⟩, []⟩, rfl, rfl, rfl, rfl, fun is s' o' hrun => ?_⟩
  -- none of the events that come ends a flash operation
  induction is with
  | nil => exact (Prod.mk.inj (Option.some.inj hrun)).2.symm
  | cons i is ih =>
    rcases i with _ | ⟨_ | _ | _⟩
    · cases hrun
    · cases hrun
    · cases hrun
    · exact ih hrun

end Gap.Bcp
