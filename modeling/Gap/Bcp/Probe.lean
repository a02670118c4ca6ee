import Mathlib.Data.Finset.Basic

namespace Gap.Bcp

/-!
# The driver is set up and removed

`nrf51822_probe` and `nrf51822_remove`, with the kernel objects they acquire and release.  What is
requested by `devm_` calls is released by the driver core and is left out.

* `KernelObject`, `Objects` — what there is to acquire.
* `ProbeEnv` — what the kernel answers: any of the calls may fail, in any combination.
* `probe`, `remove` — the two functions; `error0` to `error3` are the labels.
* `AllOrNothing`, `FailsEarly` — what is left behind, and when nothing is.
* `probe_all_or_nothing` — the two are equivalent.

`class_create` and `device_create` return an error pointer when they fail, and never the null
pointer that the code tests for: `nrf51822_probe` goes on.
-/

/-! ### Kernel objects -/

/-- The objects. -/
inductive KernelObject
  /-- The array at this address, from `kmalloc`. -/
  | radios (array : ℕ)
  /-- `count` device numbers of a major number, from 0 on. -/
  | region (major count : ℕ)
  | cls (cl : ℕ)
  /-- The `cdev` in element `i` of the array, registered. -/
  | cdev (array i : ℕ)
  /-- A device of a class, in `/dev`. -/
  | node (devno : ℕ)
  deriving DecidableEq

/-- The objects there are. -/
abbrev Objects := Finset KernelObject

/-- The calls of `nrf51822_probe` that may fail, for radio `i`. -/
inductive ProbeStep
  | numRadios
  | kmalloc
  | gpioIsValid (i : ℕ)
  | gpioRequestOne (i : ℕ)
  | requestIrq (i : ℕ)
  | csmux (i : ℕ)
  | allocChrdevRegion
  | classCreate
  | cdevAdd (i : ℕ)
  | deviceCreate (i : ℕ)
  deriving DecidableEq

/-- What the kernel answers: the address of the array, the major number, the class, and the calls
    that fail.  Of these, `class_create` and `device_create` return an error pointer. -/
structure ProbeEnv where
  radios : ℕ
  major : ℕ
  cl : ℕ
  fails : ProbeStep → Bool

/-- `config.cl`; `none` is an error pointer. -/
def ProbeEnv.configCl (env : ProbeEnv) : Option ℕ :=
  if env.fails .classCreate then none else some env.cl

/-- `MKDEV`. -/
def mkdev (major minor : ℕ) : ℕ := (major <<< 20) ||| minor

/-- `class_create`. -/
def classCreate (cl : Option ℕ) (s : Objects) : Objects :=
  match cl with
  | some cl => insert (.cls cl) s
  | none => s

/-- `class_destroy`, which returns at once if it is given an error pointer. -/
def classDestroy (cl : Option ℕ) (s : Objects) : Objects :=
  match cl with
  | some cl => s.erase (.cls cl)
  | none => s

/-- `device_create`: an error if it is given an error pointer for the class. -/
def deviceCreate (env : ProbeEnv) (i : ℕ) (s : Objects) : Objects :=
  if env.configCl.isNone || env.fails (.deviceCreate i) then s
  else insert (.node (mkdev env.major i)) s

/-- `device_destroy`, which looks for the device in the class: it faults if it is given an error
    pointer. -/
def deviceDestroy (cl : Option ℕ) (devno : ℕ) (s : Objects) : Option Objects :=
  cl.map fun _ => s.erase (.node devno)

/-- `unregister_chrdev (major, name)`: the 256 device numbers that `register_chrdev` registers. -/
def unregisterChrdev (major : ℕ) (s : Objects) : Objects := s.erase (.region major 256)

/-! ### `nrf51822_probe` -/

/-- The property `num-radios`, stored in a `u8`. -/
def numRadios (prop : UInt32) : ℕ := prop.toUInt8.toNat

/-- One round of the first loop: what it acquires is managed. -/
def setUpRadio (env : ProbeEnv) (i : ℕ) : Bool :=
  if env.fails (.gpioIsValid i) then false
  else if env.fails (.gpioRequestOne i) then false
  else if env.fails (.requestIrq i) then false
  else !env.fails (.csmux i)

/-- The second loop, for the radios `is`, and whether it gets to its end. -/
def addRadios (env : ProbeEnv) : List ℕ → Objects → Bool × Objects
  | [], s => (true, s)
  | i :: is, s =>
    if env.fails (.cdevAdd i) then (false, s)
    -- whatever `device_create` returns, it is not null
    else addRadios env is (deviceCreate env i (insert (.cdev env.radios i) s))

/-- `error0`. -/
def error0 (s : Objects) : ℤ × Objects := (-1, s)

/-- `error1`. -/
def error1 (env : ProbeEnv) (s : Objects) : ℤ × Objects := error0 (s.erase (.radios env.radios))

/-- `error2`. -/
def error2 (env : ProbeEnv) (n : ℕ) (s : Objects) : ℤ × Objects :=
  error1 env (s.erase (.region env.major n))

/-- `error3`. -/
def error3 (env : ProbeEnv) (n : ℕ) (s : Objects) : ℤ × Objects :=
  error2 env n (classDestroy env.configCl s)

/-- `nrf51822_probe`. -/
def probe (env : ProbeEnv) (prop : UInt32) (s : Objects) : ℤ × Objects :=
  let n := numRadios prop
  if env.fails .numRadios then error0 s
  else if env.fails .kmalloc then error0 s
  else
    let s := insert (.radios env.radios) s
    if !(List.range n).all (setUpRadio env) then error1 env s
    else if env.fails .allocChrdevRegion then error1 env s
    else
      let s := insert (.region env.major n) s
      -- whatever `class_create` returns, it is not null
      let (added, s) := addRadios env (List.range n) (classCreate env.configCl s)
      if added then (0, s) else error3 env n s

/-! ### `nrf51822_remove` -/

/-- One round of its loop. -/
def removeRadio (env : ProbeEnv) (s : Objects) (i : ℕ) : Option Objects :=
  let s := s.erase (.cdev env.radios i)
  let s := unregisterChrdev (mkdev env.major i) s
  deviceDestroy env.configCl (mkdev env.major i) s

/-- `nrf51822_remove`, if it returns. -/
def remove (env : ProbeEnv) (prop : UInt32) (s : Objects) : Option Objects :=
  ((List.range (numRadios prop)).foldlM (removeRadio env) s).map (classDestroy env.configCl)

/-! ### What is left behind -/

/-- The kernel gives out what is not in use. -/
structure Fresh (env : ProbeEnv) (s : Objects) : Prop where
  radios : .radios env.radios ∉ s
  region : ∀ count, .region env.major count ∉ s
  cls : .cls env.cl ∉ s
  cdev : ∀ i, .cdev env.radios i ∉ s
  node : ∀ i, .node (mkdev env.major i) ∉ s

/-- Set-up is all or nothing: what a call that fails leaves, and what a call that succeeds leaves
    for `nrf51822_remove`. -/
structure AllOrNothing (env : ProbeEnv) (prop : UInt32) (s : Objects) : Prop where
  error : (probe env prop s).1 = -1 →
    (probe env prop s).2 = s ∧ ∀ i, .cdev env.radios i ∉ (probe env prop s).2
  removed : (probe env prop s).1 = 0 → remove env prop (probe env prop s).2 = some s

/-- A call fails, and the code sees it, before a `cdev` has been registered. -/
def FailsEarly (env : ProbeEnv) (prop : UInt32) : Prop :=
  env.fails .numRadios = true ∨ env.fails .kmalloc = true ∨
    (∃ i < numRadios prop, setUpRadio env i = false) ∨
    env.fails .allocChrdevRegion = true ∨ (0 < numRadios prop ∧ env.fails (.cdevAdd 0) = true)

variable {env : ProbeEnv} {prop : UInt32} {s : Objects}

/-- `device_create` releases nothing. -/
theorem mem_deviceCreate {x : KernelObject} (i : ℕ) (h : x ∈ s) : x ∈ deviceCreate env i s := by
  rw [deviceCreate]
  split_ifs
  · exact h
  · exact Finset.mem_insert_of_mem h

/-- Nor does the second loop. -/
theorem mem_addRadios {x : KernelObject} (is : List ℕ) {s : Objects} (h : x ∈ s) :
    x ∈ (addRadios env is s).2 := by
  induction is generalizing s with
  | nil => exact h
  | cons i is ih =>
    rw [addRadios]
    split_ifs
    · exact h
    · exact ih (mem_deviceCreate i (Finset.mem_insert_of_mem h))

/-- With its first `cdev` registered, it stays so. -/
theorem cdev_mem_addRadios {i : ℕ} (is : List ℕ) (h : env.fails (.cdevAdd i) = false) :
    .cdev env.radios i ∈ (addRadios env (i :: is) s).2 := by
  rw [addRadios, h, if_neg (by simp)]
  exact mem_addRadios is (mem_deviceCreate i (Finset.mem_insert_self _ _))

/-- `class_destroy` releases the class only. -/
theorem mem_classDestroy {x : KernelObject} (cl : Option ℕ) (hx : ∀ c, x ≠ .cls c) :
    x ∈ classDestroy cl s ↔ x ∈ s := by
  cases cl with
  | none => exact Iff.rfl
  | some c => rw [classDestroy, Finset.mem_erase, and_iff_right (hx c)]

/-- One round of the removal does not release the region: `unregister_chrdev` is for 256 numbers,
    and there are fewer radios. -/
theorem region_mem_removeRadio {s' : Objects} {i major : ℕ}
    (h : .region major (numRadios prop) ∈ s) (hs : removeRadio env s i = some s') :
    .region major (numRadios prop) ∈ s' := by
  have hlt : numRadios prop < 256 := UInt8.toNat_lt _
  obtain ⟨-, -, rfl⟩ := Option.map_eq_some_iff.mp hs
  simp only [unregisterChrdev, Finset.mem_erase, ne_eq, reduceCtorEq, not_false_eq_true,
    KernelObject.region.injEq, not_and, true_and]
  exact ⟨fun _ hcount => by omega, h⟩

/-- The region is not released by `nrf51822_remove`. -/
theorem region_mem_remove {s' : Objects} {major : ℕ} (h : .region major (numRadios prop) ∈ s)
    (hs : remove env prop s = some s') : .region major (numRadios prop) ∈ s' := by
  obtain ⟨t, ht, rfl⟩ := Option.map_eq_some_iff.mp hs
  rw [mem_classDestroy _ fun c hc => by cases hc]
  suffices hloop : ∀ (is : List ℕ) (u : Objects), .region major (numRadios prop) ∈ u →
      is.foldlM (removeRadio env) u = some t → .region major (numRadios prop) ∈ t from
    hloop _ s h ht
  intro is
  induction is with
  | nil =>
    intro u hu hfold
    obtain rfl := Option.some.inj hfold
    exact hu
  | cons i is ih =>
    intro u hu hfold
    rw [List.foldlM_cons] at hfold
    obtain ⟨v, hv, hrest⟩ := Option.bind_eq_some_iff.mp hfold
    exact ih v (region_mem_removeRadio hu hv) hrest

/-! ### The error labels -/

theorem error1_insert (h : .radios env.radios ∉ s) :
    error1 env (insert (.radios env.radios) s) = (-1, s) := by
  rw [error1, Finset.erase_insert h, error0]

theorem error2_insert (h : Fresh env s) (n : ℕ) :
    error2 env n (insert (.region env.major n) (insert (.radios env.radios) s)) = (-1, s) := by
  have hregion : .region env.major n ∉ insert (KernelObject.radios env.radios) s := by
    simp [h.region n]
  rw [error2, Finset.erase_insert hregion, error1_insert h.radios]

theorem error3_insert (h : Fresh env s) (n : ℕ) :
    error3 env n (classCreate env.configCl
      (insert (.region env.major n) (insert (.radios env.radios) s))) = (-1, s) := by
  have hcls : .cls env.cl ∉
      insert (KernelObject.region env.major n) (insert (.radios env.radios) s) := by
    simp [h.cls]
  rw [error3, ProbeEnv.configCl]
  split_ifs
  · exact error2_insert h n
  · rw [classCreate, classDestroy, Finset.erase_insert hcls, error2_insert h]

/-! ### When it is all or nothing -/

theorem setUpRadios_iff {n : ℕ} :
    (List.range n).all (setUpRadio env) = true ↔ ¬ ∃ i < n, setUpRadio env i = false := by
  rw [List.all_eq_true]
  constructor
  · rintro h ⟨i, hi, hfalse⟩
    rw [h i (List.mem_range.mpr hi)] at hfalse
    cases hfalse
  · intro h i hi
    rw [← Bool.not_eq_false]
    exact fun hfalse => h ⟨i, List.mem_range.mp hi, hfalse⟩

/-- **A call that fails early** leaves what was there. -/
theorem probe_of_failsEarly (h : FailsEarly env prop) (hfresh : Fresh env s) :
    probe env prop s = (-1, s) := by
  unfold probe
  by_cases hnum : env.fails .numRadios = true
  · rw [if_pos hnum, error0]
  rw [if_neg hnum]
  by_cases hkmalloc : env.fails .kmalloc = true
  · rw [if_pos hkmalloc, error0]
  rw [if_neg hkmalloc]
  by_cases hradios : (List.range (numRadios prop)).all (setUpRadio env) = true
  · rw [hradios]
    simp only [Bool.not_true, Bool.false_eq_true, if_false]
    by_cases hregion : env.fails .allocChrdevRegion = true
    · rw [if_pos hregion, error1_insert hfresh.radios]
    rw [if_neg hregion]
    -- only the first `cdev_add` is left to fail
    obtain ⟨hpos, hcdev⟩ : 0 < numRadios prop ∧ env.fails (.cdevAdd 0) = true := by
      rcases h with h | h | h | h | h
      · exact absurd h hnum
      · exact absurd h hkmalloc
      · exact absurd h (setUpRadios_iff.mp hradios)
      · exact absurd h hregion
      · exact h
    obtain ⟨n, hn⟩ := Nat.exists_eq_succ_of_ne_zero hpos.ne'
    have hrange : List.range (numRadios prop) = 0 :: (List.range n).map Nat.succ := by
      rw [hn, List.range_succ_eq_map]
    rw [hrange, addRadios, if_pos hcdev]
    simp only [Bool.false_eq_true, if_false]
    exact error3_insert hfresh _
  · rw [Bool.not_eq_true] at hradios
    rw [hradios]
    simp only [Bool.not_false, if_true]
    exact error1_insert hfresh.radios

/-- **Any other call** has got to the second loop, and leaves the region or a `cdev`. -/
theorem probe_of_not_failsEarly (h : ¬ FailsEarly env prop) :
    (∃ s', probe env prop s = (0, s') ∧ .region env.major (numRadios prop) ∈ s') ∨
      ∃ s', probe env prop s = (-1, s') ∧ .cdev env.radios 0 ∈ s' := by
  simp only [FailsEarly, not_or, Bool.not_eq_true, not_and] at h
  obtain ⟨hnum, hkmalloc, hradios, hregion, hcdev⟩ := h
  have hall := setUpRadios_iff.mpr hradios
  unfold probe
  simp only [hnum, hkmalloc, hall, hregion, Bool.not_true, Bool.false_eq_true, if_false]
  generalize hs : classCreate env.configCl
    (insert (.region env.major (numRadios prop)) (insert (.radios env.radios) s)) = s₀
  have hmem₀ : .region env.major (numRadios prop) ∈ s₀ := by
    rw [← hs]
    cases env.configCl <;> simp [classCreate]
  cases hadded : (addRadios env (List.range (numRadios prop)) s₀).1 with
  | true =>
    simp only [if_true]
    exact .inl ⟨_, rfl, mem_addRadios _ hmem₀⟩
  | false =>
    simp only [Bool.false_eq_true, if_false]
    refine .inr ⟨_, rfl, ?_⟩
    -- the loop has been entered, and has registered a `cdev`
    cases hn : numRadios prop with
    | zero =>
      rw [hn] at hadded
      cases hadded
    | succ n =>
      have hmem := cdev_mem_addRadios (s := s₀) ((List.range n).map Nat.succ)
        (hcdev (by rw [hn]; exact Nat.succ_pos n))
      rw [← List.range_succ_eq_map] at hmem
      simp only [Finset.mem_erase]
      refine ⟨by simp, by simp, ?_⟩
      rw [mem_classDestroy _ fun c hc => by cases hc]
      exact hmem

/-- **Set-up and removal.**  For any number of radios, whichever calls fail, and whatever objects
    there are: a call of `nrf51822_probe` that fails leaves what was there and no `cdev` of the array
    it has freed, and a call that succeeds leaves it once `nrf51822_remove` is done, exactly if a
    call is seen to fail before a `cdev` has been registered.  In particular it never is after success. -/
theorem probe_all_or_nothing (env : ProbeEnv) (prop : UInt32) (s : Objects) (hfresh : Fresh env s) :
    AllOrNothing env prop s ↔ FailsEarly env prop := by
  constructor
  · intro h
    by_contra hlate
    rcases probe_of_not_failsEarly (s := s) hlate with ⟨s', hprobe, hmem⟩ | ⟨s', hprobe, hmem⟩
    · have hremoved := h.removed (by rw [hprobe])
      rw [hprobe] at hremoved
      exact hfresh.region _ (region_mem_remove hmem hremoved)
    · have herror := (h.error (by rw [hprobe])).2 0
      rw [hprobe] at herror
      exact herror hmem
  · intro h
    have hprobe := probe_of_failsEarly h hfresh
    refine ⟨fun _ => ?_, fun hzero => ?_⟩
    · rw [hprobe]
      exact ⟨rfl, hfresh.cdev⟩
    · rw [hprobe] at hzero
      cases hzero

/-- Everything works but for these calls. -/
def failing (steps : List ProbeStep) : ProbeEnv := ⟨0, 240, 0, fun step => steps.contains step⟩

theorem fresh_empty (env : ProbeEnv) : Fresh env ∅ := by
  refine ⟨?_, fun _ => ?_, ?_, fun _ => ?_, fun _ => ?_⟩ <;> exact Finset.notMem_empty _

/-- `probe_all_or_nothing` where the first `cdev` cannot be registered. -/
theorem probe_all_or_nothing_cdevAdd : AllOrNothing (failing [.cdevAdd 0]) 2 ∅ :=
  (probe_all_or_nothing (failing [.cdevAdd 0]) 2 ∅ (fresh_empty _)).mpr
    (.inr (.inr (.inr (.inr ⟨by decide, by decide⟩))))

/-- The `cdev` of the second radio cannot be registered: that of the first stays registered, in an
    array that is freed, and its device stays.  Where nothing fails, the array and the device numbers
    are still there after the removal.  And where there is no class, the call succeeds. -/
theorem probe_leaves_cdevs :
    probe (failing [.cdevAdd 1]) 2 ∅ = (-1, {.cdev 0 0, .node (mkdev 240 0)}) ∧
      ¬ AllOrNothing (failing [.cdevAdd 1]) 2 ∅ ∧
      (probe (failing []) 2 ∅).1 = 0 ∧
      remove (failing []) 2 (probe (failing []) 2 ∅).2 = some {.radios 0, .region 240 2} ∧
      ¬ AllOrNothing (failing []) 2 ∅ ∧
      probe (failing [.classCreate]) 2 ∅
        = (0, {.radios 0, .region 240 2, .cdev 0 0, .cdev 0 1}) := by
  have hprobe : probe (failing [.cdevAdd 1]) 2 ∅ = (-1, {.cdev 0 0, .node (mkdev 240 0)}) := by
    decide
  have hremove : remove (failing []) 2 (probe (failing []) 2 ∅).2
      = some {.radios 0, .region 240 2} := by
    decide
  refine ⟨hprobe, fun h => ?_, by decide, hremove, fun h => ?_, by decide⟩
  · have hcdev := (h.error (by rw [hprobe])).2 0
    rw [hprobe] at hcdev
    exact hcdev (by decide)
  · have hnothing := h.removed (by decide)
    rw [hremove] at hnothing
    exact absurd hnothing (by decide)

end Gap.Bcp
