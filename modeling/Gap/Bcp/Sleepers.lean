import Gap.Bcp.Preempted
import Gap.Lib.WaitQueue

namespace Gap.Bcp

open Claim

/-!
# The readers' wait queue

In `weave` a read blocks until there is a frame.  Here it waits the way it does: in the loop of
`wait_event_interruptible` on `to_user_queue`, where `nrf51822_poll` puts its callers too.  The
`wake_up` of a callback comes two statements after its frame is stored, and whatever other threads
do meanwhile.

* `nrf51822Poll`, `Waiter` — the calls that wait, and what each waits for.
* `toUserQueue` — the woven system with its wait queue.
* `no_sleeper_left_behind` — a call that could go on and sleeps is about to be woken.
* `sleepers_come_to_rest` — no livelock and no deadlock, the readers included.
-/

/-! ### Calls that wait -/

/-- `POLLIN`. -/
def pollIn : ℕ := 0x001

/-- `POLLOUT`. -/
def pollOut : ℕ := 0x004

/-- `POLLRDNORM`. -/
def pollRdNorm : ℕ := 0x040

/-- `POLLWRNORM`. -/
def pollWrNorm : ℕ := 0x100

/-- `nrf51822_poll` after `poll_wait`: always writable, and readable when there is a frame. -/
def nrf51822Poll (dev : Driver) : ℕ :=
  let mask := 0 ||| (pollOut ||| pollWrNorm)
  if 0 < dev.bufToUserLen then mask ||| (pollIn ||| pollRdNorm) else mask

/-- A call of `read`, or one of `poll` for some `events`. -/
inductive Waiter
  | read
  | poll (events : ℕ)
  deriving DecidableEq

/-- What the call waits for. -/
def Waiter.cond (k : Waiter) (s : Weave) : Bool :=
  match k with
  | .read => decide (0 < s.drv.radio.dev.bufToUserLen)
  | .poll events => nrf51822Poll s.drv.radio.dev &&& events != 0

/-- The step is the `wake_up` of a callback. -/
def Weave.wakesReaders (s : Weave) : WeaveInput → Bool
  | .resume k _ _ =>
    match s.drv.threads[k]? with
    | some (.wakeUp :: _) => true
    | _ => false
  | _ => false

/-- The woven system with `to_user_queue`.  A read that stops waiting goes on to copy, whether a
    frame or a signal has ended its wait. -/
def toUserQueue : WaitQueue Weave WeaveInput WeaveObs Waiter where
  machine := weave
  cond := Waiter.cond
  testsFirst
    | .read => true
    | .poll _ => false
  wakes := Weave.wakesReaders
  goOn
    | .read, signal, s => [.read, .resume s.drv.threads.length signal true]
    | .poll _, _, _ => []

/-! ### Wake-ups that are due -/

/-- The thread has stored a frame and is about to wake the readers. -/
def waking : List Stmt → Bool
  | .clearPending :: .wakeUp :: _ => true
  | .wakeUp :: _ => true
  | _ => false

/-- Some thread is about to wake the readers. -/
def Weave.WakeDue (s : Weave) : Prop := ∃ t ∈ s.drv.threads, waking t = true

section
variable {s s' : Weave}

/-- With fewer frames there are fewer events. -/
theorem Waiter.cond_of_le (k : Waiter)
    (hlen : s'.drv.radio.dev.bufToUserLen = s.drv.radio.dev.bufToUserLen ∨
      s'.drv.radio.dev.bufToUserLen = 0)
    (hcond : k.cond s' = true) : k.cond s = true := by
  cases k with
  | read =>
    simp only [Waiter.cond, decide_eq_true_eq] at hcond ⊢
    omega
  | poll events =>
    simp only [Waiter.cond, nrf51822Poll, bne_iff_ne] at hcond ⊢
    rcases hlen with hlen | hlen
    · rwa [hlen] at hcond
    · rw [hlen, if_neg (Nat.lt_irrefl 0)] at hcond
      split
      · rw [Nat.and_or_distrib_right, Ne, Nat.or_eq_zero_iff]
        exact fun h => hcond h.1
      · exact hcond

/-- A step that loses no wake-up, and stores no frame without one. -/
theorem keeps_of (hdue : s.WakeDue → s'.WakeDue)
    (hlen : (s'.drv.radio.dev.bufToUserLen = s.drv.radio.dev.bufToUserLen ∨
      s'.drv.radio.dev.bufToUserLen = 0) ∨ s'.WakeDue) :
    toUserQueue.Keeps Weave.WakeDue s s' := by
  intro k h hcond
  rcases hlen with hlen | hlen
  · exact hdue (h (k.cond_of_le hlen hcond))
  · exact hlen

/-- More threads have no fewer wake-ups to make. -/
theorem Weave.WakeDue.append (h : s.WakeDue) {ts : List (List Stmt)}
    (hthreads : s'.drv.threads = s.drv.threads ++ ts) : s'.WakeDue := by
  obtain ⟨t, ht, hwaking⟩ := h
  refine ⟨t, ?_, hwaking⟩
  rw [hthreads]
  exact List.mem_append_left _ ht

/-- The length of the frame is stored, or reset, or as it was. -/
theorem len_of_exec {env : Env} {r : Radio} {stmt : Stmt} {rest : List Stmt}
    {x : Radio × List Stmt × List RadioObs} (hx : stmt.exec env rest r = some x) :
    (∃ n b frame, stmt = .storeLen n b frame ∧ x.2.1 = rest) ∨
      x.1.dev.bufToUserLen = r.dev.bufToUserLen ∨ x.1.dev.bufToUserLen = 0 := by
  cases stmt with
  | storeLen n b frame =>
    obtain rfl := Option.some.inj hx
    exact .inl ⟨n, b, frame, rfl, rfl⟩
  | resetLen buf userLen =>
    obtain rfl := Option.some.inj hx
    exact .inr (.inr rfl)
  | setUp w =>
    obtain rfl := Option.some.inj hx
    right; left
    cases w <;> rfl
  | waitEvent =>
    obtain ⟨-, hx⟩ := Option.ite_none_right_eq_some.mp hx
    obtain rfl := Option.some.inj hx
    exact .inr (.inl rfl)
  | claim =>
    simp only [Stmt.exec] at hx
    split at hx <;> obtain rfl := Option.some.inj hx <;> exact .inr (.inl rfl)
  | async =>
    simp only [Stmt.exec] at hx
    split at hx <;> obtain rfl := Option.some.inj hx <;> exact .inr (.inl rfl)
  | copyOut =>
    simp only [Stmt.exec] at hx
    split at hx <;> obtain rfl := Option.some.inj hx <;> exact .inr (.inl rfl)
  | _ =>
    obtain rfl := Option.some.inj hx
    exact .inr (.inl rfl)

/-- A wake-up is made next, or after the claim is given up. -/
theorem waking_cases {stmt : Stmt} {rest : List Stmt} (h : waking (stmt :: rest) = true) :
    stmt = .wakeUp ∨ (stmt = .clearPending ∧ waking rest = true) := by
  unfold waking at h
  split at h
  · next heq =>
    obtain ⟨rfl, rfl⟩ := List.cons.inj heq
    exact .inr ⟨rfl, rfl⟩
  · next heq => exact .inl (List.cons.inj heq).1
  · cases h

/-- A callback that stores a frame is about to wake the readers. -/
theorem waking_of_storeLen {r : Radio} {n : ℕ} {b : UInt8} {frame : List UInt8} {rest : List Stmt}
    (h : Thread r (.storeLen n b frame :: rest)) : waking rest = true := by
  generalize ht : Stmt.storeLen n b frame :: rest = t at h
  cases h with
  | storeLen n' b' frame' hframe =>
    obtain rfl := (List.cons.inj ht).2
    rfl
  | preparing ws => cases ws <;> cases ht
  | _ => cases ht

/-- **Step lemma.**  A step is a `wake_up`, or loses none that is due; only a store makes a frame,
    and its thread is then about to wake the readers. -/
theorem keeps_step {o : List RadioObs} (h : Sound s.drv o) {i : WeaveInput} {e : List WeaveObs}
    (hs : s.step i = some (s', e)) (hwakes : s.wakesReaders i = false) :
    toUserQueue.Keeps Weave.WakeDue s s' := by
  cases i with
  | advertisement ev =>
    obtain ⟨rfl, -⟩ := Prod.mk.inj (Option.some.inj hs)
    exact keeps_of id (.inl (.inl rfl))
  | firmwareXferDone =>
    obtain ⟨-, hs⟩ := Option.ite_none_left_eq_some.mp hs
    obtain ⟨rfl, -⟩ := Prod.mk.inj (Option.some.inj hs)
    exact keeps_of id (.inl (.inl rfl))
  | interrupt =>
    obtain ⟨-, hs⟩ := Option.ite_none_right_eq_some.mp hs
    obtain ⟨rfl, -⟩ := Prod.mk.inj (Option.some.inj hs)
    exact keeps_of (.append · rfl) (.inl (.inl rfl))
  | ioctl command =>
    obtain ⟨rfl, -⟩ := Prod.mk.inj (Option.some.inj hs)
    exact keeps_of (.append · rfl) (.inl (.inl rfl))
  | read =>
    obtain ⟨rfl, -⟩ := Prod.mk.inj (Option.some.inj hs)
    exact keeps_of (.append · rfl) (.inl (.inl rfl))
  | clocks miso =>
    simp only [Weave.step] at hs
    split at hs
    · cases hs
    · obtain ⟨-, hs⟩ := Option.ite_none_right_eq_some.mp hs
      obtain ⟨x, hx, heq⟩ := Option.map_eq_some_iff.mp hs
      obtain ⟨rfl, -⟩ := Prod.mk.inj heq
      obtain ⟨-, hx⟩ := Option.ite_none_left_eq_some.mp hx
      obtain rfl := Option.some.inj hx
      exact keeps_of id (.inl (.inl rfl))
  | transferEnds miso =>
    simp only [Weave.step] at hs
    split at hs
    · cases hs
    · next m ms hout =>
      obtain ⟨-, hs⟩ := Option.ite_none_right_eq_some.mp hs
      obtain ⟨x, hx, heq⟩ := Option.map_eq_some_iff.mp hs
      obtain ⟨rfl, -⟩ := Prod.mk.inj heq
      simp only [Running.step, hout, List.getElem?_cons_zero, Option.some.injEq] at hx
      obtain rfl := hx
      exact keeps_of (.append · rfl) (.inl (.inl rfl))
  | resume k signal copied =>
    obtain ⟨x, hx, heq⟩ := Option.map_eq_some_iff.mp hs
    obtain ⟨rfl, -⟩ := Prod.mk.inj heq
    simp only [Running.step] at hx
    split at hx
    · next stmt rest hk =>
      obtain ⟨y, hy, rfl⟩ := Option.map_eq_some_iff.mp hx
      obtain ⟨pre, post, hthreads, hset, -⟩ := split_of_getElem? hk
      have hthread : Thread s.drv.radio (stmt :: rest) := h.threads _ (by simp [hthreads])
      have hself (hwaking : waking y.2.1 = true) :
          ∃ t ∈ s.drv.threads.set k y.2.1, waking t = true :=
        ⟨y.2.1, by simp [hset], hwaking⟩
      refine keeps_of ?_ ?_
      · rintro ⟨t, ht, hwaking⟩
        rw [hthreads, List.mem_append, List.mem_cons] at ht
        rcases ht with ht | rfl | ht
        · exact ⟨t, by simp [hset, ht], hwaking⟩
        · -- the thread's own wake-up is not the statement it makes
          obtain rfl | ⟨rfl, hrest⟩ := waking_cases hwaking
          · simp [Weave.wakesReaders, hk] at hwakes
          · obtain rfl := Option.some.inj hy
            exact hself hrest
        · exact ⟨t, by simp [hset, ht], hwaking⟩
      · rcases len_of_exec hy with ⟨n, b, frame, rfl, hrest⟩ | hlen
        · right
          apply hself
          rw [hrest]
          exact waking_of_storeLen hthread
        · exact .inl hlen
    · cases hx

/-- The wait of the last thread. -/
theorem resume_wait {ts : List (List Stmt)} (hthreads : s.drv.threads = ts ++ [Bcp.read])
    (signal copied : Bool) :
    weave.step s (.resume ts.length signal copied)
      = if 0 < s.drv.radio.dev.bufToUserLen ∨ signal = true then
          some ({ s with drv.threads := ts ++ [[.copyOut]] }, [])
        else none := by
  have hk : s.drv.threads[ts.length]? = some [.waitEvent, .copyOut] := by
    rw [hthreads]
    simp [Bcp.read]
  have hset : s.drv.threads.set ts.length [.copyOut] = ts ++ [[.copyOut]] := by
    rw [hthreads]
    simp
  show Option.map _ (Running.step s.drv (.resume ts.length _)) = _
  simp only [Running.step, hk, Stmt.exec]
  split
  · simp only [Option.map_some, hset, List.map_nil]
  · rfl

/-- What the woven system does for a read that stops waiting. -/
theorem goOn_read (signal : Bool) (s : Weave) :
    weave.runFrom (s, []) (toUserQueue.goOn .read signal s)
      = if 0 < s.drv.radio.dev.bufToUserLen ∨ signal = true then
          some ({ s with drv.threads := s.drv.threads ++ [[.copyOut]] }, [])
        else none := by
  have hread : weave.step s .read
      = some ({ s with drv.threads := s.drv.threads ++ [Bcp.read] }, []) := rfl
  show weave.runFrom (s, []) [.read, .resume s.drv.threads.length signal true] = _
  simp only [Machine.runFrom, hread, Option.bind_some]
  rw [resume_wait rfl]
  split <;> rfl

/-- A call that stops waiting changes nothing but for the thread it goes on as. -/
theorem goOn_cases {k : Waiter} {signal : Bool} {e : List WeaveObs}
    (hs : weave.runFrom (s, []) (toUserQueue.goOn k signal s) = some (s', e)) :
    e = [] ∧ (s' = s ∨ s' = { s with drv.threads := s.drv.threads ++ [[.copyOut]] }) := by
  cases k with
  | poll events =>
    obtain ⟨rfl, rfl⟩ := Prod.mk.inj (Option.some.inj hs)
    exact ⟨rfl, .inl rfl⟩
  | read =>
    rw [goOn_read] at hs
    obtain ⟨-, hs⟩ := Option.ite_none_right_eq_some.mp hs
    obtain ⟨rfl, rfl⟩ := Prod.mk.inj (Option.some.inj hs)
    exact ⟨rfl, .inr rfl⟩

/-- What a call has waited for lets it go on. -/
theorem exists_goOn {k : Waiter} (hcond : k.cond s = true) :
    ∃ r, weave.runFrom (s, []) (toUserQueue.goOn k false s) = some r := by
  cases k with
  | poll events => exact ⟨_, rfl⟩
  | read =>
    rw [goOn_read, if_pos (.inl (of_decide_eq_true hcond))]
    exact ⟨_, rfl⟩

/-- Going on loses no wake-up. -/
theorem keeps_goOn {k : Waiter} {signal : Bool} {e : List WeaveObs}
    (hs : weave.runFrom (s, []) (toUserQueue.goOn k signal s) = some (s', e)) :
    toUserQueue.Keeps Weave.WakeDue s s' := by
  obtain ⟨-, rfl | rfl⟩ := goOn_cases hs
  · exact keeps_of id (.inl (.inl rfl))
  · exact keeps_of (.append · rfl) (.inl (.inl rfl))

end

/-! ### No lost wake-up -/

/-- The threads of a run are sound. -/
theorem sound_of_weave_run (is : List WeaveInput) (s : Weave) (o : List WeaveObs)
    (hrun : weave.run is = some (s, o)) : Sound s.drv (driverIn o) := by
  obtain ⟨js, l, ol, -, h⟩ := woven_of_any_run is s o hrun
  exact h.sound

/-- Without the readers, a run is one of the woven system. -/
theorem weave_of_waiting_run (is : List (WaitInput WeaveInput Waiter)) (w : Waiting Weave Waiter)
    (o : List WeaveObs) (hrun : toUserQueue.waiting.run is = some (w, o)) :
    ∃ js, weave.run js = some (w.state, o) := by
  obtain ⟨js, -, hjs⟩ := toUserQueue.run_state (C := fun _ => True) (fun _ _ _ _ _ => trivial) is w
    o (fun i _ => by cases i <;> trivial) hrun
  exact ⟨js, hjs⟩

/-- **Run lemma.** -/
theorem attended_of_run (is : List (WaitInput WeaveInput Waiter)) (w : Waiting Weave Waiter)
    (o : List WeaveObs) (hrun : toUserQueue.waiting.run is = some (w, o)) :
    toUserQueue.Attended Weave.WakeDue w := by
  refine Machine.run_induct (P := fun _ w _ => toUserQueue.Attended Weave.WakeDue w)
    (fun k hk => by cases hk) ?_ is w o hrun
  intro is i w o w' e hrun h hs
  obtain ⟨js, hjs⟩ := weave_of_waiting_run is w o hrun
  have hsound := sound_of_weave_run js w.state o hjs
  exact WaitQueue.attended_step h (fun _ _ _ _ hj hwakes => keeps_step hsound hj hwakes)
    (fun _ _ _ _ hgo => keeps_goOn hgo) hs

/-- **No sleeper left behind.**  However any number of reads and polls enter the wait queue, test
    and go to sleep in between the statements of the driver's threads: without the readers a run is
    one of the woven system; and a call that is asleep, and has not been woken since it entered the
    queue, although what it waits for is there, is about to be woken: some callback has nothing left
    to do before its `wake_up` but to give up the SPI buffer. -/
theorem no_sleeper_left_behind (is : List (WaitInput WeaveInput Waiter)) (w : Waiting Weave Waiter)
    (o : List WeaveObs) (hrun : toUserQueue.waiting.run is = some (w, o)) :
    (∃ js, weave.run js = some (w.state, o)) ∧
    ∀ k, (k, Phase.asleep false) ∈ w.tasks → k.cond w.state = true →
      ∃ t ∈ w.state.drv.threads,
        t = [.clearPending, .wakeUp, .checkIrq] ∨ t = [.wakeUp, .checkIrq] := by
  obtain ⟨js, hjs⟩ := weave_of_waiting_run is w o hrun
  refine ⟨⟨js, hjs⟩, fun k hk hcond => ?_⟩
  obtain ⟨t, ht, hwaking⟩ := attended_of_run is w o hrun k hk hcond
  refine ⟨t, ht, ?_⟩
  -- of the paths, these are the two that come to a `wake_up` so
  have hthread := (sound_of_weave_run js w.state o hjs).threads t ht
  cases hthread with
  | stored => exact .inl rfl
  | waking => exact .inr rfl
  | preparing ws => cases ws <;> cases hwaking
  | _ => cases hwaking

/-- A read has gone to sleep; then the run of `statements_refine`, which ends with a frame
    stored. -/
def sleptTurns : List (WaitInput WeaveInput Waiter) :=
  [.call .read, .turn 0 false, .turn 0 false, .turn 0 false] ++ turns.map .step

/-- `no_sleeper_left_behind` on that run: the read sleeps, and its callback is about to wake it. -/
theorem no_sleeper_left_behind_slept :
    ∃ w o, toUserQueue.waiting.run sleptTurns = some (w, o) ∧
      (Waiter.read, Phase.asleep false) ∈ w.tasks ∧ Waiter.read.cond w.state = true ∧
      ∃ t ∈ w.state.drv.threads,
        t = [.clearPending, .wakeUp, .checkIrq] ∨ t = [.wakeUp, .checkIrq] := by
  obtain ⟨w, o, hrun, hasleep, hcond⟩ : ∃ w o, toUserQueue.waiting.run sleptTurns = some (w, o) ∧
      (Waiter.read, Phase.asleep false) ∈ w.tasks ∧ Waiter.read.cond w.state = true :=
    toUserQueue.waiting.exists_run (P := fun w _ => (Waiter.read, Phase.asleep false) ∈ w.tasks ∧
      Waiter.read.cond w.state = true) (by decide +kernel)
  exact ⟨w, o, hrun, hasleep, hcond, (no_sleeper_left_behind sleptTurns w o hrun).2 _ hasleep hcond⟩

/-! ### Rest -/

/-- The woven system is at rest, and every call sleeps, with nothing there that it waits for. -/
structure AllAtRest (w : Waiting Weave Waiter) : Prop where
  woven : w.state.AtRest
  asleep : ∀ t ∈ w.tasks, t.2 = .asleep false
  unmet : ∀ t ∈ w.tasks, t.1.cond w.state = false

/-- A step that goes on with pending work, without overtaking, or the turn of a call, without a
    signal. -/
def Drains (w : Waiting Weave Waiter) : WaitInput WeaveInput Waiter → Prop
  | .step i => w.state.Drains i
  | .call _ => False
  | .turn _ signal => signal = false

/-- It goes on with pending work, and does not overtake. -/
theorem Drains.internal {w : Waiting Weave Waiter} {i : WaitInput WeaveInput Waiter}
    (h : Drains w i) :
    WaitQueue.Internal WeaveInput.Internal i ∧ WaitQueue.bad Weave.overtakes w i = false := by
  cases i with
  | step i => exact ⟨h.1, h.2.1⟩
  | call k => exact h.elim
  | turn j signal => exact ⟨h, rfl⟩

section
variable {s s' : Weave} {w w' : Waiting Weave Waiter} {i : WaitInput WeaveInput Waiter}
  {e : List WeaveObs}

theorem goOn_hasData (k : Waiter) (signal : Bool) (s : Weave) :
    ∀ i ∈ toUserQueue.goOn k signal s, i.HasData := by
  cases k <;> simp [toUserQueue, WeaveInput.HasData]

/-- A call that goes on has at most three statements to go. -/
theorem potential_goOn {k : Waiter} {signal : Bool}
    (hs : weave.runFrom (s, []) (toUserQueue.goOn k signal s) = some (s', e)) :
    s'.potential ≤ s.potential + 3 := by
  have hload (held : Bool) : load held [.copyOut] = 3 := rfl
  obtain ⟨-, rfl | rfl⟩ := goOn_cases hs
  · exact Nat.le_add_right _ _
  · simp only [Weave.potential, List.map_append, List.sum_append, List.map_cons, List.map_nil,
      List.sum_cons, List.sum_nil, hload]
    omega

theorem ready_waiting_step (h : w.state.Ready) (hi : WaitQueue.Meets WeaveInput.HasData i)
    (hs : toUserQueue.step w i = some (w', e)) : w'.state.Ready := by
  obtain ⟨js, hjs, hrun⟩ := toUserQueue.state_step goOn_hasData hi hs
  have halong : weave.AlongFrom (fun _ _ j => j.HasData) (w.state, []) js :=
    Machine.alongFrom_of_forall fun j hj _ _ => hjs j hj
  exact halong.invariant (I := fun s _ => s.Ready)
    (fun _ _ _ _ _ h hj hs => ready_weave_step h hj hs) h hrun

theorem attended_waiting_step (hready : w.state.Ready) (h : toUserQueue.Attended Weave.WakeDue w)
    (hs : toUserQueue.step w i = some (w', e)) : toUserQueue.Attended Weave.WakeDue w' := by
  obtain ⟨o, l, ol, hwoven, -⟩ := hready
  exact WaitQueue.attended_step h (fun _ _ _ _ hj hwakes => keeps_step hwoven.sound hj hwakes)
    (fun _ _ _ _ hgo => keeps_goOn hgo) hs

/-- A thread that is over or waits for a frame wakes nobody. -/
theorem not_wakeDue_of_atRest (h : s.AtRest) : ¬ s.WakeDue := by
  rintro ⟨t, ht, hwaking⟩
  rcases h.threads t ht with rfl | ⟨rfl, -⟩ <;> cases hwaking

/-- **No deadlock.**  All is at rest, or the woven system or a call can go on. -/
theorem allAtRest_or_step (hready : w.state.Ready) (h : toUserQueue.Attended Weave.WakeDue w) :
    AllAtRest w ∨ ∃ i w' e, Drains w i ∧ toUserQueue.step w i = some (w', e) := by
  obtain ⟨o, l, ol, hwoven, hl⟩ := hready
  obtain hrest | ⟨i, s', e, hi, hs⟩ := hwoven.atRest_or_step hl
  · by_cases hasleep : ∀ t ∈ w.tasks, t.2 = .asleep false
    · left
      refine ⟨hrest, hasleep, fun t ht => Bool.eq_false_of_not_eq_true fun hcond => ?_⟩
      have hmem : (t.1, Phase.asleep false) ∈ w.tasks := hasleep t ht ▸ ht
      exact not_wakeDue_of_atRest hrest (h t.1 hmem hcond)
    · right
      simp only [not_forall] at hasleep
      obtain ⟨⟨k, p⟩, ht, hne⟩ := hasleep
      obtain ⟨j, ⟨w', e⟩, hs⟩ := WaitQueue.turn_of_ne_asleep (q := toUserQueue) ht hne exists_goOn
      exact ⟨.turn j false, w', e, rfl, hs⟩
  · obtain ⟨w', hw'⟩ := WaitQueue.exists_step (q := toUserQueue) hs
    exact .inr ⟨.step i, w', e, hi, hw'⟩

/-- **Every step spends**, but for what a transfer puts back that overtakes the firmware. -/
theorem waiting_spent (hready : w.state.Ready) {n : ℕ} (hn : w.tasks.length ≤ n)
    (hi : WaitQueue.Internal WeaveInput.Internal i) (hs : toUserQueue.step w i = some (w', e)) :
    w'.tasks.length ≤ n ∧
      WaitQueue.potential Weave.potential 3 n w' + 1 ≤ WaitQueue.potential Weave.potential 3 n w +
        70 * (3 * n + 1) * (WaitQueue.bad Weave.overtakes w i).toNat := by
  obtain ⟨o, l, ol, hwoven, hl⟩ := hready
  exact WaitQueue.potential_step (Φ := Weave.potential) (c := 3) (m := 70) hn
    (fun _ _ _ hi hs => hwoven.spent hl hi hs) (fun _ _ _ _ hgo => potential_goOn hgo) hi hs

end

/-- **Readers included, it comes to rest.**  From every reachable state with any number of reads and
    polls entering the wait queue, testing and sleeping on it, and with events of at least one byte:
    a run that goes on with pending work and with the turns of these calls is no longer than the
    bound, a call that is woken being worth three turns; such a run can be continued until the woven
    system is at rest and every call sleeps while what it waits for is not there; and where no
    thread, no interrupt, no transfer and no call can go on, that is so: no call sleeps through its
    frame. -/
theorem sleepers_come_to_rest (is : List (WaitInput WeaveInput Waiter)) (w : Waiting Weave Waiter)
    (o : List WeaveObs) (hdata : ∀ i ∈ is, WaitQueue.Meets WeaveInput.HasData i)
    (hrun : toUserQueue.waiting.run is = some (w, o)) :
    (∀ js w' o', (∀ j ∈ js, WaitQueue.Internal WeaveInput.Internal j) →
      toUserQueue.waiting.runFrom (w, o) js = some (w', o') →
      js.length ≤ (587 + 14 * w.state.xferDone + 120 * w.state.drv.threads.length +
          4 * w.tasks.length) * (3 * w.tasks.length + 1) + 4 * w.tasks.length +
        70 * (3 * w.tasks.length + 1) *
          toUserQueue.waiting.countFrom (WaitQueue.bad Weave.overtakes) w js) ∧
    (∃ js w' o', toUserQueue.waiting.AlongFrom (fun w _ i => Drains w i) (w, o) js ∧
      toUserQueue.waiting.runFrom (w, o) js = some (w', o') ∧ AllAtRest w') ∧
    ((∀ i, WaitQueue.Internal WeaveInput.Internal i → toUserQueue.step w i = none) →
      AllAtRest w) := by
  obtain ⟨js, hjs, hstate⟩ := toUserQueue.run_state goOn_hasData is w o hdata hrun
  have hready := ready_of_weave_run js w.state o hjs hstate
  have hattended := attended_of_run is w o hrun
  have hstep : ∀ (u : Waiting Weave Waiter) (i : WaitInput WeaveInput Waiter) u' e,
      (u.state.Ready ∧ toUserQueue.Attended Weave.WakeDue u ∧ u.tasks.length ≤ w.tasks.length) →
      WaitQueue.Internal WeaveInput.Internal i → toUserQueue.waiting.step u i = some (u', e) →
      (u'.state.Ready ∧ toUserQueue.Attended Weave.WakeDue u' ∧ u'.tasks.length ≤ w.tasks.length) ∧
        WaitQueue.potential Weave.potential 3 w.tasks.length u' + 1 ≤
          WaitQueue.potential Weave.potential 3 w.tasks.length u +
            70 * (3 * w.tasks.length + 1) * (WaitQueue.bad Weave.overtakes u i).toNat := by
    rintro u i u' e ⟨hready, hattended, hlength⟩ hi hs
    have hmeets : WaitQueue.Meets WeaveInput.HasData i := by
      cases i with
      | step i => exact hi.hasData
      | _ => trivial
    obtain ⟨hlength', hspent⟩ := waiting_spent hready hlength hi hs
    exact ⟨⟨ready_waiting_step hready hmeets hs, attended_waiting_step hready hattended hs,
      hlength'⟩, hspent⟩
  refine ⟨fun js w' o' hjs hrun' => ?_, ?_, fun hstuck => ?_⟩
  · have hlen := Machine.length_add_potential_le hstep js w w' o o'
      ⟨hready, hattended, Nat.le_refl _⟩ hjs hrun'
    have hefforts := WaitQueue.efforts_le w.tasks
    have hbound : WaitQueue.potential Weave.potential 3 w.tasks.length w ≤
        (587 + 14 * w.state.xferDone + 120 * w.state.drv.threads.length + 4 * w.tasks.length) *
          (3 * w.tasks.length + 1) + 4 * w.tasks.length := by
      obtain ⟨o₁, l, ol, hwoven, hl⟩ := hready
      have hpot := hwoven.potential_le hl
      exact Nat.add_le_add (Nat.mul_le_mul_right _ (by omega)) hefforts
    omega
  · refine Machine.exists_run_to (Φ := WaitQueue.potential Weave.potential 3 w.tasks.length)
      (J := fun u => u.state.Ready ∧ toUserQueue.Attended Weave.WakeDue u ∧
        u.tasks.length ≤ w.tasks.length) (fun u i u' e hu hi hs => ?_)
      (fun u hu hrest => (allAtRest_or_step hu.1 hu.2.1).resolve_left hrest) w o
      ⟨hready, hattended, Nat.le_refl _⟩
    -- without overtaking, every step spends
    obtain ⟨hinternal, hnot⟩ := hi.internal
    obtain ⟨hu', hspent⟩ := hstep u i u' e hu hinternal hs
    rw [hnot, Bool.toNat_false, Nat.mul_zero] at hspent
    exact ⟨hu', hspent⟩
  · obtain hrest | ⟨i, w', e, hi, hs⟩ := allAtRest_or_step hready hattended
    · exact hrest
    · rw [hstuck i hi.internal.1] at hs
      cases hs

/-- `sleepers_come_to_rest` from the frame stored while the read sleeps. -/
theorem sleepers_come_to_rest_slept :
    ∃ w o, toUserQueue.waiting.run sleptTurns = some (w, o) ∧
      ∃ js w' o', toUserQueue.waiting.AlongFrom (fun w _ i => Drains w i) (w, o) js ∧
        toUserQueue.waiting.runFrom (w, o) js = some (w', o') ∧ AllAtRest w' := by
  obtain ⟨w, o, hrun, -⟩ : ∃ w o, toUserQueue.waiting.run sleptTurns = some (w, o) ∧ w.tasks ≠ [] :=
    toUserQueue.waiting.exists_run (P := fun w _ => w.tasks ≠ []) (by decide +kernel)
  have hdata : ∀ i ∈ sleptTurns, WaitQueue.Meets WeaveInput.HasData i := by
    simp [sleptTurns, turns, takeTurns, WaitQueue.Meets, WeaveInput.HasData, Event.short,
      Event.next]
  exact ⟨w, o, hrun, (sleepers_come_to_rest sleptTurns w o hdata hrun).2.1⟩

end Gap.Bcp
