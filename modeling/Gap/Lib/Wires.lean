import Gap.Lib.Machine
import Mathlib.Data.List.Nodup
import Mathlib.Logic.Function.Basic

namespace Gap

/-!
# Connections

Byte streams between many near ends and the numbered far ends of one listener.  A near end that
has connected waits in the backlog until the listener accepts it; what is sent on either end is on
the way until the other end has read it, in any pieces; a read returns end-of-file when the other
end is closed and nothing is left.

* `Wires`, `Wires.next`, `Wires.machine` — the connections as a machine, whose trace are its events.
* `Wires.Next` — what each event does.
* `sentBy`, `readAt`, `wroteTo`, `gotAt` — the traffic of the two ends.
* `Flow` — the invariant: what was sent is what was read and what is on the way.
* `Ended` — where end-of-file was read, nothing is on the way.
-/

/-- What is done to the connections. -/
inductive WireEvent (ι α : Type*)
  | connect (p : ι)
  | accept
  /-- From the near end `p`, and read at the far end `c`. -/
  | send (p : ι) (xs : List α)
  | read (c : ℕ) (xs : List α)
  /-- From the far end `c`, and read at the near end `p`. -/
  | write (c : ℕ) (xs : List α)
  | get (p : ι) (xs : List α)
  | close (p : ι)
  | hangUp (c : ℕ)
  /-- A read of the far end returns end-of-file, or one of the near end. -/
  | readEnd (c : ℕ)
  | getEnd (p : ι)

/-- The connections between near ends in `ι` and the far ends of a listener. -/
structure Wires (ι α : Type*) where
  /-- Connected and not accepted, the oldest first. -/
  backlog : List ι
  /-- The near end of each far end. -/
  accepted : List ι
  /-- On the way to the far end. -/
  up : ι → List α
  /-- On the way to the near end. -/
  down : ι → List α
  closed : List ι
  hungUp : List ℕ

namespace Wires

variable {ι α : Type*} [DecidableEq ι] [DecidableEq α]

/-- One event. -/
def next (w : Wires ι α) : WireEvent ι α → Option (Wires ι α)
  | .connect p =>
    -- a near end connects once
    if p ∈ w.accepted ++ w.backlog then none else some { w with backlog := w.backlog ++ [p] }
  | .accept =>
    match w.backlog with
    | [] => none
    | p :: rest => some { w with backlog := rest, accepted := w.accepted ++ [p] }
  | .send p xs =>
    -- nothing is sent from an end that is closed
    if p ∈ w.closed then none else some { w with up := Function.update w.up p (w.up p ++ xs) }
  | .read c xs =>
    match w.accepted[c]? with
    | none => none
    | some p =>
      if xs <+: w.up p then some { w with up := Function.update w.up p ((w.up p).drop xs.length) }
      else none
  | .write c xs =>
    match w.accepted[c]? with
    | none => none
    | some p =>
      if c ∈ w.hungUp then none
      else some { w with down := Function.update w.down p (w.down p ++ xs) }
  | .get p xs =>
    if xs <+: w.down p then
      some { w with down := Function.update w.down p ((w.down p).drop xs.length) }
    else none
  | .close p => some { w with closed := p :: w.closed }
  | .hangUp c => some { w with hungUp := c :: w.hungUp }
  | .readEnd c =>
    match w.accepted[c]? with
    | none => none
    | some p => if w.up p = [] ∧ p ∈ w.closed then some w else none
  | .getEnd p =>
    if w.down p = [] ∧ ∃ c ∈ w.hungUp, w.accepted[c]? = some p then some w else none

/-- What an event does, and when it can happen. -/
inductive Next (w : Wires ι α) : WireEvent ι α → Wires ι α → Prop
  | connect {p : ι} (hp : p ∉ w.accepted ++ w.backlog) :
      Next w (.connect p) { w with backlog := w.backlog ++ [p] }
  | accept {p : ι} {rest : List ι} (hw : w.backlog = p :: rest) :
      Next w .accept { w with backlog := rest, accepted := w.accepted ++ [p] }
  | send {p : ι} (hp : p ∉ w.closed) (xs : List α) :
      Next w (.send p xs) { w with up := Function.update w.up p (w.up p ++ xs) }
  | read {c : ℕ} {p : ι} {xs : List α} (hc : w.accepted[c]? = some p) (hxs : xs <+: w.up p) :
      Next w (.read c xs) { w with up := Function.update w.up p ((w.up p).drop xs.length) }
  | write {c : ℕ} {p : ι} (hc : w.accepted[c]? = some p) (hopen : c ∉ w.hungUp) (xs : List α) :
      Next w (.write c xs) { w with down := Function.update w.down p (w.down p ++ xs) }
  | get {p : ι} {xs : List α} (hxs : xs <+: w.down p) :
      Next w (.get p xs) { w with down := Function.update w.down p ((w.down p).drop xs.length) }
  | close (p : ι) : Next w (.close p) { w with closed := p :: w.closed }
  | hangUp (c : ℕ) : Next w (.hangUp c) { w with hungUp := c :: w.hungUp }
  | readEnd {c : ℕ} {p : ι} (hc : w.accepted[c]? = some p) (hup : w.up p = []) (hp : p ∈ w.closed) :
      Next w (.readEnd c) w
  | getEnd {c : ℕ} {p : ι} (hc : w.accepted[c]? = some p) (hdown : w.down p = [])
      (hhungUp : c ∈ w.hungUp) : Next w (.getEnd p) w

theorem next_cases {w w' : Wires ι α} {x : WireEvent ι α} (h : w.next x = some w') :
    w.Next x w' := by
  cases x with
  | connect p =>
    simp only [next] at h
    split_ifs at h with hp
    obtain rfl := Option.some.inj h
    exact .connect hp
  | accept =>
    simp only [next] at h
    split at h
    · cases h
    · next p rest hw =>
      obtain rfl := Option.some.inj h
      exact .accept hw
  | send p xs =>
    simp only [next] at h
    split_ifs at h with hp
    obtain rfl := Option.some.inj h
    exact .send hp xs
  | read c xs =>
    simp only [next] at h
    split at h
    · cases h
    · next p hc =>
      split_ifs at h with hxs
      obtain rfl := Option.some.inj h
      exact .read hc hxs
  | write c xs =>
    simp only [next] at h
    split at h
    · cases h
    · next p hc =>
      split_ifs at h with hopen
      obtain rfl := Option.some.inj h
      exact .write hc hopen xs
  | get p xs =>
    simp only [next] at h
    split_ifs at h with hxs
    obtain rfl := Option.some.inj h
    exact .get hxs
  | close p =>
    obtain rfl := Option.some.inj h
    exact .close p
  | hangUp c =>
    obtain rfl := Option.some.inj h
    exact .hangUp c
  | readEnd c =>
    simp only [next] at h
    split at h
    · cases h
    · next p hc =>
      split_ifs at h with hend
      obtain rfl := Option.some.inj h
      exact .readEnd hc hend.1 hend.2
  | getEnd p =>
    simp only [next] at h
    split_ifs at h with hend
    obtain rfl := Option.some.inj h
    obtain ⟨hdown, c, hhungUp, hc⟩ := hend
    exact .getEnd hc hdown hhungUp

omit [DecidableEq α] in
/-- A far end keeps its near end. -/
theorem Next.accepted_get {w w' : Wires ι α} {x : WireEvent ι α} (h : w.Next x w') {c : ℕ} {p : ι}
    (hc : w.accepted[c]? = some p) : w'.accepted[c]? = some p := by
  cases h with
  | accept hw =>
    show (w.accepted ++ [_])[c]? = some p
    rw [List.getElem?_append_left (List.getElem?_eq_some_iff.mp hc).1]
    exact hc
  | _ => exact hc

/-- The step of the machine puts its event out. -/
def step (w : Wires ι α) (x : WireEvent ι α) : Option (Wires ι α × List (WireEvent ι α)) :=
  (w.next x).map fun w' => (w', [x])

/-- The connections as a machine. -/
def machine (ι α : Type*) [DecidableEq ι] [DecidableEq α] :
    Machine (Wires ι α) (WireEvent ι α) (WireEvent ι α) :=
  ⟨⟨[], [], fun _ => [], fun _ => [], [], []⟩, Wires.step⟩

end Wires

/-! ### Traffic -/

namespace WireEvent

variable {ι α : Type*} [DecidableEq ι]

/-- The near end that connects. -/
def connects : WireEvent ι α → Option ι
  | .connect p => some p
  | _ => none

/-- What is sent from the near end `p`. -/
def sent (p : ι) : WireEvent ι α → List α
  | .send q xs => if q = p then xs else []
  | _ => []

/-- What is read at the far end `c`. -/
def readFrom (c : ℕ) : WireEvent ι α → List α
  | .read d xs => if d = c then xs else []
  | _ => []

/-- What is sent from the far end `c`. -/
def written (c : ℕ) : WireEvent ι α → List α
  | .write d xs => if d = c then xs else []
  | _ => []

/-- What is read at the near end `p`. -/
def got (p : ι) : WireEvent ι α → List α
  | .get q xs => if q = p then xs else []
  | _ => []

def isAccept : WireEvent ι α → Bool
  | .accept => true
  | _ => false

/-- Neither a connection nor data. -/
def isQuiet : WireEvent ι α → Bool
  | .close _ => true
  | .hangUp _ => true
  | .readEnd _ => true
  | .getEnd _ => true
  | _ => false

theorem quiet (x : WireEvent ι α) (h : x.isQuiet = true) :
    x.connects = none ∧ (∀ p, x.sent p = []) ∧ (∀ c, x.readFrom c = []) ∧
      (∀ c, x.written c = []) ∧ ∀ p, x.got p = [] := by
  cases x with
  | close q => exact ⟨rfl, fun _ => rfl, fun _ => rfl, fun _ => rfl, fun _ => rfl⟩
  | hangUp d => exact ⟨rfl, fun _ => rfl, fun _ => rfl, fun _ => rfl, fun _ => rfl⟩
  | readEnd d => exact ⟨rfl, fun _ => rfl, fun _ => rfl, fun _ => rfl, fun _ => rfl⟩
  | getEnd q => exact ⟨rfl, fun _ => rfl, fun _ => rfl, fun _ => rfl, fun _ => rfl⟩
  | _ => cases h

end WireEvent

namespace Wires

section Traffic

variable {ι α : Type*} [DecidableEq ι] (es : List (WireEvent ι α)) (x : WireEvent ι α)

/-- The near ends that connected, in order. -/
def connected : List ι := es.filterMap WireEvent.connects

/-- What was sent from the near end `p`. -/
def sentBy (p : ι) : List α := es.flatMap (WireEvent.sent p)

/-- What was read at the far end `c`. -/
def readAt (c : ℕ) : List α := es.flatMap (WireEvent.readFrom c)

/-- What was sent from the far end `c`. -/
def wroteTo (c : ℕ) : List α := es.flatMap (WireEvent.written c)

/-- What was read at the near end `p`. -/
def gotAt (p : ι) : List α := es.flatMap (WireEvent.got p)

omit [DecidableEq ι] in
@[simp] theorem connected_concat : connected (es ++ [x]) = connected es ++ x.connects.toList := by
  cases hx : x.connects <;> simp [connected, hx]

@[simp] theorem sentBy_concat (p : ι) : sentBy (es ++ [x]) p = sentBy es p ++ x.sent p := by
  simp [sentBy]

omit [DecidableEq ι] in
@[simp] theorem readAt_concat (c : ℕ) : readAt (es ++ [x]) c = readAt es c ++ x.readFrom c := by
  simp [readAt]

omit [DecidableEq ι] in
@[simp] theorem wroteTo_concat (c : ℕ) : wroteTo (es ++ [x]) c = wroteTo es c ++ x.written c := by
  simp [wroteTo]

@[simp] theorem gotAt_concat (p : ι) : gotAt (es ++ [x]) p = gotAt es p ++ x.got p := by
  simp [gotAt]

end Traffic

/-- A list that is one element longer. -/
theorem getElem?_concat_cases {ι : Type*} {l : List ι} {p q : ι} {c : ℕ}
    (h : (l ++ [p])[c]? = some q) : l[c]? = some q ∨ c = l.length ∧ q = p := by
  rcases Nat.lt_or_ge c l.length with hlt | hge
  · rw [List.getElem?_append_left hlt] at h
    exact .inl h
  · rw [List.getElem?_append_right hge, List.getElem?_singleton] at h
    split_ifs at h with hzero
    exact .inr ⟨by omega, (Option.some.inj h).symm⟩

/-! ### The invariant -/

/-- What was sent is what was read and what is on the way, on every connection and in both
    directions. -/
structure Flow {ι α : Type*} [DecidableEq ι] (w : Wires ι α) (es : List (WireEvent ι α)) :
    Prop where
  order : connected es = w.accepted ++ w.backlog
  nodup : (w.accepted ++ w.backlog).Nodup
  up : ∀ c p, w.accepted[c]? = some p → sentBy es p = readAt es c ++ w.up p
  down : ∀ c p, w.accepted[c]? = some p → wroteTo es c = gotAt es p ++ w.down p
  /-- Before the connection is accepted, nothing is read, and nothing comes back. -/
  near : ∀ p, p ∉ w.accepted → sentBy es p = w.up p ∧ gotAt es p = [] ∧ w.down p = []
  far : ∀ c, w.accepted.length ≤ c → readAt es c = [] ∧ wroteTo es c = []

namespace Flow

variable {ι α : Type*} [DecidableEq ι] {w : Wires ι α} {es : List (WireEvent ι α)}

/-- Two connections do not share a near end. -/
theorem accepted_inj (h : Flow w es) {c c' : ℕ} {p : ι} (hc : w.accepted[c]? = some p)
    (hc' : w.accepted[c']? = some p) : c = c' := by
  have hnodup : w.accepted.Nodup := h.nodup.sublist (List.sublist_append_left _ _)
  obtain ⟨hlt, hget⟩ := List.getElem?_eq_some_iff.mp hc
  obtain ⟨hlt', hget'⟩ := List.getElem?_eq_some_iff.mp hc'
  exact hnodup.getElem_inj_iff.mp (hget.trans hget'.symm)

theorem connect (h : Flow w es) {p : ι} (hp : p ∉ w.accepted ++ w.backlog) :
    Flow { w with backlog := w.backlog ++ [p] } (es ++ [.connect p]) where
  order := by simp [WireEvent.connects, h.order]
  nodup := by
    show (w.accepted ++ (w.backlog ++ [p])).Nodup
    rw [← List.append_assoc]
    exact List.nodup_append_comm.mp (List.nodup_cons.mpr ⟨hp, h.nodup⟩)
  up c q hc := by simpa [WireEvent.sent, WireEvent.readFrom] using h.up c q hc
  down c q hc := by simpa [WireEvent.written, WireEvent.got] using h.down c q hc
  near q hq := by simpa [WireEvent.sent, WireEvent.got] using h.near q hq
  far c hc := by simpa [WireEvent.readFrom, WireEvent.written] using h.far c hc

/-- The near end waiting longest was not accepted before. -/
theorem notMem_of_backlog (h : Flow w es) {p : ι} {rest : List ι} (hw : w.backlog = p :: rest) :
    p ∉ w.accepted := fun hmem =>
  (List.nodup_append.mp h.nodup).2.2 p hmem p (by simp [hw]) rfl

/-- The connection accepted gets the next number; what was sent on it is still on the way. -/
theorem accept (h : Flow w es) {p : ι} {rest : List ι} (hw : w.backlog = p :: rest) :
    Flow { w with backlog := rest, accepted := w.accepted ++ [p] } (es ++ [.accept]) where
  order := by simp [WireEvent.connects, h.order, hw]
  nodup := by simpa [hw] using h.nodup
  up c q hc := by
    simp only [sentBy_concat, readAt_concat, WireEvent.sent, WireEvent.readFrom, List.append_nil]
    rcases getElem?_concat_cases hc with hc | ⟨rfl, rfl⟩
    · exact h.up c q hc
    · rw [(h.far _ (Nat.le_refl _)).1, List.nil_append]
      exact (h.near q (h.notMem_of_backlog hw)).1
  down c q hc := by
    simp only [wroteTo_concat, gotAt_concat, WireEvent.written, WireEvent.got, List.append_nil]
    rcases getElem?_concat_cases hc with hc | ⟨rfl, rfl⟩
    · exact h.down c q hc
    · obtain ⟨-, hgot, hdown⟩ := h.near q (h.notMem_of_backlog hw)
      rw [(h.far _ (Nat.le_refl _)).2, hgot, hdown]
      rfl
  near q hq := by
    rw [List.mem_append, not_or] at hq
    simpa [WireEvent.sent, WireEvent.got] using h.near q hq.1
  far c hc := by
    rw [List.length_append] at hc
    simpa [WireEvent.readFrom, WireEvent.written] using h.far c (by omega)

theorem send (h : Flow w es) (p : ι) (xs : List α) :
    Flow { w with up := Function.update w.up p (w.up p ++ xs) } (es ++ [.send p xs]) where
  order := by simpa [WireEvent.connects] using h.order
  nodup := h.nodup
  up c q hc := by
    by_cases hq : p = q
    · subst hq
      simp [WireEvent.sent, WireEvent.readFrom, h.up c p hc]
    · simp [WireEvent.sent, WireEvent.readFrom, hq, Function.update_of_ne (Ne.symm hq), h.up c q hc]
  down c q hc := by simpa [WireEvent.written, WireEvent.got] using h.down c q hc
  near q hq := by
    obtain ⟨hsent, hgot, hdown⟩ := h.near q hq
    by_cases hpq : p = q
    · subst hpq
      simp [WireEvent.sent, WireEvent.got, hsent, hgot, hdown]
    · simp [WireEvent.sent, WireEvent.got, hpq, Function.update_of_ne (Ne.symm hpq), hsent, hgot,
        hdown]
  far c hc := by simpa [WireEvent.readFrom, WireEvent.written] using h.far c hc

/-- What is read are the oldest bytes on the way. -/
theorem read (h : Flow w es) {c : ℕ} {p : ι} {xs : List α} (hc : w.accepted[c]? = some p)
    (hxs : xs <+: w.up p) :
    Flow { w with up := Function.update w.up p ((w.up p).drop xs.length) }
      (es ++ [.read c xs]) where
  order := by simpa [WireEvent.connects] using h.order
  nodup := h.nodup
  up d q hd := by
    by_cases hq : d = c
    · subst hq
      obtain rfl : q = p := Option.some.inj (hd.symm.trans hc)
      obtain ⟨rest, hrest⟩ := hxs
      simp [WireEvent.sent, WireEvent.readFrom, h.up d q hd, ← hrest]
    · have hne : q ≠ p := fun he => hq (h.accepted_inj (he ▸ hd) hc)
      simp [WireEvent.sent, WireEvent.readFrom, Ne.symm hq, Function.update_of_ne hne, h.up d q hd]
  down d q hd := by simpa [WireEvent.written, WireEvent.got] using h.down d q hd
  near q hq := by
    have hne : q ≠ p := fun he => hq (by rw [he]; exact List.mem_of_getElem? hc)
    simpa [WireEvent.sent, WireEvent.got, Function.update_of_ne hne] using h.near q hq
  far d hd := by
    have hlt := (List.getElem?_eq_some_iff.mp hc).1
    have hne : c ≠ d := Nat.ne_of_lt (Nat.lt_of_lt_of_le hlt hd)
    simpa [WireEvent.readFrom, WireEvent.written, hne] using h.far d hd

theorem write (h : Flow w es) {c : ℕ} {p : ι} (hc : w.accepted[c]? = some p) (xs : List α) :
    Flow { w with down := Function.update w.down p (w.down p ++ xs) } (es ++ [.write c xs]) where
  order := by simpa [WireEvent.connects] using h.order
  nodup := h.nodup
  up d q hd := by simpa [WireEvent.sent, WireEvent.readFrom] using h.up d q hd
  down d q hd := by
    by_cases hq : d = c
    · subst hq
      obtain rfl : q = p := Option.some.inj (hd.symm.trans hc)
      simp [WireEvent.written, WireEvent.got, h.down d q hd]
    · have hne : q ≠ p := fun he => hq (h.accepted_inj (he ▸ hd) hc)
      simp [WireEvent.written, WireEvent.got, Ne.symm hq, Function.update_of_ne hne, h.down d q hd]
  near q hq := by
    have hne : q ≠ p := fun he => hq (by rw [he]; exact List.mem_of_getElem? hc)
    simpa [WireEvent.sent, WireEvent.got, Function.update_of_ne hne] using h.near q hq
  far d hd := by
    have hlt := (List.getElem?_eq_some_iff.mp hc).1
    have hne : c ≠ d := Nat.ne_of_lt (Nat.lt_of_lt_of_le hlt hd)
    simpa [WireEvent.readFrom, WireEvent.written, hne] using h.far d hd

theorem get (h : Flow w es) {p : ι} {xs : List α} (hxs : xs <+: w.down p) :
    Flow { w with down := Function.update w.down p ((w.down p).drop xs.length) }
      (es ++ [.get p xs]) where
  order := by simpa [WireEvent.connects] using h.order
  nodup := h.nodup
  up d q hd := by simpa [WireEvent.sent, WireEvent.readFrom] using h.up d q hd
  down d q hd := by
    by_cases hq : p = q
    · subst hq
      obtain ⟨rest, hrest⟩ := hxs
      simp [WireEvent.written, WireEvent.got, h.down d p hd, ← hrest]
    · simp [WireEvent.written, WireEvent.got, hq, Function.update_of_ne (Ne.symm hq), h.down d q hd]
  near q hq := by
    obtain ⟨hsent, hgot, hdown⟩ := h.near q hq
    by_cases hpq : p = q
    · subst hpq
      -- nothing is on the way to it, so nothing is read
      obtain rfl : xs = [] := List.prefix_nil.mp (hdown ▸ hxs)
      simp [WireEvent.sent, WireEvent.got, hsent, hgot, hdown]
    · simp [WireEvent.sent, WireEvent.got, hpq, Function.update_of_ne (Ne.symm hpq), hsent, hgot,
        hdown]
  far c hc := by simpa [WireEvent.readFrom, WireEvent.written] using h.far c hc

/-- An event that moves no data and connects nobody. -/
theorem quiet (h : Flow w es) {x : WireEvent ι α} (closed : List ι) (hungUp : List ℕ)
    (hx : x.isQuiet = true) : Flow { w with closed, hungUp } (es ++ [x]) where
  order := by rw [connected_concat, (x.quiet hx).1, Option.toList_none, List.append_nil, h.order]
  nodup := h.nodup
  up d q hd := by simp [x.quiet hx, h.up d q hd]
  down d q hd := by simp [x.quiet hx, h.down d q hd]
  near q hq := by simpa [x.quiet hx] using h.near q hq
  far d hd := by simpa [x.quiet hx] using h.far d hd

end Flow

section Runs

variable {ι α : Type*} [DecidableEq ι] [DecidableEq α] {w w' : Wires ι α}
  {es es' : List (WireEvent ι α)} {x : WireEvent ι α}

theorem flow_init : Flow (machine ι α).init [] where
  order := rfl
  nodup := List.nodup_nil
  up c p hc := by cases hc
  down c p hc := by cases hc
  near p _ := ⟨rfl, rfl, rfl⟩
  far c _ := ⟨rfl, rfl⟩

omit [DecidableEq α] in
/-- **Step lemma.**  Every event keeps the flow. -/
theorem flow_next (h : Flow w es) (hw : w.Next x w') : Flow w' (es ++ [x]) := by
  cases hw with
  | connect hp => exact h.connect hp
  | accept hbacklog => exact h.accept hbacklog
  | send hp xs => exact h.send _ xs
  | read hc hxs => exact h.read hc hxs
  | write hc hopen xs => exact h.write hc xs
  | get hxs => exact h.get hxs
  | close p => exact h.quiet _ _ rfl
  | hangUp c => exact h.quiet _ _ rfl
  | readEnd hc hup hp => exact h.quiet _ _ rfl
  | getEnd hc hdown hhungUp => exact h.quiet _ _ rfl

/-! ### End-of-file -/

/-- Where end-of-file was read, nothing is on the way, and nothing more will be. -/
structure Ended (w : Wires ι α) (es : List (WireEvent ι α)) : Prop where
  far : ∀ c, .readEnd c ∈ es → ∃ p, w.accepted[c]? = some p ∧ w.up p = [] ∧ p ∈ w.closed
  near : ∀ p, .getEnd p ∈ es → ∃ c, w.accepted[c]? = some p ∧ w.down p = [] ∧ c ∈ w.hungUp

theorem ended_init : Ended (machine ι α).init [] where
  far c h := by cases h
  near p h := by cases h

omit [DecidableEq α] in
/-- Nothing more comes from a near end that is closed. -/
theorem Next.up_eq_nil (hw : w.Next x w') {p : ι} (hp : p ∈ w.closed) (hup : w.up p = []) :
    w'.up p = [] := by
  cases hw with
  | @send q hq xs =>
    have hne : p ≠ q := fun hpq => hq (hpq ▸ hp)
    show Function.update w.up q _ p = []
    rw [Function.update_of_ne hne]
    exact hup
  | @read c q xs hc hxs =>
    show Function.update w.up q _ p = []
    by_cases hne : p = q
    · rw [← hne, Function.update_self, hup, List.drop_nil]
    · rw [Function.update_of_ne hne]
      exact hup
  | _ => exact hup

omit [DecidableEq α] in
/-- Nothing more comes from a far end that has hung up. -/
theorem Next.down_eq_nil (hw : w.Next x w') (hflow : Flow w es) {c : ℕ} {p : ι}
    (hc : w.accepted[c]? = some p) (hhung : c ∈ w.hungUp) (hdown : w.down p = []) :
    w'.down p = [] := by
  cases hw with
  | @write d q hd hopen xs =>
    have hne : p ≠ q := fun hpq => hopen (hflow.accepted_inj (hpq ▸ hc) hd ▸ hhung)
    show Function.update w.down q _ p = []
    rw [Function.update_of_ne hne]
    exact hdown
  | @get q xs hxs =>
    show Function.update w.down q _ p = []
    by_cases hne : p = q
    · rw [← hne, Function.update_self, hdown, List.drop_nil]
    · rw [Function.update_of_ne hne]
      exact hdown
  | _ => exact hdown

omit [DecidableEq α] in
/-- What is closed stays closed. -/
theorem Next.closed_subset (hw : w.Next x w') :
    w.closed ⊆ w'.closed ∧ w.hungUp ⊆ w'.hungUp := by
  cases hw with
  | close p => exact ⟨List.subset_cons_self _ _, List.Subset.refl _⟩
  | hangUp c => exact ⟨List.Subset.refl _, List.subset_cons_self _ _⟩
  | _ => exact ⟨List.Subset.refl _, List.Subset.refl _⟩

omit [DecidableEq α] in
/-- **Step lemma.**  Every event keeps the ends ended. -/
theorem ended_next (hflow : Flow w es) (h : Ended w es) (hw : w.Next x w') :
    Ended w' (es ++ [x]) := by
  refine ⟨fun c hc => ?_, fun p hp => ?_⟩
  · obtain ⟨p, hget, hup, hp⟩ : ∃ p, w.accepted[c]? = some p ∧ w.up p = [] ∧ p ∈ w.closed := by
      rcases List.mem_append.mp hc with hc | hc
      · exact h.far c hc
      · obtain rfl := List.mem_singleton.mp hc
        cases hw with
        | readEnd hget hup hp => exact ⟨_, hget, hup, hp⟩
    exact ⟨p, hw.accepted_get hget, hw.up_eq_nil hp hup, hw.closed_subset.1 hp⟩
  · obtain ⟨c, hget, hdown, hc⟩ : ∃ c, w.accepted[c]? = some p ∧ w.down p = [] ∧ c ∈ w.hungUp := by
      rcases List.mem_append.mp hp with hp | hp
      · exact h.near p hp
      · obtain rfl := List.mem_singleton.mp hp
        cases hw with
        | getEnd hget hdown hc => exact ⟨_, hget, hdown, hc⟩
    exact ⟨c, hw.accepted_get hget, hw.down_eq_nil hflow hget hc hdown, hw.closed_subset.2 hc⟩

/-! ### Every run -/

omit [DecidableEq α] in
/-- The far ends are those accepted. -/
theorem Next.length_accepted (hw : w.Next x w') :
    w'.accepted.length = w.accepted.length + if x.isAccept then 1 else 0 := by
  cases hw with
  | accept hbacklog => exact List.length_append
  | _ => rfl

/-- The trace of a run are its events. -/
theorem trace_of_runFrom {o o' : List (WireEvent ι α)}
    (h : (machine ι α).runFrom (w, o) es = some (w', o')) : o' = o ++ es := by
  induction es generalizing w o with
  | nil =>
    rw [Machine.runFrom_nil, Option.some.injEq, Prod.mk.injEq] at h
    rw [← h.2, List.append_nil]
  | cons x es ih =>
    obtain ⟨⟨v, e⟩, hs, h⟩ := Option.bind_eq_some_iff.mp h
    obtain ⟨v', -, heq⟩ := Option.map_eq_some_iff.mp hs
    obtain ⟨rfl, rfl⟩ := Prod.mk.inj heq
    rw [ih h, List.append_assoc]
    rfl

/-- A far end keeps its near end. -/
theorem accepted_get_of_runFrom {o o' : List (WireEvent ι α)}
    (h : (machine ι α).runFrom (w, o) es = some (w', o')) {c : ℕ} {p : ι}
    (hc : w.accepted[c]? = some p) : w'.accepted[c]? = some p := by
  refine Machine.runFrom_invariant (I := fun v _ => v.accepted[c]? = some p) ?_ es w w' o o' hc h
  intro v _ x v' e hv hs
  obtain ⟨v'', hnext, heq⟩ := Option.map_eq_some_iff.mp hs
  obtain ⟨rfl, -⟩ := Prod.mk.inj heq
  exact (next_cases hnext).accepted_get hv

/-- **Run lemma.**  What was sent on a connection is what was read and what is on the way, and
    where end-of-file was read this is nothing. -/
theorem flow_of_run (es : List (WireEvent ι α)) (w : Wires ι α) (o : List (WireEvent ι α))
    (hrun : (machine ι α).run es = some (w, o)) :
    Flow w es ∧ Ended w es ∧ w.accepted.length = es.countP WireEvent.isAccept := by
  refine Machine.run_induct (P := fun es w _ => Flow w es ∧ Ended w es ∧
    w.accepted.length = es.countP WireEvent.isAccept) ⟨flow_init, ended_init, rfl⟩ ?_ es w o hrun
  rintro es x w o w' e - ⟨hflow, hended, hcount⟩ hs
  obtain ⟨w'', hw, heq⟩ := Option.map_eq_some_iff.mp hs
  obtain ⟨rfl, -⟩ := Prod.mk.inj heq
  have hnext := next_cases hw
  refine ⟨flow_next hflow hnext, ended_next hflow hended hnext, ?_⟩
  rw [hnext.length_accepted, hcount, List.countP_append, List.countP_singleton]

end Runs

end Wires

end Gap
