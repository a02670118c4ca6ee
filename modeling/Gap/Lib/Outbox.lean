import Gap.Lib.Machine

namespace Gap

/-!
# An output slot with a bounded backlog

The abstract model of a producer that shows one item at a time to a reader: the item in the
`slot` is on offer until the reader acknowledges it, later items wait in a first-in
first-out `queue` of at most `cap`.

* `Outbox` — the state; that nothing waits while the slot is empty is part of the type.
* `offer` / `ack` — the two operations, with what they let an observer see (`Out`).
* `size` — the items held, in the slot and in the queue.
* `run_spec` — over any run, the items accepted are the items loaded followed by the items
  still waiting, and the slot holds the load that has not been acknowledged yet.
* `Out.Rel` — relates traces that show the loaded items in two representations.
-/

variable {α β γ : Type*} {cap : ℕ}

/-- One item on offer, at most `cap` waiting behind it. -/
structure Outbox (α : Type*) (cap : ℕ) where
  /-- The item on offer. -/
  slot : Option α
  /-- The items waiting, oldest first. -/
  queue : List α
  queue_le : queue.length ≤ cap
  queue_nil : slot = none → queue = []

namespace Outbox

/-- The producer offers an item; the reader acknowledges the slot. -/
inductive In (α : Type*)
  | offer (x : α)
  | ack

/-- What an observer sees; `loaded` carries the item in the representation `β` the reader
    gets. -/
inductive Out (α β : Type*)
  | accepted (x : α)
  | refused (x : α)
  | acked
  | loaded (y : β)
  | emptied
  deriving DecidableEq

/-- The empty outbox. -/
def empty : Outbox α cap := ⟨none, [], Nat.zero_le _, fun _ => rfl⟩

/-- Offer `x`: into the slot if it is free, else into the queue unless that is full. -/
def offer (b : Outbox α cap) (x : α) : Outbox α cap × List (Out α α) :=
  match h : b.slot with
  | none => (⟨some x, [], Nat.zero_le _, by simp⟩, [.accepted x, .loaded x])
  | some _ =>
    if hq : b.queue.length < cap then
      (⟨b.slot, b.queue ++ [x], by simpa using Nat.succ_le_of_lt hq, by simp [h]⟩, [.accepted x])
    else (b, [.refused x])

/-- Acknowledge the slot: the oldest waiting item moves up. -/
def ack (b : Outbox α cap) : Outbox α cap × List (Out α α) :=
  match h : b.queue with
  | [] => (empty, [.acked, .emptied])
  | y :: ys =>
    (⟨some y, ys, by have := b.queue_le; simp [h] at this; omega, by simp⟩, [.acked, .loaded y])

/-! ### What the operations do -/

/-- Into a free slot. -/
theorem offer_of_none {b : Outbox α cap} (h : b.slot = none) (x : α) :
    (b.offer x).1.slot = some x ∧ (b.offer x).1.queue = [] ∧
      (b.offer x).2 = [.accepted x, .loaded x] := by
  unfold offer
  split
  · exact ⟨rfl, rfl, rfl⟩
  · next hy => rw [h] at hy; exact absurd hy (by simp)

/-- Behind a taken slot, with room in the queue. -/
theorem offer_of_lt {b : Outbox α cap} {y : α} (h : b.slot = some y)
    (hq : b.queue.length < cap) (x : α) :
    (b.offer x).1.slot = some y ∧ (b.offer x).1.queue = b.queue ++ [x] ∧
      (b.offer x).2 = [.accepted x] := by
  unfold offer
  split
  · next hn => rw [h] at hn; exact absurd hn (by simp)
  · rw [dif_pos hq]; exact ⟨h, rfl, rfl⟩

/-- Behind a taken slot, with the queue full: refused, and nothing changes. -/
theorem offer_of_full {b : Outbox α cap} {y : α} (h : b.slot = some y)
    (hq : ¬ b.queue.length < cap) (x : α) : b.offer x = (b, [.refused x]) := by
  unfold offer
  split
  · next hn => rw [h] at hn; exact absurd hn (by simp)
  · rw [dif_neg hq]

/-- With nothing waiting, the slot is freed. -/
theorem ack_of_nil {b : Outbox α cap} (h : b.queue = []) :
    b.ack.1.slot = none ∧ b.ack.1.queue = [] ∧ b.ack.2 = [.acked, .emptied] := by
  unfold ack
  split
  · exact ⟨rfl, rfl, rfl⟩
  · next hy => rw [h] at hy; exact absurd hy (by simp)

/-- Else the oldest waiting item moves up. -/
theorem ack_of_cons {b : Outbox α cap} {y : α} {ys : List α} (h : b.queue = y :: ys) :
    b.ack.1.slot = some y ∧ b.ack.1.queue = ys ∧ b.ack.2 = [.acked, .loaded y] := by
  unfold ack
  split
  · next hn => rw [h] at hn; exact absurd hn (by simp)
  · next z zs hz =>
    rw [h, List.cons.injEq] at hz
    obtain ⟨rfl, rfl⟩ := hz
    exact ⟨rfl, rfl, rfl⟩

/-! ### How much is held -/

/-- The items held, in the slot and behind it. -/
def size (b : Outbox α cap) : ℕ := b.slot.isSome.toNat + b.queue.length

theorem size_le (b : Outbox α cap) : b.size ≤ cap + 1 := by
  have hslot := Bool.toNat_le b.slot.isSome
  have hqueue := b.queue_le
  rw [size]
  omega

/-- Nothing is held exactly while the slot is free. -/
theorem size_eq_zero {b : Outbox α cap} : b.size = 0 ↔ b.slot = none := by
  constructor
  · intro h
    cases hslot : b.slot with
    | none => rfl
    | some x => simp [size, hslot] at h
  · intro h
    simp [size, h, b.queue_nil h]

/-- An acknowledgement takes one item away, if there is one. -/
theorem size_ack (b : Outbox α cap) : b.ack.1.size = b.size - 1 := by
  cases hqueue : b.queue with
  | nil =>
    obtain ⟨hs, hq, -⟩ := ack_of_nil hqueue
    have hslot := Bool.toNat_le b.slot.isSome
    simp only [size, hs, hq, hqueue, List.length_nil, Option.isSome_none, Bool.toNat_false]
    omega
  | cons y ys =>
    -- something waits, so the slot is taken
    obtain ⟨hs, hq, -⟩ := ack_of_cons hqueue
    have hslot : b.slot.isSome = true := by
      cases hnone : b.slot with
      | none => rw [b.queue_nil hnone] at hqueue; cases hqueue
      | some x => rfl
    simp only [size, hs, hq, hqueue, hslot, List.length_cons, Option.isSome_some, Bool.toNat_true]
    omega

/-- The outbox as a machine. -/
def machine (α : Type*) (cap : ℕ) : Machine (Outbox α cap) (In α) (Out α α) where
  init := empty
  step b i := some <| match i with
    | .offer x => b.offer x
    | .ack => b.ack

/-! ### Reading a trace -/

namespace Out

/-- The items accepted, in order. -/
def acceptedItems : List (Out α β) → List α :=
  List.filterMap fun | accepted x => some x | _ => none

/-- The items loaded into the slot, in order. -/
def loadedItems : List (Out α β) → List β :=
  List.filterMap fun | loaded y => some y | _ => none

/-- The load on offer after one more output: an acknowledgement releases it, and a further
    load before that would not replace it. -/
def holdNext (h : Option β) : Out α β → Option β
  | acked => none
  | loaded y => some (h.getD y)
  | _ => h

/-- The first load since the last acknowledgement. -/
def held (o : List (Out α β)) : Option β := o.foldl holdNext none

/-- Traces that agree but for the representation of the loaded items. -/
inductive Rel (R : β → γ → Prop) : Out α β → Out α γ → Prop
  | accepted (x : α) : Rel R (.accepted x) (.accepted x)
  | refused (x : α) : Rel R (.refused x) (.refused x)
  | acked : Rel R .acked .acked
  | loaded {y : β} {z : γ} (h : R y z) : Rel R (.loaded y) (.loaded z)
  | emptied : Rel R .emptied .emptied

@[simp] theorem acceptedItems_append (o e : List (Out α β)) :
    acceptedItems (o ++ e) = acceptedItems o ++ acceptedItems e :=
  List.filterMap_append

@[simp] theorem loadedItems_append (o e : List (Out α β)) :
    loadedItems (o ++ e) = loadedItems o ++ loadedItems e :=
  List.filterMap_append

theorem held_append (o e : List (Out α β)) : held (o ++ e) = e.foldl holdNext (held o) :=
  List.foldl_append

variable {R : β → γ → Prop} {o : List (Out α β)} {o' : List (Out α γ)}

theorem Rel.acceptedItems_eq (h : List.Forall₂ (Rel R) o o') :
    acceptedItems o = acceptedItems o' := by
  induction h with
  | nil => rfl
  | cons hx _ ih => cases hx <;> simpa [acceptedItems] using ih

theorem Rel.loadedItems (h : List.Forall₂ (Rel R) o o') :
    List.Forall₂ R (loadedItems o) (loadedItems o') := by
  induction h with
  | nil => exact .nil
  | cons hx _ ih =>
    cases hx with
    | loaded hy => exact .cons hy ih
    | _ => exact ih

theorem Rel.foldl_holdNext (h : List.Forall₂ (Rel R) o o') {x : Option β} {y : Option γ}
    (hxy : Option.Rel R x y) : Option.Rel R (o.foldl holdNext x) (o'.foldl holdNext y) := by
  induction h generalizing x y with
  | nil => exact hxy
  | cons hx _ ih =>
    -- related entries leave related loads on offer, and the rest of the traces goes on from them
    refine ih ?_
    cases hx with
    | acked => exact .none
    | loaded hyz =>
      cases hxy with
      | none => exact .some hyz
      | some hxy => exact .some hxy
    | _ => exact hxy

/-- Such traces agree on whether a load is on offer. -/
theorem Rel.isSome_held (h : List.Forall₂ (Rel R) o o') :
    (held o).isSome = (held o').isSome := by
  have hheld : Option.Rel R (held o) (held o') := Rel.foldl_holdNext h .none
  generalize held o = x at hheld ⊢
  generalize held o' = y at hheld ⊢
  cases hheld with
  | none => rfl
  | some _ => rfl

end Out

/-! ### The laws of a run -/

/-- **Step lemma.**  One step keeps the accounting of accepted items and of the slot. -/
theorem step_spec {b b' : Outbox α cap} {i : In α} {o e : List (Out α α)}
    (hacc : Out.acceptedItems o = Out.loadedItems o ++ b.queue) (hheld : Out.held o = b.slot)
    (hs : (machine α cap).step b i = some (b', e)) :
    Out.acceptedItems (o ++ e) = Out.loadedItems (o ++ e) ++ b'.queue ∧
      Out.held (o ++ e) = b'.slot := by
  rw [Out.acceptedItems_append, Out.loadedItems_append, Out.held_append, hacc, hheld]
  simp only [machine, Option.some.injEq] at hs
  cases i with
  | offer x =>
    obtain ⟨rfl, rfl⟩ : (b.offer x).1 = b' ∧ (b.offer x).2 = e := Prod.mk.inj hs
    cases hslot : b.slot with
    | none =>
      -- nothing waits behind a free slot, so the item offered is the next to be loaded
      obtain ⟨hs', hq', he⟩ := offer_of_none hslot x
      rw [hs', hq', he, b.queue_nil hslot]
      simp [Out.acceptedItems, Out.loadedItems, Out.holdNext]
    | some y =>
      by_cases hq : b.queue.length < cap
      · obtain ⟨hs', hq', he⟩ := offer_of_lt hslot hq x
        rw [hs', hq', he]
        simp [Out.acceptedItems, Out.loadedItems, Out.holdNext]
      · rw [offer_of_full hslot hq x]
        simp [Out.acceptedItems, Out.loadedItems, Out.holdNext, hslot]
  | ack =>
    obtain ⟨rfl, rfl⟩ : b.ack.1 = b' ∧ b.ack.2 = e := Prod.mk.inj hs
    cases hqueue : b.queue with
    | nil =>
      -- everything accepted has been loaded
      obtain ⟨hs', hq', he⟩ := ack_of_nil hqueue
      rw [hs', hq', he]
      simp [Out.acceptedItems, Out.loadedItems, Out.holdNext]
    | cons y ys =>
      -- the oldest item waiting moves from the one list to the other
      obtain ⟨hs', hq', he⟩ := ack_of_cons hqueue
      rw [hs', hq', he]
      simp [Out.acceptedItems, Out.loadedItems, Out.holdNext]

/-- **Run lemma.**  Accepted items are loaded in order, none lost and none twice; the slot
    holds the load not acknowledged yet. -/
theorem run_spec (is : List (In α)) (b : Outbox α cap) (o : List (Out α α))
    (hrun : (machine α cap).run is = some (b, o)) :
    Out.acceptedItems o = Out.loadedItems o ++ b.queue ∧ Out.held o = b.slot :=
  Machine.run_induct
    (P := fun _ b o => Out.acceptedItems o = Out.loadedItems o ++ b.queue ∧ Out.held o = b.slot)
    ⟨rfl, rfl⟩ (fun _ _ _ _ _ _ _ h hs => step_spec h.1 h.2 hs) is b o hrun

end Outbox

end Gap
