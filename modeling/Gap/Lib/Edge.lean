import Mathlib.Logic.Function.Basic

namespace Gap

/-!
# Edge-triggered notification

Sources that are reported once for each arrival, and not again for what a reader has left in
them.  A reader that wants to miss nothing reads each source reported until it is found empty.

* `Edge` — what is there at each source, which sources are queued for a report, and which have been
  reported and not been found empty, or closed, since.
* `arrive`, `report`, `take`, `foundEmpty`, `close`, `add` — what happens to sources.
* `Covered` — what is there is queued, or its source is unsettled; kept by everything that happens.
* `Covered.queued` — with nothing unsettled, nothing is there for which no report will come.
-/

/-- The sources `α`, as notifier and reader see them. -/
structure Edge (α : Type*) where
  /-- Something is there. -/
  pending : α → Bool
  /-- A report will come. -/
  queued : α → Bool
  /-- Reported, and neither found empty nor closed since. -/
  unsettled : α → Bool

namespace Edge

variable {α : Type*}

/-- Nothing is there. -/
def init : Edge α := ⟨fun _ => false, fun _ => false, fun _ => false⟩

/-- What is there is queued, or its source is unsettled. -/
def Covered (e : Edge α) : Prop :=
  ∀ a, e.pending a = true → e.queued a = true ∨ e.unsettled a = true

theorem covered_init : Covered (init : Edge α) := by
  intro a h
  cases h

/-- **Nothing is stranded** where nothing is unsettled. -/
theorem Covered.queued {e : Edge α} (h : e.Covered) (hsettled : ∀ a, e.unsettled a = false) (a : α)
    (ha : e.pending a = true) : e.queued a = true := by
  rcases h a ha with hqueued | hunsettled
  · exact hqueued
  · rw [hsettled a] at hunsettled
    cases hunsettled

variable [DecidableEq α]

/-- Something arrives. -/
def arrive (e : Edge α) (a : α) : Edge α :=
  { e with pending := Function.update e.pending a true, queued := Function.update e.queued a true }

/-- These sources are reported. -/
def report (e : Edge α) (as : List α) : Edge α :=
  { e with
    queued := fun a => e.queued a && decide (a ∉ as)
    unsettled := fun a => e.unsettled a || decide (a ∈ as) }

/-- Something is taken from a source, or lost, and something is left or not. -/
def take (e : Edge α) (a : α) (left : Bool) : Edge α :=
  { e with pending := Function.update e.pending a left }

/-- The reader finds a source empty. -/
def foundEmpty (e : Edge α) (a : α) : Edge α :=
  { e with unsettled := Function.update e.unsettled a false }

/-- A source is closed. -/
def close (e : Edge α) (a : α) : Edge α where
  pending := Function.update e.pending a false
  queued := Function.update e.queued a false
  unsettled := Function.update e.unsettled a false

/-- A source is added, and reported if something is there already. -/
def add (e : Edge α) (a : α) (fresh : Bool) : Edge α :=
  { e with pending := Function.update e.pending a fresh, queued := Function.update e.queued a fresh }

/-! ### What is kept -/

variable {e e' : Edge α} {a : α}

/-- What happens to one source leaves the others alone. -/
theorem Covered.of_off (h : e.Covered)
    (hoff : ∀ b, b ≠ a → e'.pending b = e.pending b ∧ e'.queued b = e.queued b ∧
      e'.unsettled b = e.unsettled b)
    (ha : e'.pending a = true → e'.queued a = true ∨ e'.unsettled a = true) : e'.Covered := by
  intro b hb
  by_cases hba : b = a
  · subst hba
    exact ha hb
  · obtain ⟨hpending, hqueued, hunsettled⟩ := hoff b hba
    rw [hpending] at hb
    rw [hqueued, hunsettled]
    exact h b hb

theorem Covered.arrive (h : e.Covered) (a : α) : (e.arrive a).Covered := by
  refine h.of_off (fun b hb => ?_) fun _ => .inl (Function.update_self ..)
  exact ⟨Function.update_of_ne hb .., Function.update_of_ne hb .., rfl⟩

/-- A source that is no longer queued has been reported. -/
theorem Covered.report (h : e.Covered) (as : List α) : (e.report as).Covered := by
  intro b hb
  simp only [Edge.report, Bool.and_eq_true, Bool.or_eq_true, decide_eq_true_eq]
  by_cases hmem : b ∈ as
  · exact .inr (.inr hmem)
  · exact (h b hb).imp (fun hq => ⟨hq, hmem⟩) .inl

/-- Only what has been reported is taken. -/
theorem Covered.take (h : e.Covered) (ha : e.unsettled a = true) (left : Bool) :
    (e.take a left).Covered := by
  refine h.of_off (fun b hb => ?_) fun _ => .inr ha
  exact ⟨Function.update_of_ne hb .., rfl, rfl⟩

theorem Covered.foundEmpty (h : e.Covered) (ha : e.pending a = false) :
    (e.foundEmpty a).Covered := by
  refine h.of_off (a := a) (fun b hb => ⟨rfl, rfl, Function.update_of_ne hb ..⟩) fun hpending => ?_
  change e.pending a = true at hpending
  rw [ha] at hpending
  cases hpending

theorem Covered.close (h : e.Covered) (a : α) : (e.close a).Covered := by
  refine h.of_off (a := a) (fun b hb => ?_) fun hpending => ?_
  · exact ⟨Function.update_of_ne hb .., Function.update_of_ne hb .., Function.update_of_ne hb ..⟩
  · simp only [Edge.close, Function.update_self] at hpending
    cases hpending

theorem Covered.add (h : e.Covered) (a : α) (fresh : Bool) : (e.add a fresh).Covered := by
  refine h.of_off (a := a) (fun b hb => ?_) fun hpending => ?_
  · exact ⟨Function.update_of_ne hb .., Function.update_of_ne hb .., rfl⟩
  · simp only [Edge.add, Function.update_self] at hpending ⊢
    exact .inl hpending

end Edge

end Gap
