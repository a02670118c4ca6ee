import Gap.Lib.Machine

namespace Gap

/-!
# A mailbox that keeps the last item

The abstract model of a buffer for one item: a `put` overwrites what is held, a `take` empties
it.  A history is lawful if each take shows the item held at that moment.

* `Mailbox.held` — the item a history leaves.
* `Mailbox.Lawful` — the law, for takes that show an item in another representation.
* `takes_sublist` — the takes show items put, in order and each at most once.
* `put_fate` — an item put is taken by the next take, or overwritten, or still held.
-/

namespace Mailbox

variable {α β : Type*}

/-- What happens to a mailbox; a take shows the item in the representation `β`. -/
inductive Ev (α β : Type*)
  | put (x : α)
  | take (y : β)

/-- The item held after one more event. -/
def hold : Option α → Ev α β → Option α
  | _, .put x => some x
  | _, .take _ => none

/-- The item held after a history. -/
def held (h : List (Ev α β)) : Option α := h.foldl hold none

/-- Each take shows the item held. -/
def Lawful (Shows : α → β → Prop) (h : List (Ev α β)) : Prop :=
  AtEach (fun pre e => ∀ y, e = .take y → ∃ x, held pre = some x ∧ Shows x y) h

/-- The items put, in order. -/
def puts (h : List (Ev α β)) : List α := h.filterMap fun | .put x => some x | .take _ => none

/-- What the takes showed, in order. -/
def takes (h : List (Ev α β)) : List β := h.filterMap fun | .put _ => none | .take y => some y

@[simp] theorem held_concat (h : List (Ev α β)) (e : Ev α β) :
    held (h ++ [e]) = hold (held h) e := by
  simp [held]

variable {Shows : α → β → Prop}

/-- A put is always lawful. -/
theorem lawful_put {h : List (Ev α β)} {x : α} :
    Lawful Shows (h ++ [.put x]) ↔ Lawful Shows h := by
  rw [Lawful, atEach_concat]
  exact and_iff_left fun y hy => by cases hy

/-- A take is lawful if it shows the item held. -/
theorem lawful_take {h : List (Ev α β)} {y : β} :
    Lawful Shows (h ++ [.take y]) ↔ Lawful Shows h ∧ ∃ x, held h = some x ∧ Shows x y := by
  rw [Lawful, atEach_concat]
  refine and_congr_right fun _ => ⟨fun hlaw => hlaw y rfl, fun hlaw y' hy => ?_⟩
  cases hy
  exact hlaw

/-- The takes show items put before the one held, each used once. -/
theorem takes_sublist_held {h : List (Ev α β)} (hlaw : Lawful Shows h) :
    ∃ xs, (xs ++ (held h).toList).Sublist (puts h) ∧ List.Forall₂ Shows xs (takes h) := by
  induction h using List.reverseRecOn with
  | nil => exact ⟨[], List.Sublist.refl _, .nil⟩
  | append_singleton h e ih =>
    cases e with
    | put x =>
      obtain ⟨xs, hsub, hshows⟩ := ih (lawful_put.mp hlaw)
      -- the item held before is overwritten
      refine ⟨xs, ?_, ?_⟩
      · have hxs : xs.Sublist (puts h) := (List.sublist_append_left _ _).trans hsub
        simpa [puts, hold] using hxs.append_right [x]
      · simpa [takes] using hshows
    | take y =>
      obtain ⟨hinit, x, hheld, hxy⟩ := lawful_take.mp hlaw
      obtain ⟨xs, hsub, hshows⟩ := ih hinit
      rw [hheld] at hsub
      refine ⟨xs ++ [x], ?_, ?_⟩
      · simpa [puts, hold] using hsub
      · have htakes : takes (h ++ [.take y]) = takes h ++ [y] := by simp [takes]
        rw [htakes]
        exact List.rel_append hshows (.cons hxy .nil)

/-- **The takes show items put**, in order, each at most once. -/
theorem takes_sublist {h : List (Ev α β)} (hlaw : Lawful Shows h) :
    ∃ xs, xs.Sublist (puts h) ∧ List.Forall₂ Shows xs (takes h) := by
  obtain ⟨xs, hsub, hshows⟩ := takes_sublist_held hlaw
  exact ⟨xs, (List.sublist_append_left _ _).trans hsub, hshows⟩

/-- **The fate of an item.**  It is still held, or the next event takes it, or the next event
    overwrites it. -/
theorem put_fate {h pre post : List (Ev α β)} {x : α} (hlaw : Lawful Shows h)
    (heq : h = pre ++ .put x :: post) :
    post = [] ∨ (∃ y rest, post = .take y :: rest ∧ Shows x y) ∨
      ∃ x' rest, post = .put x' :: rest := by
  cases post with
  | nil => exact .inl rfl
  | cons e rest =>
    cases e with
    | put x' => exact .inr (.inr ⟨x', rest, rfl⟩)
    | take y =>
      -- the item held in front of the take is the one just put
      obtain ⟨x', hheld, hshows⟩ := hlaw (pre ++ [.put x]) (.take y) rest (by simp [heq]) y rfl
      rw [held_concat] at hheld
      obtain rfl : x = x' := Option.some.inj hheld
      exact .inr (.inl ⟨y, rest, rfl, hshows⟩)

end Mailbox

end Gap
