import IOSStudy.Transition

/-!
# Objects whose operations take one step

What a lock or a queue is there for: seen from outside, the operations happen
one after the other, each at once. A program implements such an object when
it simulates it.
-/
namespace AtomicObjects

open Transition

/-- A counter that is sold down: every sale gets the next lower number. -/
def seller (τ : Type*) (initial : Int) : System (List (τ × Int)) τ where
  initial := []
  step sales t := some (sales ++ [(t, initial - (sales.length + 1))])

/-- What holds of every entry and of the new one holds after appending it. -/
theorem forall_concat {α : Type*} {P : Nat → α → Prop} {l : List α} {a : α}
    (h : ∀ k x, l[k]? = some x → P k x) (ha : P l.length a) :
    ∀ k x, (l ++ [a])[k]? = some x → P k x := by
  intro k x hx
  rcases Nat.lt_trichotomy k l.length with hlt | heq | hgt
  · rw [List.getElem?_append_left hlt] at hx
    exact h k x hx
  · subst heq
    simp only [List.getElem?_concat_length, Option.some.injEq] at hx
    exact hx ▸ ha
  · rw [List.getElem?_eq_none (by simp; omega)] at hx
    cases hx

/-- The numbers go down one by one. -/
theorem seller_numbers {τ : Type*} {initial : Int} {sales : List (τ × Int)}
    (h : (seller τ initial).Reachable sales) :
    ∀ (k : Nat) (p : τ × Int), sales[k]? = some p → p.2 = initial - (k + 1) := by
  refine h.invariant (I := fun sales => ∀ (k : Nat) (p : τ × Int), sales[k]? = some p →
    p.2 = initial - (k + 1)) (by simp [seller]) ?_
  intro sales t sales' hi hs
  cases hs
  exact forall_concat hi rfl

inductive SlotAction (α : Type*) where
  | put (a : α)
  | take

/-- A place for one item: put waits until it is empty, take until it is full. -/
def slot (α : Type*) : System (List α) (SlotAction α) where
  initial := []
  step
    | [], .put a => some [a]
    | [_], .take => some []
    | _, _ => none

theorem slot_length {α : Type*} {items : List α} (h : (slot α).Reachable items) :
    items.length ≤ 1 := by
  refine h.invariant (I := fun items => items.length ≤ 1) (by simp [slot]) ?_
  intro items a items' _ hs
  simp only [slot] at hs
  split at hs
  · cases hs
    exact Nat.le_refl _
  · cases hs
    exact Nat.zero_le _
  · cases hs

inductive ExecutorAction (β : Type*) where
  | pass (block : β)
  | start

/-- The blocks passed and the blocks started: the next one started is the
first one passed that has not been started. -/
def executor (β : Type*) : System (List β × List β) (ExecutorAction β) where
  initial := ([], [])
  step
    | (passed, started), .pass block => some (passed ++ [block], started)
    | (passed, started), .start => match passed[started.length]? with
      | some block => some (passed, started ++ [block])
      | none => none

theorem executor_in_order {β : Type*} {passed started : List β}
    (h : (executor β).Reachable (passed, started)) : started <+: passed := by
  refine h.invariant (I := fun s => s.2 <+: s.1) (List.prefix_refl _) ?_
  rintro ⟨passed, started⟩ a s' hi hs
  obtain ⟨rest, hrest⟩ := hi
  change started ++ rest = passed at hrest
  subst hrest
  cases a with
  | pass block =>
    cases hs
    exact ⟨rest ++ [block], (List.append_assoc _ _ _).symm⟩
  | start =>
    cases rest with
    | nil => simp [executor] at hs
    | cons block rest =>
      simp only [executor, List.getElem?_append_right (Nat.le_refl _), Nat.sub_self,
        List.getElem?_cons_zero, Option.some.injEq] at hs
      subst hs
      exact ⟨rest, by simp⟩

end AtomicObjects
