import Mathlib.Data.List.Basic

/-!
# Concurrent dispatch queues with barriers

Blocks start in any order the barriers allow: a barrier block runs alone,
after everything submitted before it and before everything submitted after
it. The queue keeps this as a field, so that what follows from it needs no
invariant of the program that uses the queue.
-/
namespace BarrierQueue

/-- A block is submitted, starts, runs its body, and returns. -/
inductive Phase where
  | queued | executing | executed
  deriving DecidableEq, Repr

structure Item (β : Type*) where
  barrier : Bool
  phase : Phase
  body : β

variable {β : Type*}

/-- Once y has started, y and every block x before it are ordinary blocks. -/
def Apart (x y : Item β) : Prop := y.phase ≠ .queued → x.barrier = false ∧ y.barrier = false

/-- The blocks submitted and not returned, in order of submission. -/
structure Queue (β : Type*) where
  items : List (Item β)
  exclusive : items.Pairwise Apart

/-- What is left of a block after its next step. -/
def Item.next (x : Item β) : List (Item β) :=
  match x.phase with
  | .queued => [{ x with phase := .executing }]
  | .executing => [{ x with phase := .executed }]
  | .executed => []

/-- No barrier is ahead, and nothing at all is when the block is a barrier. A
block that has started stays free to go on. -/
def Free (before : List (Item β)) (x : Item β) : Prop :=
  ∀ z ∈ before, z.barrier = false ∧ x.barrier = false

instance (before : List (Item β)) (x : Item β) : Decidable (Free before x) :=
  inferInstanceAs (Decidable (∀ z ∈ before, _))

theorem mem_next {x y : Item β} (h : y ∈ x.next) : y.barrier = x.barrier ∧ y.body = x.body := by
  simp only [Item.next] at h
  cases hp : x.phase with
  | queued | executing =>
    simp only [hp, List.mem_singleton] at h
    subst h
    exact ⟨rfl, rfl⟩
  | executed => simp [hp] at h

theorem exists_mem_next {x : Item β} (h : x.phase ≠ .executed) : ∃ y ∈ x.next, y.body = x.body := by
  simp only [Item.next]
  cases hp : x.phase with
  | queued | executing => exact ⟨_, List.mem_singleton_self _, rfl⟩
  | executed => exact absurd hp h

theorem next_pairwise (R : Item β → Item β → Prop) (x : Item β) : x.next.Pairwise R := by
  simp only [Item.next]
  cases x.phase with
  | queued | executing => exact List.pairwise_singleton R _
  | executed => exact .nil

theorem exclusive_next {before after : List (Item β)} {x : Item β}
    (h : (before ++ x :: after).Pairwise Apart) (hfree : Free before x) :
    (before ++ (x.next ++ after)).Pairwise Apart := by
  obtain ⟨hbefore, hrest, hcross⟩ := List.pairwise_append.mp h
  obtain ⟨hx, hafter⟩ := List.pairwise_cons.mp hrest
  apply List.pairwise_append.mpr
  refine ⟨hbefore, List.pairwise_append.mpr ⟨next_pairwise Apart x, hafter, ?_⟩, ?_⟩
  · intro y hy z hz hstarted
    rw [(mem_next hy).1]
    exact hx z hz hstarted
  · intro z hz y hy
    rcases List.mem_append.mp hy with hy | hy
    · intro _
      rw [(mem_next hy).1]
      exact hfree z hz
    · exact hcross z hz y (List.mem_cons_of_mem x hy)

theorem split_at {items : List (Item β)} {i : Nat} {x : Item β} (h : items[i]? = some x) :
    items = items.take i ++ x :: items.drop (i + 1) := by
  obtain ⟨hi, hget⟩ := List.getElem?_eq_some_iff.mp h
  rw [← hget, List.getElem_cons_drop, List.take_append_drop]

namespace Queue

def empty : Queue β := ⟨[], .nil⟩

/-- `dispatch_barrier_async` submits a barrier, `dispatch_sync` an ordinary block. -/
def submit (q : Queue β) (barrier : Bool) (body : β) : Queue β where
  items := q.items ++ [⟨barrier, .queued, body⟩]
  exclusive := by
    apply List.pairwise_append.mpr
    refine ⟨q.exclusive, List.pairwise_singleton _ _, ?_⟩
    intro x _ y hy hstarted
    simp only [List.mem_singleton] at hy
    simp [hy] at hstarted

/-- The next step of the block at place i, with the block as it was. -/
def advance (q : Queue β) (i : Nat) : Option (Item β × Queue β) :=
  match h : q.items[i]? with
  | some x => if hfree : Free (q.items.take i) x then
      some (x, ⟨q.items.take i ++ (x.next ++ q.items.drop (i + 1)),
        exclusive_next (split_at h ▸ q.exclusive) hfree⟩) else none
  | none => none

@[simp] theorem empty_items : (empty : Queue β).items = [] := rfl
@[simp] theorem submit_items (q : Queue β) (barrier : Bool) (body : β) :
    (q.submit barrier body).items = q.items ++ [⟨barrier, .queued, body⟩] := rfl

theorem advance_some {q q' : Queue β} {i : Nat} {x : Item β} (h : q.advance i = some (x, q')) :
    ∃ before after, q.items = before ++ x :: after ∧ q'.items = before ++ (x.next ++ after) := by
  simp only [advance] at h
  split at h
  · rename_i y hy
    simp only [Option.dite_none_right_eq_some, Option.some.injEq, Prod.mk.injEq] at h
    obtain ⟨_, rfl, rfl⟩ := h
    exact ⟨_, _, split_at hy, rfl⟩
  · cases h

theorem mem_advance {q q' : Queue β} {i : Nat} {x y : Item β} (h : q.advance i = some (x, q'))
    (hy : y ∈ q'.items) : ∃ z ∈ q.items, y.barrier = z.barrier ∧ y.body = z.body := by
  obtain ⟨before, after, hq, hq'⟩ := advance_some h
  rw [hq'] at hy
  rw [hq]
  rcases List.mem_append.mp hy with hy | hy
  · exact ⟨y, by simp [hy], rfl, rfl⟩
  · rcases List.mem_append.mp hy with hy | hy
    · exact ⟨x, by simp, mem_next hy⟩
    · exact ⟨y, by simp [hy], rfl, rfl⟩

/-- Only an executed block leaves. -/
theorem mem_of_advance {q q' : Queue β} {i : Nat} {x z : Item β} (h : q.advance i = some (x, q'))
    (hx : x.phase ≠ .executed) (hz : z ∈ q.items) : ∃ y ∈ q'.items, y.body = z.body := by
  obtain ⟨before, after, hq, hq'⟩ := advance_some h
  rw [hq] at hz
  rw [hq']
  simp only [List.mem_append, List.mem_cons] at hz
  rcases hz with hz | rfl | hz
  · exact ⟨z, by simp [hz], rfl⟩
  · obtain ⟨y, hy, hbody⟩ := exists_mem_next hx
    exact ⟨y, by simp [hy], hbody⟩
  · exact ⟨z, by simp [hz], rfl⟩

/-- A barrier that has started is the first block, and nothing after it has started. -/
theorem barrier_alone {q : Queue β} {before after : List (Item β)} {x : Item β}
    (hq : q.items = before ++ x :: after) (hx : x.phase ≠ .queued) (hb : x.barrier = true) :
    before = [] ∧ ∀ y ∈ after, y.phase = .queued := by
  obtain ⟨_, hrest, hcross⟩ := List.pairwise_append.mp (hq ▸ q.exclusive)
  obtain ⟨hafter, _⟩ := List.pairwise_cons.mp hrest
  constructor
  · apply List.eq_nil_iff_forall_not_mem.mpr
    intro z hz
    have hapart := hcross z hz x (by simp) hx
    simp [hb] at hapart
  · intro y hy
    by_contra hy'
    have hapart := hafter y hy hy'
    simp [hb] at hapart

/-- No barrier is ahead of a block that has started. -/
theorem started_after_barriers {q : Queue β} {before after : List (Item β)} {x : Item β}
    (hq : q.items = before ++ x :: after) (hx : x.phase ≠ .queued) :
    ∀ z ∈ before, z.barrier = false := by
  obtain ⟨_, _, hcross⟩ := List.pairwise_append.mp (hq ▸ q.exclusive)
  intro z hz
  exact (hcross z hz x (by simp) hx).1

end Queue

end BarrierQueue
