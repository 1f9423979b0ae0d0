import Mathlib.Data.List.Basic
import Mathlib.Logic.Function.Basic

/-!
# Singly linked lists in a heap

Nodes at addresses, each with a value and the address of the next one. A
segment is followed from its first address; writing the link of its last node
joins it to what comes then.
-/
namespace LinkedList

variable {α : Type*}

structure Node (α : Type*) where
  value : α
  next : Option Nat
  deriving DecidableEq, Repr

abbrev Heap (α : Type*) := Nat → Option (Node α)

/-- From p on there are these nodes, with their addresses, and then q. -/
def Segment (heap : Heap α) : Option Nat → List (Nat × α) → Option Nat → Prop
  | p, [], q => p = q
  | p, (a, x) :: l, q => p = some a ∧ ∃ n, heap a = some ⟨x, n⟩ ∧ Segment heap n l q

def addresses (l : List (Nat × α)) : List Nat := l.map Prod.fst

@[simp] theorem addresses_nil : addresses ([] : List (Nat × α)) = [] := rfl
@[simp] theorem addresses_cons (a : Nat) (x : α) (l : List (Nat × α)) :
    addresses ((a, x) :: l) = a :: addresses l := rfl
@[simp] theorem addresses_append (l l' : List (Nat × α)) :
    addresses (l ++ l') = addresses l ++ addresses l' := List.map_append

/-- The first and the last node of a list, or no node. -/
def first (l : List (Nat × α)) : Option Nat := (addresses l).head?
def last (l : List (Nat × α)) : Option Nat := (addresses l).getLast?

@[simp] theorem first_nil : first ([] : List (Nat × α)) = none := rfl
@[simp] theorem first_cons (a : Nat) (x : α) (l : List (Nat × α)) : first ((a, x) :: l) = some a := rfl
@[simp] theorem last_nil : last ([] : List (Nat × α)) = none := rfl
@[simp] theorem last_concat (l : List (Nat × α)) (a : Nat) (x : α) : last (l ++ [(a, x)]) = some a := by
  simp [last]

theorem last_append (l l' : List (Nat × α)) (h : l' ≠ []) : last (l ++ l') = last l' := by
  have hne : addresses l' ≠ [] := by simpa [addresses] using h
  rw [last, addresses_append]
  exact List.getLast?_append_of_ne_nil (addresses l) hne

/-- The link of a node is written, if there is such a node. -/
def setNext (heap : Heap α) (a : Nat) (next : Option Nat) : Option (Heap α) :=
  (heap a).map fun node => Function.update heap a (some { node with next := next })

namespace Segment

variable {heap heap' : Heap α} {p q r : Option Nat} {l l' : List (Nat × α)}

theorem append (h : Segment heap p l q) (h' : Segment heap q l' r) : Segment heap p (l ++ l') r := by
  induction l generalizing p with
  | nil =>
    cases h
    exact h'
  | cons y l ih =>
    obtain ⟨hp, n, hn, hrest⟩ := h
    exact ⟨hp, n, hn, ih hrest⟩

theorem split (h : Segment heap p (l ++ l') r) : ∃ q, Segment heap p l q ∧ Segment heap q l' r := by
  induction l generalizing p with
  | nil => exact ⟨p, rfl, h⟩
  | cons y l ih =>
    obtain ⟨hp, n, hn, hrest⟩ := h
    obtain ⟨q, hl, hl'⟩ := ih hrest
    exact ⟨q, ⟨hp, n, hn, hl⟩, hl'⟩

/-- A segment depends on its own nodes only. -/
theorem congr (h : Segment heap p l q) (hsame : ∀ a ∈ addresses l, heap' a = heap a) : Segment heap' p l q := by
  induction l generalizing p with
  | nil => exact h
  | cons y l ih =>
    obtain ⟨hp, n, hn, hrest⟩ := h
    refine ⟨hp, n, ?_, ih hrest fun a ha => hsame a (List.mem_cons_of_mem _ ha)⟩
    rw [hsame y.1 List.mem_cons_self]
    exact hn

theorem update (h : Segment heap p l q) {a : Nat} (c : Option (Node α)) (ha : a ∉ addresses l) :
    Segment (Function.update heap a c) p l q := by
  apply h.congr
  intro b hb
  have hba : b ≠ a := fun he => ha (he ▸ hb)
  exact Function.update_of_ne hba c heap

theorem first_eq (h : Segment heap p l none) : p = first l := by
  cases l with
  | nil => exact h
  | cons y l => exact h.1

theorem node (h : Segment heap p l q) {y : Nat × α} (hy : y ∈ l) : ∃ n, heap y.1 = some ⟨y.2, n⟩ := by
  induction l generalizing p with
  | nil => cases hy
  | cons z l ih =>
    obtain ⟨_, n, hn, hrest⟩ := h
    cases List.mem_cons.mp hy with
    | inl he =>
      subst he
      exact ⟨n, hn⟩
    | inr hmem => exact ih hrest hmem

/-- The link of the last node, whatever it was, is written. -/
theorem relink {a : Nat} {x : α} (h : Segment heap p (l ++ [(a, x)]) q) (ha : a ∉ addresses l) (r : Option Nat) :
    ∃ heap', setNext heap a r = some heap' ∧ heap' = Function.update heap a (some ⟨x, r⟩) ∧
      Segment heap' p (l ++ [(a, x)]) r := by
  obtain ⟨m, hl, hp, n, hn, _⟩ := h.split
  refine ⟨_, by simp [setNext, hn], rfl, ?_⟩
  refine (hl.update _ ha).append ⟨hp, r, Function.update_self _ _ _, rfl⟩

/-- A node is unlinked by writing the link before it. -/
theorem unlink {a b : Nat} {x y : α} {n : Option Nat} (h : Segment heap p (l ++ [(a, x)] ++ (b, y) :: l') q)
    (hb : heap b = some ⟨y, n⟩) (ha : a ∉ addresses l) (ha' : a ∉ addresses l') :
    ∃ heap', setNext heap a n = some heap' ∧ heap' = Function.update heap a (some ⟨x, n⟩) ∧
      Segment heap' p (l ++ [(a, x)] ++ l') q := by
  obtain ⟨m, hl, _, n', hn', hrest⟩ := h.split
  rw [hb] at hn'
  cases hn'
  obtain ⟨heap', hset, hheap', hjoined⟩ := hl.relink ha n
  subst hheap'
  exact ⟨_, hset, rfl, hjoined.append (hrest.update _ ha')⟩

end Segment

end LinkedList
