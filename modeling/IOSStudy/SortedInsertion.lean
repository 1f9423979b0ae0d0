import Mathlib.Algebra.Ring.Nat
import Mathlib.Data.List.Sort

/-!
# Insertion into a sorted list at a place that is searched

A test that holds up to some index and not from there on is searched in steps
that are halved, or from the end. In a list that is sorted by a key the place
behind all entries whose key is not larger is such an index, and what is
inserted there comes behind its equals.
-/
namespace SortedInsertion

/-- The test holds below b and not from b on. -/
structure Boundary (p : Nat → Bool) (n b : Nat) : Prop where
  le : b ≤ n
  below : ∀ i < b, p i = true
  above : ∀ i, b ≤ i → i < n → p i = false

/-- The index advances by a step if the test holds there. -/
def probe (p : Nat → Bool) (n add idx : Nat) : Nat × Bool :=
  let testIdx := idx + add
  if testIdx < n && p testIdx then (testIdx, true) else (idx, false)

/-- The steps are the powers of two below 2 ^ bits, from the largest to 1, and then 0. -/
def search (p : Nat → Bool) (n : Nat) : Nat → Nat → Nat × Bool
  | 0, idx => probe p n 0 idx
  | bits + 1, idx => search p n bits (probe p n (2 ^ bits) idx).1

/-- From the end to behind the last entry at which the test holds. -/
def searchBack (p : Nat → Bool) : Nat → Nat
  | 0 => 0
  | idx + 1 => if p idx then idx + 1 else searchBack p idx

section

variable {p : Nat → Bool} {n b : Nat}

theorem Boundary.probe (h : Boundary p n b) (add idx : Nat) :
    probe p n add idx = if idx + add < b then (idx + add, true) else (idx, false) := by
  rw [SortedInsertion.probe]
  by_cases hlt : idx + add < b
  · have hn : idx + add < n := Nat.lt_of_lt_of_le hlt h.le
    simp [hlt, hn, h.below _ hlt]
  · by_cases hn : idx + add < n
    · have hno := h.above (idx + add) (by omega) hn
      simp [hlt, hn, hno]
    · simp [hlt, hn]

/-- The search ends at the boundary: the last index at which the test holds is
at most 2 ^ bits - 1 away. -/
theorem Boundary.search (h : Boundary p n b) {bits idx : Nat} (hidx : idx = 0 ∨ idx < b)
    (hreach : b ≤ idx + 2 ^ bits) :
    (if (search p n bits idx).2 then (search p n bits idx).1 + 1 else (search p n bits idx).1) = b := by
  induction bits generalizing idx with
  | zero =>
    rw [SortedInsertion.search, h.probe]
    by_cases hlt : idx + 0 < b
    · rw [if_pos hlt]
      simp only [Nat.pow_zero] at hreach
      change idx + 0 + 1 = b
      omega
    · rw [if_neg hlt]
      change idx = b
      omega
  | succ bits ih =>
    rw [SortedInsertion.search, h.probe]
    rw [Nat.pow_succ] at hreach
    by_cases hlt : idx + 2 ^ bits < b
    · rw [if_pos hlt]
      exact ih (.inr hlt) (by omega)
    · rw [if_neg hlt]
      exact ih hidx (by omega)

theorem Boundary.searchBack (h : Boundary p n b) : searchBack p n = b := by
  obtain ⟨hle, hbelow, habove⟩ := h
  induction n with
  | zero => exact (Nat.le_zero.mp hle).symm
  | succ n ih =>
    rw [SortedInsertion.searchBack]
    by_cases hb : b ≤ n
    · rw [habove n hb (Nat.lt_succ_self n)]
      exact ih hb fun i hi hn => habove i hi (Nat.lt_succ_of_lt hn)
    · rw [hbelow n (by omega), if_pos rfl]
      omega

end

section

variable {α κ : Type*} [LinearOrder κ] (key : α → κ)

/-- Sorted by the key, entries with one key in any order. -/
def Sorted (l : List α) : Prop := l.Pairwise fun a b => key a ≤ key b

/-- Behind all entries whose key is not larger. -/
def insertSorted (x : α) (l : List α) : List α := l.orderedInsert (fun a b => key a < key b) x

variable {key} {l : List α}

theorem insertSorted_eq (x : α) (l : List α) : insertSorted key x l =
    (l.takeWhile fun a => decide (key a ≤ key x)) ++ x :: l.dropWhile fun a => decide (key a ≤ key x) := by
  rw [insertSorted, List.orderedInsert_eq_take_drop]
  simp only [not_lt]

theorem insertSorted_perm (x : α) (l : List α) : (insertSorted key x l).Perm (x :: l) :=
  List.perm_orderedInsert _ x l

theorem mem_insertSorted {x a : α} : a ∈ insertSorted key x l ↔ a = x ∨ a ∈ l := by
  rw [(insertSorted_perm x l).mem_iff, List.mem_cons]

theorem Sorted.insertSorted (h : Sorted key l) (x : α) : Sorted key (insertSorted key x l) := by
  induction l with
  | nil => exact List.pairwise_singleton _ x
  | cons a l ih =>
    obtain ⟨hfirst, hrest⟩ := List.pairwise_cons.mp h
    by_cases hlt : key x < key a
    · rw [SortedInsertion.insertSorted, List.orderedInsert_cons, if_pos hlt]
      refine List.pairwise_cons.mpr ⟨fun b hb => ?_, h⟩
      cases List.mem_cons.mp hb with
      | inl he =>
        rw [he]
        exact hlt.le
      | inr hmem => exact hlt.le.trans (hfirst b hmem)
    · rw [SortedInsertion.insertSorted, List.orderedInsert_cons, if_neg hlt]
      refine List.pairwise_cons.mpr ⟨fun b hb => ?_, ih hrest⟩
      cases mem_insertSorted.mp hb with
      | inl he =>
        rw [he]
        exact not_lt.mp hlt
      | inr hmem => exact hfirst b hmem

theorem Sorted.congr {key' : α → κ} (h : Sorted key l) (hsame : ∀ a ∈ l, key' a = key a) : Sorted key' l := by
  refine List.Pairwise.imp_of_mem ?_ h
  intro a b ha hb hle
  rw [hsame a ha, hsame b hb]
  exact hle

theorem Sorted.erase [DecidableEq α] (h : Sorted key l) (x : α) : Sorted key (l.erase x) :=
  h.sublist List.erase_sublist

/-- The entries whose key is at most k are the first ones. -/
theorem Sorted.boundary (h : Sorted key l) (k : κ) :
    Boundary (fun i => l[i]?.any fun a => decide (key a ≤ k)) l.length
      (l.takeWhile fun a => decide (key a ≤ k)).length := by
  induction l with
  | nil => exact ⟨Nat.le_refl 0, nofun, nofun⟩
  | cons a l ih =>
    obtain ⟨hfirst, hrest⟩ := List.pairwise_cons.mp h
    obtain ⟨hle, hbelow, habove⟩ := ih hrest
    by_cases ha : key a ≤ k
    · rw [List.takeWhile_cons_of_pos (by simpa using ha), List.length_cons, List.length_cons]
      refine ⟨Nat.succ_le_succ hle, fun i hi => ?_, fun i hi hn => ?_⟩
      · cases i with
        | zero => simpa using ha
        | succ i => simpa using hbelow i (by omega)
      · cases i with
        | zero => omega
        | succ i => simpa using habove i (by omega) (by omega)
    · rw [List.takeWhile_cons_of_neg (by simpa using ha)]
      refine ⟨Nat.zero_le _, nofun, fun i _ hn => ?_⟩
      cases i with
      | zero => simpa using ha
      | succ i =>
        have hi : i < l.length := by simpa using hn
        have hlt : k < key l[i] := (not_le.mp ha).trans_le (hfirst _ (List.getElem_mem hi))
        simpa [hi] using hlt

theorem insertIdx_takeWhile (p : α → Bool) (x : α) (l : List α) :
    l.insertIdx (l.takeWhile p).length x = l.takeWhile p ++ x :: l.dropWhile p := by
  induction l with
  | nil => rfl
  | cons a l ih =>
    by_cases ha : p a = true
    · rw [List.takeWhile_cons_of_pos ha, List.dropWhile_cons_of_pos ha, List.length_cons,
        List.insertIdx_succ_cons, ih, List.cons_append]
    · rw [List.takeWhile_cons_of_neg ha, List.dropWhile_cons_of_neg ha]
      rfl

end

end SortedInsertion
