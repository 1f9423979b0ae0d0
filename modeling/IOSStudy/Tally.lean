import Mathlib.Algebra.BigOperators.Group.Finset.Basic
import Mathlib.Algebra.BigOperators.Group.Finset.Piecewise
import Mathlib.Algebra.Order.BigOperators.Group.Finset
import Mathlib.Logic.Function.Basic

/-!
# Totals of a quantity spread over many places

Almost all places hold nothing, and a step changes what one place holds: the
total moves by the difference.
-/
namespace Tally

variable {τ : Type*} [DecidableEq τ]

/-- The places hold n altogether. -/
def Total (held : τ → Nat) (n : Nat) : Prop :=
  ∃ places : Finset τ, (∀ t, t ∉ places → held t = 0) ∧ places.sum held = n

namespace Total

variable {held : τ → Nat} {n : Nat}

omit [DecidableEq τ] in
theorem zero (h : ∀ t, held t = 0) : Total held 0 := ⟨∅, fun t _ => h t, by simp⟩

/-- The places may be taken to include any one of them. -/
theorem including (h : Total held n) (t : τ) :
    ∃ places : Finset τ, t ∈ places ∧ (∀ u, u ∉ places → held u = 0) ∧ places.sum held = n := by
  obtain ⟨places, hout, hsum⟩ := h
  refine ⟨insert t places, Finset.mem_insert_self t places, ?_, ?_⟩
  · intro u hu
    exact hout u fun hmem => hu (Finset.mem_insert_of_mem hmem)
  · rw [← hsum]
    refine (Finset.sum_subset (Finset.subset_insert t places) ?_).symm
    intro u _ hu
    exact hout u hu

theorem le (h : Total held n) (t : τ) : held t ≤ n := by
  obtain ⟨places, ht, _, hsum⟩ := h.including t
  rw [← hsum]
  exact Finset.single_le_sum (fun _ _ => Nat.zero_le _) ht

/-- What one place gains or loses the total gains or loses. -/
theorem update (h : Total held n) (t : τ) (x : Nat) {n' : Nat} (hn : n' + held t = n + x) :
    Total (Function.update held t x) n' := by
  obtain ⟨places, ht, hout, hsum⟩ := h.including t
  refine ⟨places, ?_, ?_⟩
  · intro u hu
    have hut : u ≠ t := fun he => hu (he ▸ ht)
    rw [Function.update_of_ne hut, hout u hu]
  · have hrest : (places.erase t).sum held + held t = n :=
      (Finset.sum_erase_add places held ht).trans hsum
    rw [Finset.sum_update_of_mem ht, Finset.sdiff_singleton_eq_erase]
    change x + (places.erase t).sum held = n'
    omega

omit [DecidableEq τ] in
/-- Where there is something altogether, some place holds something. -/
theorem exists_pos (h : Total held n) (hn : 0 < n) : ∃ t, 0 < held t := by
  obtain ⟨places, _, hsum⟩ := h
  by_contra hnone
  have hzero : places.sum held = 0 :=
    Finset.sum_eq_zero fun t _ => Nat.eq_zero_of_not_pos fun ht => hnone ⟨t, ht⟩
  omega

theorem unique {m : Nat} (h : Total held n) (h' : Total held m) : n = m := by
  obtain ⟨places, hout, hsum⟩ := h
  obtain ⟨places', hout', hsum'⟩ := h'
  have hleft : (places ∪ places').sum held = n := by
    rw [← hsum]
    exact (Finset.sum_subset Finset.subset_union_left fun t _ ht => hout t ht).symm
  have hright : (places ∪ places').sum held = m := by
    rw [← hsum']
    exact (Finset.sum_subset Finset.subset_union_right fun t _ ht => hout' t ht).symm
  omega

end Total

end Tally
