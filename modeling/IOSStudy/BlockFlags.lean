import Mathlib.Data.BitVec
import IOSStudy.CasLoop

/-!
# The flags word of a block

The `int32_t` that a block and a `__block` variable keep their reference count
in, and the three loops of runtime.cpp that change it. A count that has reached
the mask stays there; the bit below the count says that the last reference is
gone.
-/
namespace BlockFlags

open CasLoop

abbrev Word := BitVec 32

def blockDeallocating : Word := 0x0001#32
def blockRefcountMask : Word := 0xfffe#32
def blockNeedsFree : Word := 1#32 <<< 24
def blockHasCopyDispose : Word := 1#32 <<< 25
def blockIsGlobal : Word := 1#32 <<< 28
def blockUseStret : Word := 1#32 <<< 29
def blockHasSignature : Word := 1#32 <<< 30
def blockHasExtendedLayout : Word := 1#32 <<< 31

inductive Call where
  | incr
  | incrNotDeallocating
  | decrShouldDeallocate
  deriving DecidableEq, Repr

/-- The first loop returns an integer, the others a truth value. -/
inductive Reply where
  | value (w : Word)
  | truth (b : Bool)
  deriving DecidableEq, Repr

def latchingIncrInt (oldValue : Word) : Turn Word Reply :=
  if oldValue &&& blockRefcountMask = blockRefcountMask then .answer (.value blockRefcountMask)
  else .swap (oldValue + 2) (.value (oldValue + 2))

def latchingIncrIntNotDeallocating (oldValue : Word) : Turn Word Reply :=
  if oldValue &&& blockDeallocating ≠ 0 then .answer (.truth false)
  else if oldValue &&& blockRefcountMask = blockRefcountMask then .answer (.truth true)
  else .swap (oldValue + 2) (.truth true)

def latchingDecrIntShouldDeallocate (oldValue : Word) : Turn Word Reply :=
  if oldValue &&& blockRefcountMask = blockRefcountMask then .answer (.truth false)
  else if oldValue &&& blockRefcountMask = 0 then .answer (.truth false)
  else if oldValue &&& (blockRefcountMask ||| blockDeallocating) = 2 then
    .swap (oldValue - 1) (.truth true)
  else .swap (oldValue - 2) (.truth false)

def turn : Call → Word → Turn Word Reply
  | .incr => latchingIncrInt
  | .incrNotDeallocating => latchingIncrIntNotDeallocating
  | .decrShouldDeallocate => latchingDecrIntShouldDeallocate

/-- A call that meets no other thread. -/
def apply (call : Call) (w : Word) : Word × Reply := (turn call w).result w

/-- The count the mask cuts out. -/
def refcount (w : Word) : Nat := (w &&& blockRefcountMask).toNat / 2

def Deallocating (w : Word) : Prop := w &&& blockDeallocating ≠ 0

instance (w : Word) : Decidable (Deallocating w) := inferInstanceAs (Decidable (_ ≠ _))

/-- The count at which the mask is full. -/
def latch : Nat := 32767

def Latched (w : Word) : Prop := refcount w = latch

instance (w : Word) : Decidable (Latched w) := inferInstanceAs (Decidable (_ = _))

/-- The bits above the count: what the compiler said of the block, and where it is. -/
def kind (w : Word) : Word := w &&& 0xffff0000#32

/-- Words as numbers: the kind, the count and the last bit. -/
theorem toNat_and_mask (w : Word) : (w &&& blockRefcountMask).toNat = 2 * (w.toNat / 2 % 32768) := by
  have hhalf : (w.toNat &&& 65534) / 2 = w.toNat / 2 % 32768 := by
    rw [Nat.and_div_two]
    exact Nat.and_two_pow_sub_one_eq_mod (w.toNat / 2) 15
  have heven : (w.toNat &&& 65534) % 2 = 0 := by
    have h := Nat.and_mod_two_pow (a := w.toNat) (b := 65534) (n := 1)
    simpa using h
  change w.toNat &&& 65534 = _
  omega

theorem refcount_eq (w : Word) : refcount w = w.toNat / 2 % 32768 := by
  rw [refcount, toNat_and_mask]
  omega

theorem deallocating_iff (w : Word) : Deallocating w ↔ w.toNat % 2 = 1 := by
  have hone : (w &&& blockDeallocating).toNat = w.toNat % 2 :=
    Nat.and_two_pow_sub_one_eq_mod w.toNat 1
  rw [Deallocating, Ne, ← BitVec.toNat_inj, hone]
  simp

theorem kind_toNat (w : Word) : (kind w).toNat = w.toNat / 65536 * 65536 := by
  have hhigh : (w.toNat &&& 4294901760) / 2 ^ 16 = w.toNat / 2 ^ 16 := by
    rw [Nat.and_div_two_pow]
    change w.toNat / 2 ^ 16 &&& 2 ^ 16 - 1 = _
    rw [Nat.and_two_pow_sub_one_eq_mod]
    have hlt := w.isLt
    omega
  have hlow : (w.toNat &&& 4294901760) % 2 ^ 16 = 0 := by
    rw [Nat.and_mod_two_pow]
    simp
  change w.toNat &&& 4294901760 = _
  omega

theorem kind_eq_iff (w v : Word) : kind w = kind v ↔ w.toNat / 65536 = v.toNat / 65536 := by
  rw [← BitVec.toNat_inj, kind_toNat, kind_toNat]
  omega

theorem latched_iff (w : Word) : w &&& blockRefcountMask = blockRefcountMask ↔ Latched w := by
  rw [Latched, latch, refcount_eq, ← BitVec.toNat_inj, toNat_and_mask]
  change _ = 65534 ↔ _
  omega

theorem refcount_eq_zero_iff (w : Word) : w &&& blockRefcountMask = 0 ↔ refcount w = 0 := by
  rw [refcount_eq, ← BitVec.toNat_inj, toNat_and_mask]
  change _ = 0 ↔ _
  omega

/-- The last reference of a block that is not deallocating. -/
theorem last_iff (w : Word) :
    w &&& (blockRefcountMask ||| blockDeallocating) = 2 ↔ refcount w = 1 ∧ ¬ Deallocating w := by
  have hboth : (w &&& (blockRefcountMask ||| blockDeallocating)).toNat = w.toNat % 65536 :=
    Nat.and_two_pow_sub_one_eq_mod w.toNat 16
  rw [deallocating_iff, refcount_eq, ← BitVec.toNat_inj, hboth]
  change _ = 2 ↔ _
  omega

/-- Adding two counts one reference more and changes nothing else. -/
theorem incremented (w : Word) (h : ¬ Latched w) :
    refcount (w + 2) = refcount w + 1 ∧ (Deallocating (w + 2) ↔ Deallocating w) ∧
      kind (w + 2) = kind w := by
  have hlt := w.isLt
  have hadd : (w + 2).toNat = w.toNat + 2 := by
    rw [Latched, latch, refcount_eq] at h
    rw [BitVec.toNat_add]
    change (w.toNat + 2) % 4294967296 = _
    omega
  rw [Latched, latch, refcount_eq] at h
  rw [refcount_eq, refcount_eq, deallocating_iff, deallocating_iff, kind_eq_iff, hadd]
  omega

/-- Taking two away counts one reference less and changes nothing else. -/
theorem decremented (w : Word) (h : refcount w ≠ 0) :
    refcount (w - 2) + 1 = refcount w ∧ (Deallocating (w - 2) ↔ Deallocating w) ∧
      kind (w - 2) = kind w := by
  have hlt := w.isLt
  rw [refcount_eq] at h
  have hsub : (w - 2).toNat = w.toNat - 2 := by
    rw [BitVec.toNat_sub]
    change (4294967296 - 2 + w.toNat) % 4294967296 = _
    omega
  rw [refcount_eq, refcount_eq, deallocating_iff, deallocating_iff, kind_eq_iff, hsub]
  omega

/-- Taking one away from the last reference turns the count into the mark. -/
theorem marked (w : Word) (h : refcount w = 1) (hd : ¬ Deallocating w) :
    refcount (w - 1) = 0 ∧ Deallocating (w - 1) ∧ kind (w - 1) = kind w := by
  have hlt := w.isLt
  rw [refcount_eq] at h
  rw [deallocating_iff] at hd
  have hsub : (w - 1).toNat = w.toNat - 1 := by
    rw [BitVec.toNat_sub]
    change (4294967296 - 1 + w.toNat) % 4294967296 = _
    omega
  rw [refcount_eq, deallocating_iff, kind_eq_iff, hsub]
  omega

/-- What a call does to the count, one line for each way the loops end. -/
inductive Effect (w : Word) : Call → Word → Reply → Prop
  | latchedIncr : Latched w → Effect w .incr w (.value blockRefcountMask)
  | incr (w' : Word) : ¬ Latched w → refcount w' = refcount w + 1 → (Deallocating w' ↔ Deallocating w) →
      kind w' = kind w → Effect w .incr w' (.value w')
  | refused : Deallocating w → Effect w .incrNotDeallocating w (.truth false)
  | latchedRetain : ¬ Deallocating w → Latched w → Effect w .incrNotDeallocating w (.truth true)
  | retained (w' : Word) : ¬ Deallocating w → ¬ Latched w → refcount w' = refcount w + 1 →
      ¬ Deallocating w' → kind w' = kind w → Effect w .incrNotDeallocating w' (.truth true)
  | latchedDecr : Latched w → Effect w .decrShouldDeallocate w (.truth false)
  | underflow : refcount w = 0 → Effect w .decrShouldDeallocate w (.truth false)
  | last (w' : Word) : refcount w = 1 → ¬ Deallocating w → refcount w' = 0 → Deallocating w' →
      kind w' = kind w → Effect w .decrShouldDeallocate w' (.truth true)
  | decr (w' : Word) : ¬ Latched w → refcount w' + 1 = refcount w → (Deallocating w' ↔ Deallocating w) →
      (refcount w' = 0 → Deallocating w) → kind w' = kind w →
      Effect w .decrShouldDeallocate w' (.truth false)

theorem apply_effect (call : Call) (w : Word) : Effect w call (apply call w).1 (apply call w).2 := by
  cases call with
  | incr =>
    simp only [apply, turn, latchingIncrInt, latched_iff]
    split
    · next hl => exact .latchedIncr hl
    · next hl =>
      obtain ⟨hcount, hdealloc, hkind⟩ := incremented w hl
      exact .incr _ hl hcount hdealloc hkind
  | incrNotDeallocating =>
    simp only [apply, turn, latchingIncrIntNotDeallocating, latched_iff]
    split
    · next hd => exact .refused hd
    · next hd =>
      split
      · next hl => exact .latchedRetain hd hl
      · next hl =>
        obtain ⟨hcount, hdealloc, hkind⟩ := incremented w hl
        exact .retained _ hd hl hcount (fun h => hd (hdealloc.mp h)) hkind
  | decrShouldDeallocate =>
    simp only [apply, turn, latchingDecrIntShouldDeallocate, latched_iff, refcount_eq_zero_iff, last_iff]
    split
    · next hl => exact .latchedDecr hl
    · next hl =>
      split
      · next hz => exact .underflow hz
      · next hz =>
        split
        · next hone =>
          obtain ⟨hcount, hdealloc, hkind⟩ := marked w hone.1 hone.2
          exact .last _ hone.1 hone.2 hcount hdealloc hkind
        · next hone =>
          obtain ⟨hcount, hdealloc, hkind⟩ := decremented w hz
          refine .decr _ hl hcount hdealloc ?_ hkind
          intro hzero
          by_contra hd
          have hone' : refcount w = 1 := by
            rw [← hcount, show refcount (w - 2) = 0 from hzero]
          exact hone ⟨hone', hd⟩

theorem apply_incr (w : Word) :
    (Deallocating (apply .incr w).1 ↔ Deallocating w) ∧ kind (apply .incr w).1 = kind w := by
  have heffect := apply_effect .incr w
  generalize (apply .incr w).1 = w' at heffect ⊢
  generalize (apply .incr w).2 = reply at heffect
  cases heffect with
  | latchedIncr _ => exact ⟨Iff.rfl, rfl⟩
  | incr _ _ _ hd hkind => exact ⟨hd, hkind⟩

theorem apply_refused {w : Word} (hd : Deallocating w) :
    apply .incrNotDeallocating w = (w, .truth false) := by
  have hturn : latchingIncrIntNotDeallocating w = .answer (.truth false) := if_pos hd
  simp [apply, turn, hturn, Turn.result]

theorem apply_retained {w : Word} (hlive : ¬ Deallocating w) :
    (apply .incrNotDeallocating w).2 = .truth true ∧
      (Deallocating (apply .incrNotDeallocating w).1 ↔ Deallocating w) ∧
      kind (apply .incrNotDeallocating w).1 = kind w := by
  have heffect := apply_effect .incrNotDeallocating w
  generalize (apply .incrNotDeallocating w).1 = w' at heffect ⊢
  generalize (apply .incrNotDeallocating w).2 = reply at heffect ⊢
  cases heffect with
  | refused hd => exact absurd hd hlive
  | latchedRetain _ _ => exact ⟨rfl, Iff.rfl, rfl⟩
  | retained _ _ _ _ hd hkind => exact ⟨rfl, by simp [hd, hlive], hkind⟩

/-- A bit above the count is read off the kind. -/
theorem and_eq_of_kind {w v bit : Word} (h : kind w = kind v) (hbit : 0xffff0000#32 &&& bit = bit) :
    w &&& bit = v &&& bit := by
  calc w &&& bit = w &&& (0xffff0000#32 &&& bit) := by rw [hbit]
    _ = kind w &&& bit := (BitVec.and_assoc w _ _).symm
    _ = kind v &&& bit := by rw [h]
    _ = v &&& (0xffff0000#32 &&& bit) := BitVec.and_assoc v _ _
    _ = v &&& bit := by rw [hbit]

theorem needsFree_of_kind {w v : Word} (h : kind w = kind v) : w &&& blockNeedsFree = v &&& blockNeedsFree :=
  and_eq_of_kind h (by decide)

/-- The mask has one bit. -/
theorem needsFree_eq_of_ne {w : Word} (h : w &&& blockNeedsFree ≠ 0) : w &&& blockNeedsFree = blockNeedsFree := by
  have hbit : blockNeedsFree = BitVec.twoPow 32 24 := by decide
  rw [hbit, BitVec.and_twoPow] at h ⊢
  split at h
  · next hset => rw [if_pos hset]
  · exact absurd rfl h

/-- The flags of the copy that `_Block_copy` makes of a block on the stack. -/
def copiedFlags (w : Word) : Word :=
  w &&& ~~~(blockRefcountMask ||| blockDeallocating) ||| (blockNeedsFree ||| 2)

theorem copiedFlags_and (w bit : Word) : copiedFlags w &&& bit =
    w &&& (~~~(blockRefcountMask ||| blockDeallocating) &&& bit) ||| ((blockNeedsFree ||| 2) &&& bit) := by
  rw [copiedFlags, BitVec.and_or_distrib_right, BitVec.and_assoc]

theorem copiedFlags_needsFree (w : Word) : copiedFlags w &&& blockNeedsFree ≠ 0 := by
  intro h
  rw [copiedFlags_and] at h
  exact absurd (BitVec.or_eq_zero_iff.mp h).2 (by decide)

theorem refcount_copiedFlags (w : Word) : refcount (copiedFlags w) = 1 := by
  rw [refcount, copiedFlags_and]
  have hmask : ~~~(blockRefcountMask ||| blockDeallocating) &&& blockRefcountMask = 0#32 := by decide
  rw [hmask, BitVec.and_zero, BitVec.zero_or]
  decide

theorem not_deallocating_copiedFlags (w : Word) : ¬ Deallocating (copiedFlags w) := by
  rw [Deallocating, copiedFlags_and]
  have hmark : ~~~(blockRefcountMask ||| blockDeallocating) &&& blockDeallocating = 0#32 := by decide
  rw [hmark, BitVec.and_zero, BitVec.zero_or]
  decide

/-- What the compiler said of the block it says of the copy. -/
theorem copiedFlags_compiler (w : Word) {bit : Word}
    (hhigh : ~~~(blockRefcountMask ||| blockDeallocating) &&& bit = bit)
    (hother : (blockNeedsFree ||| 2) &&& bit = 0) : copiedFlags w &&& bit = w &&& bit := by
  rw [copiedFlags_and, hhigh, hother]
  exact BitVec.or_zero

/-- The flags of the copy that `_Block_byref_copy` makes: one reference for the
caller, one for the stack. -/
def byrefCopiedFlags (w : Word) : Word := w ||| (blockNeedsFree ||| 4)

theorem byrefCopiedFlags_needsFree (w : Word) : byrefCopiedFlags w &&& blockNeedsFree ≠ 0 := by
  intro h
  rw [byrefCopiedFlags, BitVec.and_or_distrib_right] at h
  exact absurd (BitVec.or_eq_zero_iff.mp h).2 (by decide)

theorem refcount_byrefCopiedFlags {w : Word} (h : w &&& blockRefcountMask = 0) :
    refcount (byrefCopiedFlags w) = 2 := by
  rw [refcount, byrefCopiedFlags, BitVec.and_or_distrib_right, h]
  decide

theorem not_deallocating_byrefCopiedFlags {w : Word} (h : ¬ Deallocating w) :
    ¬ Deallocating (byrefCopiedFlags w) := by
  have hw : w &&& blockDeallocating = 0 := by simpa [Deallocating] using h
  rw [Deallocating, byrefCopiedFlags, BitVec.and_or_distrib_right, hw]
  decide

theorem byrefCopiedFlags_compiler (w : Word) {bit : Word} (hother : (blockNeedsFree ||| 4) &&& bit = 0) :
    byrefCopiedFlags w &&& bit = w &&& bit := by
  rw [byrefCopiedFlags, BitVec.and_or_distrib_right, hother]
  exact BitVec.or_zero

/-- The count says how many references there are, unless it is latched. -/
def Accounts (w : Word) (references : Nat) : Prop :=
  (Latched w ∧ ¬ Deallocating w) ∨
    (refcount w = references ∧ (Deallocating w ↔ references = 0))

namespace Accounts

variable {w : Word} {n : Nat}

theorem not_deallocating (h : Accounts w n) (hpos : 0 < n) : ¬ Deallocating w := by
  cases h with
  | inl hl => exact hl.2
  | inr hr =>
    rw [hr.2]
    omega

theorem of_fresh (hcount : refcount w = n) (hpos : n ≠ 0) (hfresh : ¬ Deallocating w) : Accounts w n :=
  .inr ⟨hcount, by simp [hfresh, hpos]⟩

theorem eq_zero (h : Accounts w n) (hd : Deallocating w) : n = 0 := by
  by_contra hn
  exact h.not_deallocating (Nat.pos_of_ne_zero hn) hd

theorem not_latched_of_one (h : refcount w = 1) : ¬ Latched w := by
  rw [Latched, h]
  decide

/-- One of the references is retained once more. -/
theorem incr (h : Accounts w n) (hfree : ¬ Deallocating w) : Accounts (apply .incr w).1 (n + 1) := by
  have heffect := apply_effect .incr w
  generalize (apply .incr w).1 = w' at heffect ⊢
  generalize (apply .incr w).2 = reply at heffect
  cases heffect with
  | latchedIncr hl => exact .inl ⟨hl, hfree⟩
  | incr _ hl hcount hd _ =>
    cases h with
    | inl h => exact absurd h.1 hl
    | inr h =>
      exact .inr ⟨by rw [hcount, h.1], by simp [hd, hfree]⟩

/-- A weak reference becomes one more reference, or the block is on its way out. -/
theorem incrNotDeallocating (h : Accounts w n) :
    (n = 0 ∧ Deallocating w ∧ apply .incrNotDeallocating w = (w, .truth false)) ∨
      (Accounts (apply .incrNotDeallocating w).1 (n + 1) ∧
        (apply .incrNotDeallocating w).2 = .truth true ∧
        kind (apply .incrNotDeallocating w).1 = kind w) := by
  have heffect := apply_effect .incrNotDeallocating w
  have hpair : apply .incrNotDeallocating w =
      ((apply .incrNotDeallocating w).1, (apply .incrNotDeallocating w).2) := rfl
  rw [hpair]
  generalize (apply .incrNotDeallocating w).1 = w' at heffect ⊢
  generalize (apply .incrNotDeallocating w).2 = reply at heffect ⊢
  cases heffect with
  | refused hd =>
    refine .inl ⟨?_, hd, rfl⟩
    cases h with
    | inl h => exact absurd hd h.2
    | inr h => exact h.2.mp hd
  | latchedRetain hd hl => exact .inr ⟨.inl ⟨hl, hd⟩, rfl, rfl⟩
  | retained _ hd hl hcount hd' hkind =>
    refine .inr ⟨?_, rfl, hkind⟩
    cases h with
    | inl h => exact absurd h.1 hl
    | inr h => exact .inr ⟨by rw [hcount, h.1], by simp [hd']⟩

/-- One of the references is given up: the last one to go sets the mark, and
only then is the caller told. -/
theorem decr (h : Accounts w (n + 1)) :
    Accounts (apply .decrShouldDeallocate w).1 n ∧
      ((apply .decrShouldDeallocate w).2 = .truth true ↔ Deallocating (apply .decrShouldDeallocate w).1) ∧
      kind (apply .decrShouldDeallocate w).1 = kind w := by
  have hfree := h.not_deallocating (Nat.succ_pos n)
  have heffect := apply_effect .decrShouldDeallocate w
  generalize (apply .decrShouldDeallocate w).1 = w' at heffect ⊢
  generalize (apply .decrShouldDeallocate w).2 = reply at heffect ⊢
  have hexact : ¬ Latched w → refcount w = n + 1 := by
    intro hl
    cases h with
    | inl h => exact absurd h.1 hl
    | inr h => exact h.1
  cases heffect with
  | latchedDecr hl => exact ⟨.inl ⟨hl, hfree⟩, by simp [hfree], rfl⟩
  | underflow hz =>
    have hl : ¬ Latched w := by
      rw [Latched, hz]
      decide
    have hcount := hexact hl
    omega
  | last _ hone _ hcount hd hkind =>
    have hn := hexact (not_latched_of_one hone)
    exact ⟨.inr ⟨by omega, by simp only [hd, true_iff]; omega⟩, by simp [hd], hkind⟩
  | decr _ hl hcount hd hzero hkind =>
    have hn := hexact hl
    have hleft : refcount w' ≠ 0 := fun hz => hfree (hzero hz)
    exact ⟨.inr ⟨by omega, by simp only [hd, hfree, false_iff]; omega⟩, by simp [hd, hfree], hkind⟩

end Accounts

end BlockFlags
