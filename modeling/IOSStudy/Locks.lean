import Mathlib.Data.Finset.Card
import Mathlib.Logic.Function.Basic

/-!
# Locks and the threads that hold them

A mutex records its owner and how many further acquisitions of the owner are
open. Its depth function says, thread by thread, how often the mutex is held;
the rules below keep that function equal to what the threads' own program
counters say, which is all that mutual exclusion needs.
-/
namespace Locks

/-- What a second acquisition by the owner does: wait forever, or nest. -/
inductive Kind where
  | normal | recursive
  deriving DecidableEq, Repr

inductive Mutex (τ : Type*) where
  | free
  | held (owner : τ) (nested : Nat)
  deriving DecidableEq, Repr

namespace Mutex

variable {τ : Type*} [DecidableEq τ]

/-- Acquire for thread t; none while another thread holds the mutex. -/
def lock (k : Kind) (t : τ) : Mutex τ → Option (Mutex τ)
  | .free => some (.held t 0)
  | .held u n => if u = t ∧ k = .recursive then some (.held u (n + 1)) else none

/-- Undo the latest acquisition of thread t; only the owner may do so. -/
def unlock (t : τ) : Mutex τ → Option (Mutex τ)
  | .free => none
  | .held u 0 => if u = t then some .free else none
  | .held u (n + 1) => if u = t then some (.held u n) else none

/-- How many acquisitions of thread t are open. -/
def depth : Mutex τ → τ → Nat
  | .free, _ => 0
  | .held u n, t => if u = t then n + 1 else 0

@[simp] theorem depth_free (t : τ) : (free : Mutex τ).depth t = 0 := rfl

@[simp] theorem lock_free (k : Kind) (t : τ) : (free : Mutex τ).lock k t = some (.held t 0) := rfl

theorem depth_exclusive (m : Mutex τ) {t u : τ} (ht : 0 < m.depth t) (hu : 0 < m.depth u) :
    t = u := by
  cases m with
  | free => simp at ht
  | held v n =>
    have hvt : v = t := by by_contra h; simp [depth, h] at ht
    have hvu : v = u := by by_contra h; simp [depth, h] at hu
    exact hvt.symm.trans hvu

theorem eq_free_iff (m : Mutex τ) : m = .free ↔ ∀ t, m.depth t = 0 := by
  cases m with
  | free => simp
  | held u n =>
    simp only [reduceCtorEq, false_iff]
    intro h
    have := h u
    simp [depth] at this

/-- Acquiring adds one acquisition of the thread and takes nothing from others,
who held nothing. -/
theorem depth_lock {k : Kind} {t : τ} {m m' : Mutex τ} (h : m.lock k t = some m') :
    m'.depth = Function.update m.depth t (m.depth t + 1) := by
  funext u
  cases m with
  | free =>
    cases h
    by_cases hu : u = t
    · subst hu; simp [depth]
    · simp [depth, hu, Ne.symm hu]
  | held v n =>
    simp only [lock, Option.ite_none_right_eq_some, Option.some.injEq] at h
    obtain ⟨⟨rfl, _⟩, rfl⟩ := h
    by_cases hu : u = v
    · subst hu; simp [depth]
    · simp [depth, hu, Ne.symm hu]

theorem lock_others {k : Kind} {t u : τ} {m m' : Mutex τ} (h : m.lock k t = some m')
    (hu : u ≠ t) : m.depth u = 0 := by
  cases m with
  | free => rfl
  | held v n =>
    simp only [lock, Option.ite_none_right_eq_some] at h
    obtain ⟨⟨rfl, _⟩, _⟩ := h
    simp [depth, Ne.symm hu]

/-- The mutex can be acquired exactly when no other thread is in the way. -/
theorem lock_recursive_isSome (m : Mutex τ) (t : τ) :
    (m.lock .recursive t).isSome ↔ ∀ u, u ≠ t → m.depth u = 0 := by
  cases m with
  | free => simp
  | held v n =>
    simp only [lock, and_true]
    by_cases hv : v = t
    · subst hv; simp +contextual [depth, eq_comm]
    · simp only [hv, if_false, Option.isSome_none, Bool.false_eq_true, false_iff]
      intro h
      have := h v hv
      simp [depth] at this

theorem depth_unlock {t : τ} {m m' : Mutex τ} (h : m.unlock t = some m') :
    0 < m.depth t ∧ m'.depth = Function.update m.depth t (m.depth t - 1) := by
  cases m with
  | free => simp [unlock] at h
  | held v n =>
    cases n with
    | zero =>
      simp only [unlock, Option.ite_none_right_eq_some, Option.some.injEq] at h
      obtain ⟨rfl, rfl⟩ := h
      refine ⟨by simp [depth], ?_⟩
      funext u
      by_cases hu : u = v
      · subst hu; simp [depth]
      · simp [depth, hu, Ne.symm hu]
    | succ n =>
      simp only [unlock, Option.ite_none_right_eq_some, Option.some.injEq] at h
      obtain ⟨rfl, rfl⟩ := h
      refine ⟨by simp [depth], ?_⟩
      funext u
      by_cases hu : u = v
      · subst hu; simp [depth]
      · simp [depth, hu, Ne.symm hu]

theorem unlock_isSome {t : τ} {m : Mutex τ} (h : 0 < m.depth t) : (m.unlock t).isSome := by
  cases m with
  | free => simp at h
  | held v n =>
    have hv : v = t := by by_contra hv; simp [depth, hv] at h
    cases n <;> simp [unlock, hv]

end Mutex

/-- A mutex that carries a condition value and can be waited for by value. -/
structure ConditionLock (τ : Type*) where
  mutex : Mutex τ
  condition : Int
  deriving DecidableEq, Repr

namespace ConditionLock

variable {τ : Type*} [DecidableEq τ]

/-- Acquire only when the lock is free and its condition has the given value. -/
def lockWhenCondition (c : Int) (t : τ) (l : ConditionLock τ) : Option (ConditionLock τ) :=
  if l.condition = c then (l.mutex.lock .normal t).map fun mutex => { l with mutex := mutex } else none

/-- Set the condition and release in one step. -/
def unlockWithCondition (c : Int) (t : τ) (l : ConditionLock τ) : Option (ConditionLock τ) :=
  (l.mutex.unlock t).map fun mutex => ⟨mutex, c⟩

theorem lockWhenCondition_some {c : Int} {t : τ} {l l' : ConditionLock τ}
    (h : l.lockWhenCondition c t = some l') :
    l.condition = c ∧ l'.condition = c ∧ l.mutex.lock .normal t = some l'.mutex := by
  simp only [lockWhenCondition, Option.ite_none_right_eq_some, Option.map_eq_some_iff] at h
  obtain ⟨hc, mutex, hl, rfl⟩ := h
  exact ⟨hc, hc, hl⟩

theorem unlockWithCondition_some {c : Int} {t : τ} {l l' : ConditionLock τ}
    (h : l.unlockWithCondition c t = some l') :
    l'.condition = c ∧ l.mutex.unlock t = some l'.mutex := by
  simp only [unlockWithCondition, Option.map_eq_some_iff] at h
  obtain ⟨mutex, hl, rfl⟩ := h
  exact ⟨rfl, hl⟩

/-- A free lock opens to a waiting thread exactly when the condition is the awaited one. -/
theorem lockWhenCondition_isSome {l : ConditionLock τ} (hfree : l.mutex = .free) (c : Int) (t : τ) :
    (l.lockWhenCondition c t).isSome ↔ l.condition = c := by
  by_cases hc : l.condition = c <;> simp [lockWhenCondition, hc, hfree]

end ConditionLock

/-- The mutex agrees with the threads: each is credited with exactly the
acquisitions that its local state shows as open. -/
def Tracks {τ π : Type*} [DecidableEq τ] (m : Mutex τ) (holds : π → Nat) (thread : τ → π) : Prop :=
  ∀ t, m.depth t = holds (thread t)

namespace Tracks

variable {τ π : Type*} [DecidableEq τ] {m m' : Mutex τ} {holds : π → Nat} {thread : τ → π}

theorem free (h : ∀ t, holds (thread t) = 0) : Tracks .free holds thread := by
  intro t
  simp [h t]

/-- A step that neither acquires nor releases. -/
theorem move (h : Tracks m holds thread) {t : τ} {x : π} (hx : holds x = holds (thread t)) :
    Tracks m holds (Function.update thread t x) := by
  intro u
  by_cases hu : u = t
  · subst hu; simp [hx, h u]
  · simp [hu, h u]

theorem lock (h : Tracks m holds thread) {k : Kind} {t : τ} {x : π}
    (hl : m.lock k t = some m') (hx : holds x = holds (thread t) + 1) :
    Tracks m' holds (Function.update thread t x) := by
  intro u
  rw [Mutex.depth_lock hl]
  by_cases hu : u = t
  · subst hu; simp [hx, h u]
  · simp [hu, h u]

theorem unlock (h : Tracks m holds thread) {t : τ} {x : π}
    (hl : m.unlock t = some m') (hx : holds x = holds (thread t) - 1) :
    Tracks m' holds (Function.update thread t x) := by
  intro u
  rw [(Mutex.depth_unlock hl).2]
  by_cases hu : u = t
  · subst hu; simp [hx, h u]
  · simp [hu, h u]

/-- Mutual exclusion. -/
theorem exclusive (h : Tracks m holds thread) {t u : τ} (ht : 0 < holds (thread t))
    (hu : 0 < holds (thread u)) : t = u :=
  m.depth_exclusive (by rwa [h t]) (by rwa [h u])

theorem eq_free_iff (h : Tracks m holds thread) : m = .free ↔ ∀ t, holds (thread t) = 0 := by
  rw [Mutex.eq_free_iff]
  exact forall_congr' fun t => by rw [h t]

theorem others (h : Tracks m holds thread) {k : Kind} {t u : τ} (hl : m.lock k t = some m')
    (hu : u ≠ t) : holds (thread u) = 0 := by
  rw [← h u]
  exact Mutex.lock_others hl hu

end Tracks

/-- One thread moves: what the others and the new local state satisfy, all do. -/
theorem forall_move {τ π : Type*} [DecidableEq τ] {p : π → Prop} {thread : τ → π} {t : τ} {x : π}
    (h : ∀ u, u ≠ t → p (thread u)) (hx : p x) (u : τ) : p (Function.update thread t x u) :=
  (Function.forall_update_iff thread fun _ y => p y).mpr ⟨hx, h⟩ u

/-- No two threads are in local states of the given kind. -/
def AtMostOne {τ π : Type*} (p : π → Prop) (thread : τ → π) : Prop :=
  ∀ t u, p (thread t) → p (thread u) → t = u

/-- One thread moves while the kind changes from p to q: the others must not
become of kind q, and the moving thread only when no other is. -/
theorem AtMostOne.move {τ π : Type*} [DecidableEq τ] {p q : π → Prop} {thread : τ → π} {t : τ} {x : π}
    (h : AtMostOne p thread) (ho : ∀ u, u ≠ t → q (thread u) → p (thread u))
    (hx : q x → ∀ u, p (thread u) → u = t) : AtMostOne q (Function.update thread t x) := by
  intro u v hu hv
  by_cases hut : u = t <;> by_cases hvt : v = t
  · rw [hut, hvt]
  · subst hut
    rw [Function.update_self] at hu
    rw [Function.update_of_ne hvt] at hv
    exact (hx hu v (ho v hvt hv)).symm
  · subst hvt
    rw [Function.update_of_ne hut] at hu
    rw [Function.update_self] at hv
    exact hx hv u (ho u hut hu)
  · rw [Function.update_of_ne hut] at hu
    rw [Function.update_of_ne hvt] at hv
    exact h u v (ho u hut hu) (ho v hvt hv)

/-- The finite set of the threads that are in a local state of the given kind. -/
def Collects {τ π : Type*} (p : π → Prop) (thread : τ → π) (set : Finset τ) : Prop :=
  ∀ t, t ∈ set ↔ p (thread t)

namespace Collects

variable {τ π : Type*} [DecidableEq τ] {p : π → Prop} {thread : τ → π} {set : Finset τ} {t : τ} {x : π}

/-- A thread moves and stays of its kind. -/
theorem move (h : Collects p thread set) (hx : p x ↔ p (thread t)) :
    Collects p (Function.update thread t x) set := by
  intro u
  by_cases hut : u = t
  · subst hut; rw [Function.update_self, hx, h u]
  · rw [Function.update_of_ne hut, h u]

theorem insert (h : Collects p thread set) (hx : p x) :
    Collects p (Function.update thread t x) (insert t set) := by
  intro u
  by_cases hut : u = t
  · subst hut; simp [hx]
  · simp [hut, h u]

theorem erase (h : Collects p thread set) (hx : ¬ p x) :
    Collects p (Function.update thread t x) (set.erase t) := by
  intro u
  by_cases hut : u = t
  · subst hut; simp [hx]
  · simp [hut, h u]

theorem card_insert (h : Collects p thread set) (ht : ¬ p (thread t)) :
    (Insert.insert t set).card = set.card + 1 :=
  Finset.card_insert_of_notMem fun hmem => ht ((h t).mp hmem)

theorem card_erase (h : Collects p thread set) (ht : p (thread t)) :
    (set.erase t).card + 1 = set.card := Finset.card_erase_add_one ((h t).mpr ht)

end Collects

/-- A counting semaphore by its free permits. -/
structure Semaphore where
  permits : Nat
  deriving DecidableEq, Repr

/-- `dispatch_semaphore_wait` goes on once it has got a permit. -/
def Semaphore.wait (sem : Semaphore) : Option Semaphore :=
  if sem.permits = 0 then none else some ⟨sem.permits - 1⟩

def Semaphore.signal (sem : Semaphore) : Semaphore := ⟨sem.permits + 1⟩

theorem Semaphore.wait_some {sem sem' : Semaphore} (h : sem.wait = some sem') :
    sem'.permits + 1 = sem.permits := by
  simp only [wait, Option.ite_none_left_eq_some, Option.some.injEq] at h
  obtain ⟨hpos, rfl⟩ := h
  simp only
  omega

/-- Each of the n permits is free or with a thread in a local state of kind p. -/
def Shares {τ π : Type*} (sem : Semaphore) (n : Nat) (p : π → Prop) (thread : τ → π) : Prop :=
  ∃ inside : Finset τ, Collects p thread inside ∧ sem.permits + inside.card = n

namespace Shares

variable {τ π : Type*} {sem sem' : Semaphore} {n : Nat} {p : π → Prop} {thread : τ → π}
  {t : τ} {x : π}

theorem free (h : ∀ t, ¬ p (thread t)) : Shares ⟨n⟩ n p thread :=
  ⟨∅, fun t => by simp [h t], by simp⟩

theorem at_most (h : Shares sem n p thread) {set : Finset τ} (hset : ∀ t ∈ set, p (thread t)) :
    set.card ≤ n := by
  obtain ⟨inside, hinside, hcard⟩ := h
  have hsub : set ⊆ inside := fun t ht => (hinside t).mpr (hset t ht)
  have hle := Finset.card_le_card hsub
  omega

/-- With nobody inside all permits are free. -/
theorem all_free (h : Shares sem n p thread) (hp : ∀ t, ¬ p (thread t)) : sem.permits = n := by
  obtain ⟨inside, hinside, hcard⟩ := h
  have hempty : inside = ∅ := Finset.eq_empty_of_forall_notMem fun t ht => hp t ((hinside t).mp ht)
  rw [hempty, Finset.card_empty] at hcard
  exact hcard

variable [DecidableEq τ]

theorem move (h : Shares sem n p thread) (hx : p x ↔ p (thread t)) :
    Shares sem n p (Function.update thread t x) := by
  obtain ⟨inside, hinside, hcard⟩ := h
  exact ⟨inside, hinside.move hx, hcard⟩

theorem wait (h : Shares sem n p thread) (hw : sem.wait = some sem') (ht : ¬ p (thread t))
    (hx : p x) : Shares sem' n p (Function.update thread t x) := by
  obtain ⟨inside, hinside, hcard⟩ := h
  have hpermits := Semaphore.wait_some hw
  refine ⟨insert t inside, hinside.insert hx, ?_⟩
  rw [hinside.card_insert ht]
  omega

theorem signal (h : Shares sem n p thread) (ht : p (thread t)) (hx : ¬ p x) :
    Shares sem.signal n p (Function.update thread t x) := by
  obtain ⟨inside, hinside, hcard⟩ := h
  have herase := hinside.card_erase ht
  refine ⟨inside.erase t, hinside.erase hx, ?_⟩
  simp only [Semaphore.signal]
  omega

/-- One permit is a lock. -/
theorem exclusive (h : Shares sem 1 p thread) : AtMostOne p thread := by
  intro t u ht hu
  by_contra htu
  have hpair : ({t, u} : Finset τ).card = 2 := Finset.card_pair htu
  have hinside : ∀ v ∈ ({t, u} : Finset τ), p (thread v) := by
    intro v hv
    rcases Finset.mem_insert.mp hv with rfl | hv
    · exact ht
    · exact Finset.mem_singleton.mp hv ▸ hu
  have hle := h.at_most hinside
  omega

end Shares

/-- A mutex with the resource it protects: R holds of the resource while the
mutex is free, and Q t x while thread t holds it in local state x. -/
structure Guarded {τ π : Type*} [DecidableEq τ] (m : Mutex τ) (holds : π → Nat) (thread : τ → π)
    (R : Prop) (Q : τ → π → Prop) : Prop where
  tracks : Tracks m holds thread
  free : m = .free → R
  held : ∀ t, 0 < holds (thread t) → Q t (thread t)

namespace Guarded

variable {τ π : Type*} [DecidableEq τ] {m m' : Mutex τ} {holds : π → Nat} {thread : τ → π}
  {R R' : Prop} {Q Q' : τ → π → Prop} {t : τ} {x : π}

/-- The acquiring thread takes the resource over from the free mutex. -/
theorem acquire (g : Guarded m holds thread R Q) {k : Kind} (hl : m.lock k t = some m')
    (ht : holds (thread t) = 0) (hx : holds x = 1) (hq : R → Q' t x) :
    Guarded m' holds (Function.update thread t x) R' Q' := by
  have htracks := g.tracks.lock hl (show holds x = holds (thread t) + 1 by omega)
  have hfree : m = .free := by
    refine g.tracks.eq_free_iff.mpr fun u => ?_
    by_cases hut : u = t
    · rw [hut, ht]
    · exact g.tracks.others hl hut
  refine ⟨htracks, fun hm => ?_, fun u hu => ?_⟩
  · have h0 := htracks.eq_free_iff.mp hm t
    simp [hx] at h0
  · by_cases hut : u = t
    · subst hut; simpa using hq (g.free hfree)
    · have h0 := g.tracks.others hl hut
      simp [hut, h0] at hu

/-- The holder may change the resource at will: nobody else looks at it. -/
theorem inside (g : Guarded m holds thread R Q) (ht : 0 < holds (thread t))
    (hx : holds x = holds (thread t)) (hq : Q t (thread t) → Q' t x) :
    Guarded m holds (Function.update thread t x) R' Q' := by
  refine ⟨g.tracks.move hx, fun hm => ?_, fun u hu => ?_⟩
  · have h0 := g.tracks.eq_free_iff.mp hm t
    omega
  · by_cases hut : u = t
    · subst hut; simpa using hq (g.held u ht)
    · have hu' : 0 < holds (thread u) := by simpa [hut] using hu
      exact absurd (g.tracks.exclusive hu' ht) hut

/-- Either the resource is at rest or some thread holds it. -/
theorem rest_or_held (g : Guarded m holds thread R Q) :
    m = .free ∧ R ∨ ∃ t, 0 < holds (thread t) ∧ Q t (thread t) := by
  by_cases hm : m = .free
  · exact .inl ⟨hm, g.free hm⟩
  · right
    rw [g.tracks.eq_free_iff] at hm
    obtain ⟨t, ht⟩ := not_forall.mp hm
    exact ⟨t, Nat.pos_of_ne_zero ht, g.held t (Nat.pos_of_ne_zero ht)⟩

/-- Releasing the last acquisition gives the resource back. -/
theorem release (g : Guarded m holds thread R Q) (hl : m.unlock t = some m')
    (ht : holds (thread t) = 1) (hx : holds x = 0) (hr : Q t (thread t) → R') :
    Guarded m' holds (Function.update thread t x) R' Q' := by
  refine ⟨g.tracks.unlock hl (by omega), fun _ => hr (g.held t (by omega)), fun u hu => ?_⟩
  by_cases hut : u = t
  · subst hut; simp [hx] at hu
  · have hu' : 0 < holds (thread u) := by simpa [hut] using hu
    exact absurd (g.tracks.exclusive hu' (by omega : 0 < holds (thread t))) hut

/-- A thread outside the mutex moves and leaves the resource alone. -/
theorem outside (g : Guarded m holds thread R Q) (ht : holds (thread t) = 0) (hx : holds x = 0)
    (hr : R → R') (hq : ∀ u y, Q u y → Q' u y) :
    Guarded m holds (Function.update thread t x) R' Q' := by
  refine ⟨g.tracks.move (by omega), fun hm => hr (g.free hm), fun u hu => ?_⟩
  by_cases hut : u = t
  · subst hut; simp [hx] at hu
  · have hu' : 0 < holds (thread u) := by simpa [hut] using hu
    simpa [hut] using hq u _ (g.held u hu')

end Guarded

end Locks
