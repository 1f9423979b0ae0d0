import IOSStudy.AtomicObjects
import IOSStudy.ConditionDemo

/-!
# addObjectConditionLock and deleteObjectConditionLock: an NSConditionLock

The condition value says whose turn it is: 1 lets a producer in, 2 a
consumer. It is also the number of the next state of a one-place hand-off,
which is why the array never holds two elements and is never emptied twice.
-/
namespace ConditionLockDemo

open Transition Locks

inductive Method where
  | addObjectConditionLock | deleteObjectConditionLock
  deriving DecidableEq, Repr

/-- The argument of `lockWhenCondition:`. -/
def Method.lockWhen : Method → Int
  | .addObjectConditionLock => 1
  | .deleteObjectConditionLock => 2

/-- The argument of `unlockWithCondition:`. -/
def Method.unlockWith : Method → Int
  | .addObjectConditionLock => 2
  | .deleteObjectConditionLock => 1

inductive Thread where
  | idle
  | lockWhenCondition (m : Method)
  | mutate (m : Method)
  | unlockWithCondition (m : Method)
  | raised
  deriving DecidableEq, Repr

/-- `completed` lists the completed calls and is not in the source. -/
structure State (τ : Type*) where
  conditionLock : ConditionLock τ
  mutableArray : List String
  thread : τ → Thread
  completed : List Method

inductive Action (τ : Type*) where
  | call (t : τ) (m : Method)
  | run (t : τ)

variable {τ : Type*} [DecidableEq τ]

def State.goto (s : State τ) (t : τ) (x : Thread) : State τ :=
  { s with thread := Function.update s.thread t x }

def Method.mutate : Method → List String → Option (List String)
  | .addObjectConditionLock, mutableArray => some (mutableArray ++ ["测试"])
  | .deleteObjectConditionLock, mutableArray => ConditionDemo.removeLastObject mutableArray

def runStep (s : State τ) (t : τ) : Option (State τ) :=
  match s.thread t with
  | .idle | .raised => none
  | .lockWhenCondition m => (s.conditionLock.lockWhenCondition m.lockWhen t).map fun l =>
      { s.goto t (.mutate m) with conditionLock := l }
  | .mutate m => match m.mutate s.mutableArray with
    | some l => some { s.goto t (.unlockWithCondition m) with mutableArray := l }
    | none => some (s.goto t .raised)
  | .unlockWithCondition m => (s.conditionLock.unlockWithCondition m.unlockWith t).map fun l =>
      { s.goto t .idle with conditionLock := l, completed := s.completed ++ [m] }

def step (s : State τ) : Action τ → Option (State τ)
  | .call t m => if s.thread t = .idle then some (s.goto t (.lockWhenCondition m)) else none
  | .run t => runStep s t

/-- `initWithCondition:1` and an empty array. -/
def initialState : State τ where
  conditionLock := ⟨.free, 1⟩
  mutableArray := []
  thread := fun _ => .idle
  completed := []

def system : System (State τ) (Action τ) := ⟨initialState, step⟩

/-- Everything a step can do, guards included. -/
inductive Fires (s : State τ) : Action τ → State τ → Prop where
  | call {t : τ} {m : Method} (ht : s.thread t = .idle) :
      Fires s (.call t m) (s.goto t (.lockWhenCondition m))
  | lock {t : τ} {m : Method} {l : ConditionLock τ} (ht : s.thread t = .lockWhenCondition m)
      (hl : s.conditionLock.lockWhenCondition m.lockWhen t = some l) :
      Fires s (.run t) { s.goto t (.mutate m) with conditionLock := l }
  | mutate {t : τ} {m : Method} {l : List String} (ht : s.thread t = .mutate m)
      (hm : m.mutate s.mutableArray = some l) :
      Fires s (.run t) { s.goto t (.unlockWithCondition m) with mutableArray := l }
  | raise {t : τ} {m : Method} (ht : s.thread t = .mutate m)
      (hm : m.mutate s.mutableArray = none) : Fires s (.run t) (s.goto t .raised)
  | unlock {t : τ} {m : Method} {l : ConditionLock τ} (ht : s.thread t = .unlockWithCondition m)
      (hl : s.conditionLock.unlockWithCondition m.unlockWith t = some l) :
      Fires s (.run t) { s.goto t .idle with conditionLock := l, completed := s.completed ++ [m] }

theorem system_fires {s s' : State τ} {a : Action τ} (h : system.step s a = some s') :
    Fires s a s' := by
  cases a with
  | call t m =>
    simp only [system, step, Option.ite_none_right_eq_some, Option.some.injEq] at h
    obtain ⟨ht, rfl⟩ := h
    exact .call ht
  | run t =>
    simp only [system, step, runStep] at h
    cases ht : s.thread t with
    | idle | raised => simp [ht] at h
    | lockWhenCondition m =>
      simp only [ht, Option.map_eq_some_iff] at h
      obtain ⟨l, hl, rfl⟩ := h
      exact .lock ht hl
    | mutate m =>
      cases hm : m.mutate s.mutableArray with
      | some l => simp only [ht, hm, Option.some.injEq] at h; subst h; exact .mutate ht hm
      | none => simp only [ht, hm, Option.some.injEq] at h; subst h; exact .raise ht hm
    | unlockWithCondition m =>
      simp only [ht, Option.map_eq_some_iff] at h
      obtain ⟨l, hl, rfl⟩ := h
      exact .unlock ht hl

def Thread.holds : Thread → Nat
  | .idle | .lockWhenCondition _ => 0
  | .mutate _ | .unlockWithCondition _ | .raised => 1

/-- The completed calls go add, delete, add, delete, and so on. -/
def Alternate (completed : List Method) : Prop :=
  ∀ k m, completed[k]? = some m → (m = .addObjectConditionLock ↔ k % 2 = 0)

/-- It is the turn of method m: the array and the completed calls are as m expects. -/
def Turn (s : State τ) : Method → Prop
  | .addObjectConditionLock => s.mutableArray = [] ∧ s.completed.length % 2 = 0
  | .deleteObjectConditionLock => s.mutableArray.length = 1 ∧ s.completed.length % 2 = 1

/-- Method m has changed the array and not yet handed over. -/
def Changed (s : State τ) : Method → Prop
  | .addObjectConditionLock => s.mutableArray.length = 1 ∧ s.completed.length % 2 = 0
  | .deleteObjectConditionLock => s.mutableArray = [] ∧ s.completed.length % 2 = 1

def Settled (s : State τ) : Prop := ∃ m : Method, s.conditionLock.condition = m.lockWhen ∧ Turn s m

def Inside (s : State τ) (_ : τ) : Thread → Prop
  | .mutate m => Turn s m
  | .unlockWithCondition m => Changed s m
  | .raised => False
  | .idle | .lockWhenCondition _ => True

structure Ordered (s : State τ) : Prop where
  guarded : Guarded s.conditionLock.mutex Thread.holds s.thread (Settled s) (Inside s)
  alternate : Alternate s.completed

theorem lockWhen_injective {m m' : Method} (h : m.lockWhen = m'.lockWhen) : m = m' := by
  cases m <;> cases m' <;> simp_all [Method.lockWhen]

omit [DecidableEq τ] in
theorem turn_mutates {s : State τ} {m : Method} (h : Turn s m) :
    ∃ l, m.mutate s.mutableArray = some l := by
  cases m with
  | addObjectConditionLock => exact ⟨_, rfl⟩
  | deleteObjectConditionLock =>
    obtain ⟨hlen, _⟩ := h
    have hne : s.mutableArray ≠ [] := by
      intro he
      simp [he] at hlen
    exact ⟨_, if_neg hne⟩

theorem alternate_append {completed : List Method} {m : Method} (h : Alternate completed)
    (hm : m = .addObjectConditionLock ↔ completed.length % 2 = 0) : Alternate (completed ++ [m]) :=
  AtomicObjects.forall_concat h hm

theorem ordered_initial : Ordered (initialState : State τ) where
  guarded := by
    refine ⟨.free fun _ => rfl, fun _ => ⟨.addObjectConditionLock, rfl, rfl, rfl⟩, fun t ht => ?_⟩
    simp [initialState, Thread.holds] at ht
  alternate := by simp [Alternate, initialState]

theorem ordered_step {s s' : State τ} {a : Action τ} (hi : Ordered s) (h : Fires s a s') :
    Ordered s' := by
  obtain ⟨hg, halt⟩ := hi
  cases h with
  | call ht => exact ⟨hg.outside (by simp [ht, Thread.holds]) rfl id fun _ _ h => h, halt⟩
  | @lock t m l ht hl =>
    obtain ⟨hc, _, hlock⟩ := ConditionLock.lockWhenCondition_some hl
    refine ⟨hg.acquire hlock (by simp [ht, Thread.holds]) rfl ?_, halt⟩
    rintro ⟨m', hm', hturn⟩
    exact lockWhen_injective (hm'.symm.trans hc) ▸ hturn
  | @mutate t m l ht hm =>
    refine ⟨hg.inside (by simp [ht, Thread.holds]) (by simp [ht, Thread.holds]) ?_, halt⟩
    rw [ht]
    intro hturn
    cases m with
    | addObjectConditionLock =>
      simp only [Method.mutate, Option.some.injEq] at hm
      subst hm
      exact ⟨by simp [hturn.1], hturn.2⟩
    | deleteObjectConditionLock =>
      have hlen := ConditionDemo.removeLastObject_length hm
      have hl : l.length = 0 := by have := hturn.1; omega
      exact ⟨List.length_eq_zero_iff.mp hl, hturn.2⟩
  | @raise t m ht hm =>
    have hq := hg.held t (by simp [ht, Thread.holds])
    rw [ht] at hq
    obtain ⟨l, hl⟩ := turn_mutates hq
    simp [hl] at hm
  | @unlock t m l ht hl =>
    obtain ⟨hc, hunlock⟩ := ConditionLock.unlockWithCondition_some hl
    have hq := hg.held t (by simp [ht, Thread.holds])
    rw [ht] at hq
    refine ⟨hg.release hunlock (by simp [ht, Thread.holds]) rfl fun _ => ?_, alternate_append halt ?_⟩
    · cases m with
      | addObjectConditionLock =>
        refine ⟨.deleteObjectConditionLock, hc, hq.1, ?_⟩
        have hlen := hq.2
        simp only [List.length_append, List.length_singleton]
        omega
      | deleteObjectConditionLock =>
        refine ⟨.addObjectConditionLock, hc, hq.1, ?_⟩
        have hlen := hq.2
        simp only [List.length_append, List.length_singleton]
        omega
    · cases m with
      | addObjectConditionLock => simpa using hq.2
      | deleteObjectConditionLock => simp [hq.2]

theorem reachable_ordered {s : State τ} (h : system.Reachable s) : Ordered s :=
  h.invariant ordered_initial fun _ _ _ hi hs => ordered_step hi (system_fires hs)

/-- To its users the array is a place for one item: adding waits until it is
empty, deleting until it is full. -/
def slotSimulation : Simulation (system : System (State τ) (Action τ)) (AtomicObjects.slot String) where
  rel s items := Ordered s ∧ s.mutableArray = items
  start := ⟨ordered_initial, rfl⟩
  step := by
    rintro s items a s' ⟨hi, rfl⟩ hs
    have hf := system_fires hs
    have hi' := ordered_step hi hf
    cases hf with
    | call _ | lock _ _ | raise _ _ | unlock _ _ => exact ⟨[], _, rfl, hi', rfl⟩
    | @mutate t m l ht hm =>
      have hturn := hi.guarded.held t (by simp [ht, Thread.holds])
      rw [ht] at hturn
      cases m with
      | addObjectConditionLock =>
        have hempty : s.mutableArray = [] := hturn.1
        simp only [Method.mutate, hempty, Option.some.injEq] at hm
        subst hm
        refine ⟨[.put "测试"], _, ?_, hi', rfl⟩
        simp [AtomicObjects.slot, hempty]
      | deleteObjectConditionLock =>
        obtain ⟨item, hone⟩ := List.length_eq_one_iff.mp hturn.1
        have hlen := ConditionDemo.removeLastObject_length hm
        rw [hturn.1] at hlen
        have hl : l = [] := List.length_eq_zero_iff.mp (by omega)
        subst hl
        refine ⟨[.take], _, ?_, hi', rfl⟩
        simp [AtomicObjects.slot, hone]

theorem reachable_slot {s : State τ} (h : system.Reachable s) :
    (AtomicObjects.slot String).Reachable s.mutableArray := by
  obtain ⟨items, ht, _, rfl⟩ := slotSimulation.reachable h
  exact ht

/-- The hand-off: at most one element, no removal from an empty array, the
free lock open to exactly one of the two methods, and strict alternation. -/
theorem hand_off {s : State τ} (h : system.Reachable s) :
    s.mutableArray.length ≤ 1 ∧
    (∀ t, s.thread t = .mutate .deleteObjectConditionLock → s.mutableArray ≠ []) ∧
    (∀ t, s.thread t ≠ .raised) ∧
    (s.conditionLock.mutex = .free →
      (s.conditionLock.condition = 1 ∧ s.mutableArray = [] ∨
        s.conditionLock.condition = 2 ∧ s.mutableArray.length = 1) ∧
      ∃ m : Method, ∀ (t : τ) (m' : Method),
        (s.conditionLock.lockWhenCondition m'.lockWhen t).isSome ↔ m' = m) ∧
    Alternate s.completed := by
  have ho := reachable_ordered h
  refine ⟨AtomicObjects.slot_length (reachable_slot h), ?_, ?_, ?_, ho.alternate⟩
  · intro t ht
    have hq := ho.guarded.held t (by simp [ht, Thread.holds])
    rw [ht] at hq
    intro he
    have hlen := hq.1
    simp [he] at hlen
  · intro t ht
    have hq := ho.guarded.held t (by simp [ht, Thread.holds])
    rw [ht] at hq
    exact hq
  · intro hfree
    obtain ⟨m, hc, hturn⟩ := ho.guarded.free hfree
    refine ⟨?_, m, fun t m' => ?_⟩
    · cases m with
      | addObjectConditionLock => exact .inl ⟨hc, hturn.1⟩
      | deleteObjectConditionLock => exact .inr ⟨hc, hturn.1⟩
    · rw [ConditionLock.lockWhenCondition_isSome hfree, hc]
      exact ⟨fun he => (lockWhen_injective he).symm, fun he => he ▸ rfl⟩

/-- The consumer asks first and has to wait for the producer. -/
theorem hand_off_once : ∃ s : State Bool, system.Reachable s ∧ s.mutableArray = [] ∧
    s.completed = [.addObjectConditionLock, .deleteObjectConditionLock] ∧ Alternate s.completed := by
  have hrun : (system.exec initialState
      [.call false .deleteObjectConditionLock, .call true .addObjectConditionLock, .run true,
        .run true, .run true, .run false, .run false, .run false]).any
      (fun s : State Bool => decide (s.mutableArray = [] ∧
        s.completed = [.addObjectConditionLock, .deleteObjectConditionLock])) = true := by decide
  obtain ⟨s, hr, hp⟩ := System.exists_of_exec hrun
  obtain ⟨harray, hcompleted⟩ := of_decide_eq_true hp
  exact ⟨s, hr, harray, hcompleted, (hand_off hr).2.2.2.2⟩

end ConditionLockDemo
