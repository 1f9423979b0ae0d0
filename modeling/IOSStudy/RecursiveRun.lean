import IOSStudy.Transition
import IOSStudy.Locks

/-!
# recursiveRun: a counter shared by all instances, a lock owned by one

The function-level `static int count` belongs to the class, the recursive lock
to one view controller. The suspended callers of a recursion all continue at
the same place, the unlock, so a call stack is the number of those callers and
the program counter of the innermost call.
-/
namespace RecursiveRun

open Transition Locks

inductive PC where
  | lock | log | test | read | write (old : Nat) | recurse | unlock
  deriving DecidableEq, Repr

inductive Thread (ι : Type*) where
  | idle
  | active (self : ι) (pc : PC) (callers : Nat)
  deriving DecidableEq, Repr

/-- Not in the source: what a thread has done since its outermost call began. -/
structure Tally where
  acquired : Nat
  released : Nat
  steps : Nat
  deriving DecidableEq, Repr

structure State (τ ι : Type*) where
  count : Nat
  recursiveLock : ι → Mutex τ
  thread : τ → Thread ι
  logged : List Nat
  tally : τ → Tally

inductive Action (τ ι : Type*) where
  | call (t : τ) (self : ι)
  | run (t : τ)

inductive Demo where
  | pthreadMutexDemo | nsLockDemo
  deriving DecidableEq, Repr

/-- `PTHREAD_MUTEX_RECURSIVE` in `initRecursiveMutexLock:`, and an `NSRecursiveLock`. -/
def Demo.recursiveLock : Demo → Kind
  | .pthreadMutexDemo => .recursive
  | .nsLockDemo => .recursive

@[simp] theorem Demo.recursiveLock_eq (d : Demo) : d.recursiveLock = .recursive := by
  cases d <;> rfl

variable {τ ι : Type*} [DecidableEq τ] [DecidableEq ι]

def Tally.step (y : Tally) : Tally := { y with steps := y.steps + 1 }
def Tally.acquire (y : Tally) : Tally := { y.step with acquired := y.acquired + 1 }
def Tally.release (y : Tally) : Tally := { y.step with released := y.released + 1 }

def State.goto (s : State τ ι) (t : τ) (x : Thread ι) (y : Tally) : State τ ι :=
  { s with thread := Function.update s.thread t x, tally := Function.update s.tally t y }

/-- Where the innermost call of a thread returns to. -/
def Thread.return (self : ι) : Nat → Thread ι
  | 0 => .idle
  | callers + 1 => .active self .unlock callers

def runStep (kind : Kind) (s : State τ ι) (t : τ) : Option (State τ ι) :=
  match s.thread t with
  | .idle => none
  | .active self pc callers =>
    let y := s.tally t
    match pc with
    | .lock => ((s.recursiveLock self).lock kind t).map fun mutex =>
        { s.goto t (.active self .log callers) y.acquire with
          recursiveLock := Function.update s.recursiveLock self mutex }
    | .log => some { s.goto t (.active self .test callers) y.step with logged := s.logged ++ [s.count] }
    | .test => some (s.goto t (.active self (if s.count < 10 then .read else .unlock) callers) y.step)
    | .read => some (s.goto t (.active self (.write s.count) callers) y.step)
    | .write old => some { s.goto t (.active self .recurse callers) y.step with count := old + 1 }
    | .recurse => some (s.goto t (.active self .lock (callers + 1)) y.step)
    | .unlock => ((s.recursiveLock self).unlock t).map fun mutex =>
        { s.goto t (.return self callers) y.release with
          recursiveLock := Function.update s.recursiveLock self mutex }

def step (kind : Kind) (s : State τ ι) : Action τ ι → Option (State τ ι)
  | .call t self => match s.thread t with
    | .idle => some (s.goto t (.active self .lock 0) ⟨0, 0, 0⟩)
    | .active _ _ _ => none
  | .run t => runStep kind s t

def initialState : State τ ι where
  count := 0
  recursiveLock := fun _ => .free
  thread := fun _ => .idle
  logged := []
  tally := fun _ => ⟨0, 0, 0⟩

/-- Any threads call recursiveRun any number of times on any instances. -/
def system (kind : Kind) : System (State τ ι) (Action τ ι) := ⟨initialState, step kind⟩

/-- Open acquisitions: every suspended caller holds one, the innermost call
from its lock to its unlock. -/
def Thread.opened : Thread ι → Nat
  | .idle => 0
  | .active _ .lock callers => callers
  | .active _ _ callers => callers + 1

def Thread.holds (self : ι) : Thread ι → Nat
  | .idle => 0
  | .active i pc callers => if i = self then (Thread.active i pc callers).opened else 0

/-- Everything a step can do, guards included. -/
inductive Fires (kind : Kind) (s : State τ ι) : Action τ ι → State τ ι → Prop where
  | call {t : τ} {self : ι} (ht : s.thread t = .idle) :
      Fires kind s (.call t self) (s.goto t (.active self .lock 0) ⟨0, 0, 0⟩)
  | lock {t : τ} {self : ι} {callers : Nat} {mutex : Mutex τ}
      (ht : s.thread t = .active self .lock callers)
      (hl : (s.recursiveLock self).lock kind t = some mutex) :
      Fires kind s (.run t) { s.goto t (.active self .log callers) (s.tally t).acquire with
        recursiveLock := Function.update s.recursiveLock self mutex }
  | log {t : τ} {self : ι} {callers : Nat} (ht : s.thread t = .active self .log callers) :
      Fires kind s (.run t) { s.goto t (.active self .test callers) (s.tally t).step with
        logged := s.logged ++ [s.count] }
  | test {t : τ} {self : ι} {callers : Nat} (ht : s.thread t = .active self .test callers) :
      Fires kind s (.run t)
        (s.goto t (.active self (if s.count < 10 then .read else .unlock) callers) (s.tally t).step)
  | read {t : τ} {self : ι} {callers : Nat} (ht : s.thread t = .active self .read callers) :
      Fires kind s (.run t) (s.goto t (.active self (.write s.count) callers) (s.tally t).step)
  | write {t : τ} {self : ι} {old callers : Nat} (ht : s.thread t = .active self (.write old) callers) :
      Fires kind s (.run t) { s.goto t (.active self .recurse callers) (s.tally t).step with
        count := old + 1 }
  | recurse {t : τ} {self : ι} {callers : Nat} (ht : s.thread t = .active self .recurse callers) :
      Fires kind s (.run t) (s.goto t (.active self .lock (callers + 1)) (s.tally t).step)
  | unlock {t : τ} {self : ι} {callers : Nat} {mutex : Mutex τ}
      (ht : s.thread t = .active self .unlock callers)
      (hl : (s.recursiveLock self).unlock t = some mutex) :
      Fires kind s (.run t) { s.goto t (.return self callers) (s.tally t).release with
        recursiveLock := Function.update s.recursiveLock self mutex }

theorem step_fires {kind : Kind} {s s' : State τ ι} {a : Action τ ι}
    (h : step kind s a = some s') : Fires kind s a s' := by
  cases a with
  | call t self =>
    cases ht : s.thread t with
    | idle => simp only [step, ht, Option.some.injEq] at h; subst h; exact .call ht
    | active i pc callers => simp [step, ht] at h
  | run t =>
    simp only [step, runStep] at h
    cases ht : s.thread t with
    | idle => simp [ht] at h
    | active self pc callers =>
      cases pc with
      | lock =>
        simp only [ht, Option.map_eq_some_iff] at h
        obtain ⟨mutex, hl, rfl⟩ := h
        exact .lock ht hl
      | unlock =>
        simp only [ht, Option.map_eq_some_iff] at h
        obtain ⟨mutex, hl, rfl⟩ := h
        exact .unlock ht hl
      | log => simp only [ht, Option.some.injEq] at h; subst h; exact .log ht
      | test => simp only [ht, Option.some.injEq] at h; subst h; exact .test ht
      | read => simp only [ht, Option.some.injEq] at h; subst h; exact .read ht
      | write old => simp only [ht, Option.some.injEq] at h; subst h; exact .write ht
      | recurse => simp only [ht, Option.some.injEq] at h; subst h; exact .recurse ht

theorem system_fires {kind : Kind} {s s' : State τ ι} {a : Action τ ι}
    (h : (system kind).step s a = some s') : Fires kind s a s' := step_fires h

@[simp] theorem holds_idle (i : ι) : (Thread.idle : Thread ι).holds i = 0 := rfl
@[simp] theorem holds_active (self i : ι) (pc : PC) (callers : Nat) :
    (Thread.active self pc callers).holds i =
      if self = i then (Thread.active self pc callers).opened else 0 := rfl

@[simp] theorem return_holds (self i : ι) (callers : Nat) :
    (Thread.return self callers).holds i = if self = i then callers else 0 := by
  cases callers with
  | zero => simp [Thread.return]
  | succ n => rfl

/-- Each lock counts, thread by thread, the open calls on its view controller. -/
theorem tracks_step {kind : Kind} {s s' : State τ ι} {a : Action τ ι}
    (hi : ∀ i, Tracks (s.recursiveLock i) (Thread.holds i) s.thread) (h : Fires kind s a s') :
    ∀ i, Tracks (s'.recursiveLock i) (Thread.holds i) s'.thread := by
  intro i
  cases h with
  | call ht => exact (hi i).move (by simp [ht, Thread.opened])
  | @lock t self callers mutex ht hl =>
    by_cases hself : self = i
    · subst hself
      simp only [State.goto, Function.update_self]
      exact (hi self).lock hl (by simp [ht, Thread.opened])
    · simp only [State.goto, Function.update_of_ne (Ne.symm hself)]
      exact (hi i).move (by simp [ht, hself])
  | log ht => exact (hi i).move (by simp [ht, Thread.opened])
  | @test t self callers ht =>
    refine (hi i).move ?_
    split <;> simp [ht, Thread.opened]
  | read ht => exact (hi i).move (by simp [ht, Thread.opened])
  | write ht => exact (hi i).move (by simp [ht, Thread.opened])
  | recurse ht => exact (hi i).move (by simp [ht, Thread.opened])
  | @unlock t self callers mutex ht hl =>
    by_cases hself : self = i
    · subst hself
      simp only [State.goto, Function.update_self]
      exact (hi self).unlock hl (by simp [ht, Thread.opened])
    · simp only [State.goto, Function.update_of_ne (Ne.symm hself)]
      exact (hi i).move (by simp [ht, hself])

/-- A count below 10 has been logged and its increment not yet written. -/
def Pending (count : Nat) : Thread ι → Prop
  | .active _ .test _ => count < 10
  | .active _ .read _ | .active _ (.write _) _ => True
  | _ => False

def Thread.On (self : ι) : Thread ι → Prop
  | .idle => False
  | .active i _ _ => i = self

/-- A call logs the count only while no call on another view controller has
logged one below 10 that it has yet to increment. -/
def LogsApart (s : State τ ι) : Action τ ι → Prop
  | .call _ _ => True
  | .run t => ∀ self callers, s.thread t = .active self .log callers →
      ∀ u, Pending s.count (s.thread u) → (s.thread u).On self

/-- Steps of its own that a thread has left in its outermost call if nobody
lowers the count. -/
def remaining (count : Nat) : Thread ι → Nat
  | .idle => 0
  | .active _ .lock callers => callers + 4 + 7 * (10 - count)
  | .active _ .log callers => callers + 3 + 7 * (10 - count)
  | .active _ .test callers => callers + 2 + 7 * (10 - count)
  | .active _ .read callers => callers + 1 + 7 * (10 - count)
  | .active _ (.write _) callers => callers + 7 * (10 - count)
  | .active _ .recurse callers => callers + 6 + 7 * (10 - count)
  | .active _ .unlock callers => callers + 1

/-- What the demo promises of a state: the counter and the log, the books of
the lock, and that every recursion ends. A call takes at most 74 steps of its
own, and while it cannot move, a holder of its lock can. -/
structure Orderly (kind : Kind) (s : State τ ι) : Prop where
  bound : s.count ≤ 10
  sorted : s.logged.Pairwise (· ≤ ·)
  once : ∀ v, v < 10 → s.logged.count v ≤ 1
  held : ∀ i t, (s.recursiveLock i).depth t = (s.thread t).holds i
  open_calls : ∀ t, (s.tally t).acquired = (s.tally t).released + (s.thread t).opened
  returned : ∀ t, s.thread t = .idle → (s.tally t).acquired = (s.tally t).released
  ends : ∀ t, (s.tally t).steps ≤ 74
  moves : ∀ t self pc callers, s.thread t = .active self pc callers →
    (step kind s (.run t)).isSome ∨
      ∃ u, u ≠ t ∧ 0 < (s.thread u).holds self ∧ (step kind s (.run u)).isSome

/-- The value of a half-done increment is the count itself, and below 10. -/
def Current (count : Nat) : Thread ι → Prop
  | .active _ .read _ => count < 10
  | .active _ (.write old) _ => old = count ∧ count < 10
  | _ => True

structure Apart (s : State τ ι) : Prop where
  alone : AtMostOne (Pending s.count) s.thread
  current : ∀ t, Current s.count (s.thread t)

/-- The count has been logged exactly while its increment is pending. -/
structure Ledger (s : State τ ι) : Prop where
  bound : s.count ≤ 10
  past : ∀ v ∈ s.logged, v ≤ s.count
  sorted : s.logged.Pairwise (· ≤ ·)
  once : ∀ v, v < 10 → s.logged.count v ≤ 1
  fresh : s.count < 10 → (s.count ∈ s.logged ↔ ∃ t, Pending s.count (s.thread t))

def Counted (count : Nat) (x : Thread ι) (y : Tally) : Prop :=
  y.acquired = y.released + x.opened ∧ y.steps + remaining count x ≤ 74

structure Good (s : State τ ι) : Prop where
  tracks : ∀ i, Tracks (s.recursiveLock i) (Thread.holds i) s.thread
  apart : Apart s
  ledger : Ledger s
  counted : ∀ t, Counted s.count (s.thread t) (s.tally t)

theorem good_initial : Good (initialState : State τ ι) where
  tracks _ := .free fun _ => rfl
  apart := ⟨fun _ _ h => h.elim, fun _ => trivial⟩
  ledger := by
    refine ⟨Nat.zero_le _, by simp [initialState], .nil, by simp [initialState], fun _ => ?_⟩
    simp [initialState, Pending]
  counted _ := by simp [initialState, Counted, Thread.opened, remaining]

omit [DecidableEq τ] [DecidableEq ι] in
theorem remaining_mono {c c' : Nat} (h : c ≤ c') (x : Thread ι) : remaining c' x ≤ remaining c x := by
  cases x with
  | idle => exact Nat.le_refl _
  | active self pc callers => cases pc <;> simp only [remaining] <;> omega

omit [DecidableEq ι] in
/-- One thread moves and its tally with it. -/
theorem counted_move {s : State τ ι} {count : Nat} (h : ∀ u, Counted s.count (s.thread u) (s.tally u))
    (hc : s.count ≤ count) {t : τ} {x : Thread ι} {y : Tally} (hx : Counted count x y) (u : τ) :
    Counted count (Function.update s.thread t x u) (Function.update s.tally t y u) := by
  by_cases hu : u = t
  · subst hu; simpa using hx
  · rw [Function.update_of_ne hu, Function.update_of_ne hu]
    obtain ⟨hbal, hsteps⟩ := h u
    have := remaining_mono hc (s.thread u)
    exact ⟨hbal, by omega⟩

omit [DecidableEq ι] in
/-- A step keeps the balance of the thread and uses up one of its remaining steps. -/
theorem counted_next {s : State τ ι} {count : Nat} (h : ∀ u, Counted s.count (s.thread u) (s.tally u))
    (hc : s.count ≤ count) {t : τ} {x : Thread ι} {y : Tally} (hy : y.steps = (s.tally t).steps + 1)
    (hbalance : y.acquired + (s.tally t).released + (s.thread t).opened =
      (s.tally t).acquired + y.released + x.opened)
    (hless : remaining count x < remaining s.count (s.thread t)) (u : τ) :
    Counted count (Function.update s.thread t x u) (Function.update s.tally t y u) := by
  obtain ⟨hbal, hsteps⟩ := h t
  apply counted_move h hc
  constructor
  · omega
  · omega

theorem counted_step {kind : Kind} {s s' : State τ ι} {a : Action τ ι} (ha : Apart s)
    (hi : ∀ t, Counted s.count (s.thread t) (s.tally t)) (h : Fires kind s a s') :
    ∀ t, Counted s'.count (s'.thread t) (s'.tally t) := by
  cases h with
  | call ht => exact counted_move hi (Nat.le_refl _) (by simp [Counted, Thread.opened, remaining]; omega)
  | lock ht hl =>
    apply counted_next hi (Nat.le_refl _) rfl
    · simp only [ht, Thread.opened, Tally.acquire, Tally.step]
      omega
    · simp only [ht, remaining]
      omega
  | log ht | read ht | recurse ht =>
    apply counted_next hi (Nat.le_refl _) rfl
    · simp only [ht, Thread.opened, Tally.step]
    · simp only [ht, remaining]
      omega
  | test ht =>
    apply counted_next hi (Nat.le_refl _) rfl
    · split <;> simp only [ht, Thread.opened, Tally.step]
    · split <;> simp only [ht, remaining] <;> omega
  | @write t self old callers ht =>
    have hcur := ha.current t
    simp only [ht, Current] at hcur
    have hgrows : s.count ≤ old + 1 := by omega
    apply counted_next hi hgrows rfl
    · simp only [ht, Thread.opened, Tally.step]
    · simp only [ht, remaining]
      omega
  | @unlock t self callers mutex ht hl =>
    apply counted_next hi (Nat.le_refl _) rfl
    · cases callers with
      | zero => simp only [ht, Thread.return, Thread.opened, Tally.release, Tally.step]; omega
      | succ n => simp only [ht, Thread.return, Thread.opened, Tally.release, Tally.step]; omega
    · cases callers with
      | zero => simp only [ht, Thread.return, remaining]; omega
      | succ n => simp only [ht, Thread.return, remaining]; omega

omit [DecidableEq ι] in
/-- A move that neither opens nor closes the window of an increment. -/
theorem Apart.quiet {s : State τ ι} (h : Apart s) {t : τ} {x : Thread ι} {y : Tally}
    {lock : ι → Mutex τ} {logged : List Nat}
    (hp : Pending s.count x → Pending s.count (s.thread t)) (hx : Current s.count x) :
    Apart { s.goto t x y with recursiveLock := lock, logged := logged } where
  alone := h.alone.move (fun _ _ hu => hu) fun hpx u hu => h.alone u t hu (hp hpx)
  current := forall_move (fun u _ => h.current u) hx

omit [DecidableEq ι] in
theorem exists_pending_move {count : Nat} {thread : τ → Thread ι} {t : τ} {x : Thread ι}
    (hp : Pending count x ↔ Pending count (thread t)) :
    (∃ u, Pending count (Function.update thread t x u)) ↔ ∃ u, Pending count (thread u) := by
  rw [Function.exists_update_iff thread fun _ y => Pending count y, hp]
  constructor
  · rintro (ht | ⟨u, _, hu⟩)
    · exact ⟨t, ht⟩
    · exact ⟨u, hu⟩
  · rintro ⟨u, hu⟩
    by_cases hut : u = t
    · exact .inl (hut ▸ hu)
    · exact .inr ⟨u, hut, hu⟩

omit [DecidableEq ι] in
theorem Ledger.quiet {s : State τ ι} (h : Ledger s) {t : τ} {x : Thread ι} {y : Tally}
    {lock : ι → Mutex τ} (hp : Pending s.count x ↔ Pending s.count (s.thread t)) :
    Ledger { s.goto t x y with recursiveLock := lock } where
  bound := h.bound
  past := h.past
  sorted := h.sorted
  once := h.once
  fresh hc := (h.fresh hc).trans (exists_pending_move hp).symm

/-- The lock keeps the calls on one view controller apart, the condition all others. -/
theorem none_pending {s : State τ ι} {t : τ} {self : ι} {callers : Nat}
    (hi : ∀ i, Tracks (s.recursiveLock i) (Thread.holds i) s.thread) (hc : LogsApart s (.run t))
    (ht : s.thread t = .active self .log callers) (u : τ) : ¬ Pending s.count (s.thread u) := by
  intro hu
  have hon := hc self callers ht u hu
  cases hx : s.thread u with
  | idle => simp [hx, Pending] at hu
  | active j pc callers' =>
    have hj : j = self := by simpa [hx, Thread.On] using hon
    have hut : t = u := by
      refine (hi self).exclusive (by simp [ht, Thread.opened]) ?_
      cases pc <;> simp_all [Pending, Thread.opened]
    subst hut
    simp [ht, Pending] at hu

omit [DecidableEq ι] in
theorem ledger_log {s : State τ ι} (h : Ledger s) {t : τ} {self : ι} {callers : Nat} {y : Tally}
    (hn : ∀ u, ¬ Pending s.count (s.thread u)) :
    Ledger { s.goto t (.active self .test callers) y with logged := s.logged ++ [s.count] } where
  bound := h.bound
  past v hv := by
    rcases List.mem_append.mp hv with hv | hv
    · exact h.past v hv
    · simp only [List.mem_singleton] at hv
      exact Nat.le_of_eq hv
  sorted := by
    refine List.pairwise_append.mpr ⟨h.sorted, List.pairwise_singleton _ _, fun v hv w hw => ?_⟩
    simp only [List.mem_singleton] at hw
    exact hw ▸ h.past v hv
  once v hv := by
    by_cases hvc : v = s.count
    · subst hvc
      have hnot : s.count ∉ s.logged := fun hm => by
        obtain ⟨u, hu⟩ := (h.fresh hv).mp hm
        exact hn u hu
      simp [List.count_eq_zero_of_not_mem hnot]
    · have hold := h.once v hv
      simpa [List.count_singleton, Ne.symm hvc] using hold
  fresh hc := by
    refine iff_of_true (List.mem_append_right _ (List.mem_singleton_self _)) ⟨t, ?_⟩
    simpa [State.goto, Pending] using hc

omit [DecidableEq ι] in
theorem write_step {s : State τ ι} (ha : Apart s) (hl : Ledger s) {t : τ} {self : ι}
    {old callers : Nat} {y : Tally} (ht : s.thread t = .active self (.write old) callers) :
    Apart { s.goto t (.active self .recurse callers) y with count := old + 1 } ∧
      Ledger { s.goto t (.active self .recurse callers) y with count := old + 1 } := by
  have hcur := ha.current t
  simp only [ht, Current] at hcur
  obtain ⟨rfl, hlt⟩ := hcur
  have hother : ∀ u, u ≠ t → ¬ Pending s.count (s.thread u) := fun u hut hu =>
    hut (ha.alone u t hu (by simp [ht, Pending]))
  -- Nobody else was in the window, and a larger count puts nobody into it.
  have hother' : ∀ u, u ≠ t → ¬ Pending (s.count + 1) (s.thread u) := by
    intro u hut hu
    refine hother u hut ?_
    cases hx : s.thread u with
    | idle => simp [hx, Pending] at hu
    | active j pc callers' =>
      cases pc with
      | test => simp only [hx, Pending] at hu ⊢; omega
      | read | write => simp [Pending]
      | lock | log | recurse | unlock => simp [hx, Pending] at hu
  refine ⟨⟨?_, ?_⟩, ?_⟩
  · exact ha.alone.move (fun u hut hu => absurd hu (hother' u hut)) fun hx => hx.elim
  · refine forall_move (fun u hut => ?_) trivial
    have hn := hother u hut
    cases hx : s.thread u with
    | idle => trivial
    | active j pc callers' => cases pc <;> simp_all [Pending, Current]
  · have hnew : s.count + 1 ∉ s.logged := fun hm => absurd (hl.past _ hm) (by omega)
    refine ⟨hlt, fun v hv => Nat.le_succ_of_le (hl.past v hv), hl.sorted, hl.once, fun _ => ?_⟩
    refine iff_of_false hnew ?_
    rintro ⟨u, hu⟩
    by_cases hut : u = t
    · subst hut; simp [State.goto, Pending] at hu
    · simp only [State.goto, Function.update_of_ne hut] at hu
      exact hother' u hut hu

/-- A step that meets the condition keeps the books. -/
theorem good_step {kind : Kind} {s s' : State τ ι} {a : Action τ ι} (hi : Good s)
    (hc : LogsApart s a) (h : Fires kind s a s') : Good s' := by
  have hcounted := counted_step hi.apart hi.counted h
  have htracks := tracks_step hi.tracks h
  suffices hs : Apart s' ∧ Ledger s' from ⟨htracks, hs.1, hs.2, hcounted⟩
  cases h with
  | call ht =>
    exact ⟨hi.apart.quiet (by simp [Pending]) trivial, hi.ledger.quiet (by simp [ht, Pending])⟩
  | lock ht hl =>
    exact ⟨hi.apart.quiet (by simp [Pending]) trivial, hi.ledger.quiet (by simp [ht, Pending])⟩
  | log ht =>
    have hn := none_pending hi.tracks hc ht
    refine ⟨⟨?_, ?_⟩, ledger_log hi.ledger hn⟩
    · exact hi.apart.alone.move (fun _ _ hu => hu) fun _ u hu => absurd hu (hn u)
    · exact forall_move (fun u _ => hi.apart.current u) trivial
  | test ht =>
    by_cases hlt : s.count < 10
    · simp only [hlt, if_true]
      exact ⟨hi.apart.quiet (by simp [ht, Pending, hlt]) hlt,
        hi.ledger.quiet (by simp [ht, Pending, hlt])⟩
    · simp only [hlt, if_false]
      exact ⟨hi.apart.quiet (by simp [Pending]) trivial,
        hi.ledger.quiet (by simp [ht, Pending, hlt])⟩
  | @read t self callers ht =>
    have hlt : s.count < 10 := by simpa [ht, Current] using hi.apart.current t
    exact ⟨hi.apart.quiet (by simp [ht, Pending]) ⟨rfl, hlt⟩, hi.ledger.quiet (by simp [ht, Pending])⟩
  | write ht => exact write_step hi.apart hi.ledger ht
  | recurse ht =>
    exact ⟨hi.apart.quiet (by simp [Pending]) trivial, hi.ledger.quiet (by simp [ht, Pending])⟩
  | @unlock t self callers mutex ht hl =>
    cases callers with
    | zero =>
      exact ⟨hi.apart.quiet (by simp [Thread.return, Pending]) trivial,
        hi.ledger.quiet (by simp [ht, Thread.return, Pending])⟩
    | succ n =>
      exact ⟨hi.apart.quiet (by simp [Thread.return, Pending]) trivial,
        hi.ledger.quiet (by simp [ht, Thread.return, Pending])⟩

/-- A holder of a recursive lock is never blocked. -/
theorem holder_moves {s : State τ ι} (hi : ∀ i, Tracks (s.recursiveLock i) (Thread.holds i) s.thread)
    {t : τ} {self : ι} (hh : 0 < (s.thread t).holds self) : (step .recursive s (.run t)).isSome := by
  have hdepth : 0 < (s.recursiveLock self).depth t := by rw [hi self t]; exact hh
  cases hx : s.thread t with
  | idle => simp [hx] at hh
  | active i pc callers =>
    have hself : i = self := by
      by_contra hne
      simp [hx, hne] at hh
    subst hself
    cases pc with
    | lock =>
      have hfree : ((s.recursiveLock i).lock .recursive t).isSome := by
        rw [Mutex.lock_recursive_isSome]
        intro u hut
        by_contra hu
        exact hut (Mutex.depth_exclusive _ (Nat.pos_of_ne_zero hu) hdepth)
      simpa [step, runStep, hx] using hfree
    | unlock => simpa [step, runStep, hx] using Mutex.unlock_isSome hdepth
    | log | test | read | write | recurse => simp [step, runStep, hx]

/-- A call that cannot move waits for another thread inside the same lock. -/
theorem moves_or_waits {s : State τ ι}
    (hi : ∀ i, Tracks (s.recursiveLock i) (Thread.holds i) s.thread)
    {t : τ} {self : ι} {pc : PC} {callers : Nat} (ht : s.thread t = .active self pc callers) :
    (step .recursive s (.run t)).isSome ∨
      ∃ u, u ≠ t ∧ 0 < (s.thread u).holds self ∧ (step .recursive s (.run u)).isSome := by
  by_cases hh : 0 < (s.thread t).holds self
  · exact .inl (holder_moves hi hh)
  · have hpc : pc = .lock := by
      cases pc <;> simp_all [Thread.opened]
    subst hpc
    by_cases hl : ((s.recursiveLock self).lock .recursive t).isSome
    · left
      simpa [step, runStep, ht] using hl
    · right
      rw [Mutex.lock_recursive_isSome] at hl
      obtain ⟨u, hu⟩ := not_forall.mp hl
      obtain ⟨hut, hdepth⟩ := Classical.not_imp.mp hu
      have hpos : 0 < (s.thread u).holds self := by
        rw [← hi self u]
        exact Nat.pos_of_ne_zero hdepth
      exact ⟨u, hut, hpos, holder_moves hi hpos⟩

theorem Good.orderly {s : State τ ι} (h : Good s) : Orderly .recursive s where
  bound := h.ledger.bound
  sorted := h.ledger.sorted
  once := h.ledger.once
  held := h.tracks
  open_calls t := (h.counted t).1
  returned t ht := by simpa [ht, Thread.opened] using (h.counted t).1
  ends t := by have := (h.counted t).2; omega
  moves t self pc callers ht := moves_or_waits h.tracks ht

/-- A log line inside another thread's window repeats a count below 10. -/
theorem repeat_breaks {kind : Kind} {s s' : State τ ι} {a : Action τ ι} (hi : Good s)
    (hc : ¬ LogsApart s a) (h : Fires kind s a s') : ¬ Orderly .recursive s' := by
  cases a with
  | call t self => exact absurd trivial hc
  | run t =>
    simp only [LogsApart, not_forall] at hc
    obtain ⟨self, callers, ht, u, hu, _⟩ := hc
    have hlt : s.count < 10 := by
      have hcur := hi.apart.current u
      cases hx : s.thread u with
      | idle => simp [hx, Pending] at hu
      | active j pc callers' => cases pc <;> simp_all [Pending, Current]
    have hmem := (hi.ledger.fresh hlt).mpr ⟨u, hu⟩
    cases h with
    | log ht' =>
      intro ho
      have honce := ho.once s.count hlt
      have hpos := List.count_pos_iff.mpr hmem
      simp only [List.count_append, List.count_singleton_self] at honce
      omega
    | _ => simp_all

/-- A run keeps every promise of the demo exactly when no call logs the count
while a call on another view controller has logged a count below 10 that it
has yet to increment. -/
theorem recursiveRun_iff (d : Demo) {h : List (State τ ι × Action τ ι)} {s : State τ ι}
    (r : (system d.recursiveLock).Run h s) :
    System.Throughout (Orderly d.recursiveLock) h s ↔ System.Meets LogsApart h := by
  rw [Demo.recursiveLock_eq] at r ⊢
  exact r.throughout_iff_meets good_initial
    (fun _ _ _ hi hc hs => good_step hi hc (system_fires hs))
    (fun _ hi => hi.orderly)
    (fun _ _ _ hi hc hs => repeat_breaks hi hc (system_fires hs))

omit [DecidableEq ι] in
theorem pending_on_only [Subsingleton ι] {count : Nat} {x : Thread ι} (h : Pending count x) (self : ι) :
    x.On self := by
  cases x with
  | idle => exact h.elim
  | active i pc callers => exact Subsingleton.elim i self

/-- On a single view controller the lock does cover the counter. -/
theorem one_instance_orderly [Subsingleton ι] (d : Demo) {s : State τ ι}
    (h : (system d.recursiveLock).Reachable s) : Orderly d.recursiveLock s := by
  rw [Demo.recursiveLock_eq] at h ⊢
  refine (h.invariant good_initial fun s a s' hi hs => good_step hi ?_ (system_fires hs)).orderly
  cases a with
  | call t self => trivial
  | run t => exact fun self _ _ u hu => pending_on_only hu self

/-- Two threads call recursiveRun on the one view controller, and the second one
waits for the first to return from all its calls. -/
theorem one_instance_orderly_contended : ∃ s : State Bool Unit,
    (system Demo.nsLockDemo.recursiveLock).Reachable s ∧ s.logged = [0, 1, 2, 3, 4, 5, 6, 7, 8, 9, 10, 10] ∧
    Orderly Demo.nsLockDemo.recursiveLock s := by
  obtain ⟨s, hs, hp⟩ := System.exists_of_exec (show ((system Demo.nsLockDemo.recursiveLock).exec
    (initialState : State Bool Unit)
    (.call false () :: .run false :: .call true () :: List.replicate 73 (.run false) ++
      List.replicate 4 (.run true))).any
    (fun s => decide (s.logged = [0, 1, 2, 3, 4, 5, 6, 7, 8, 9, 10, 10])) = true by decide)
  exact ⟨s, hs, of_decide_eq_true hp, one_instance_orderly .nsLockDemo hs⟩

/-- Two threads call recursiveRun on two view controllers; the first one stops
before its increment of 9, which the second one makes meanwhile. -/
def twoInstances : List (Action Bool Bool) :=
  .call false false :: List.replicate 57 (.run false) ++
    [.call true true, .run true, .run true, .run true, .run true, .run true, .run false, .run false]

/-- The count reaches 11, and 9 is logged twice. -/
theorem two_instances_overrun : ¬ ∀ s : State Bool Bool,
    (system Demo.pthreadMutexDemo.recursiveLock).Reachable s →
      Orderly Demo.pthreadMutexDemo.recursiveLock s := by
  intro hall
  have hrun : ((system Demo.pthreadMutexDemo.recursiveLock).exec initialState twoInstances).any
      (fun s => decide (s.count = 11 ∧ s.logged.count 9 = 2)) = true := by decide
  obtain ⟨s, hr, hp⟩ := System.exists_of_exec hrun
  have hcount := (of_decide_eq_true hp).1
  have hbound := (hall s hr).bound
  omega

/-- A scheduler for two threads that lets one log only outside the other's window. -/
def outside (s : State Bool Bool) : Action Bool Bool → Bool
  | .call _ _ => true
  | .run t => match s.thread t, s.thread (!t) with
    | .active _ .log _, .active _ .test _ => false
    | .active _ .log _, .active _ .read _ => false
    | .active _ .log _, .active _ (.write _) _ => false
    | _, _ => true

theorem outside_logs_apart (s : State Bool Bool) (a : Action Bool Bool) (h : outside s a = true) :
    LogsApart s a := by
  cases a with
  | call t self => trivial
  | run t =>
    intro self callers ht u hu
    have hut : u = !t := by
      cases u <;> cases t <;> simp_all [Pending]
    subst hut
    cases hx : s.thread (!t) with
    | idle => simp [hx, Pending] at hu
    | active j pc callers' => cases pc <;> simp_all [Pending, outside]

/-- Two view controllers one after the other: the second recursion finds the count at 10. -/
theorem recursiveRun_in_turns : ∃ h, ∃ s : State Bool Bool,
    (system Demo.pthreadMutexDemo.recursiveLock).Run h s ∧
      System.Throughout (Orderly Demo.pthreadMutexDemo.recursiveLock) h s ∧
      s.logged = [0, 1, 2, 3, 4, 5, 6, 7, 8, 9, 10, 10] := by
  have hrun : (((system Demo.pthreadMutexDemo.recursiveLock).restrict outside).exec initialState
      (.call false false :: List.replicate 74 (.run false) ++
        .call true true :: List.replicate 4 (.run true))).any
      (fun s => decide (s.logged = [0, 1, 2, 3, 4, 5, 6, 7, 8, 9, 10, 10])) = true := by decide
  obtain ⟨h, s, hr, hm, hp⟩ := System.exists_run_of_exec hrun
  exact ⟨h, s, hr, (recursiveRun_iff _ hr).mpr (hm.mono outside_logs_apart), of_decide_eq_true hp⟩

end RecursiveRun
