import IOSStudy.Transition
import IOSStudy.Locks

/-!
# addObject and deleteObject: a condition variable

`deleteObject` tests `count == 0` once and does not test again after the
wait. Whatever happens between the wake-up and the moment the waiter has the
mutex back is therefore not noticed; the run rule shows that nothing else can
go wrong.
-/
namespace ConditionDemo

open Transition Locks

/-- `NSMutableArray` raises `NSRangeException` when there is no last object. -/
def removeLastObject (mutableArray : List String) : Option (List String) :=
  if mutableArray = [] then none else some mutableArray.dropLast

theorem removeLastObject_length {l l' : List String} (h : removeLastObject l = some l') :
    l.length = l'.length + 1 := by
  simp only [removeLastObject, Option.ite_none_left_eq_some, Option.some.injEq] at h
  obtain ⟨hne, rfl⟩ := h
  have := List.length_pos_iff.mpr hne
  rw [List.length_dropLast]
  omega

theorem removeLastObject_none {l : List String} (h : removeLastObject l = none) : l = [] := by
  by_contra hne
  simp [removeLastObject, hne] at h

/-- pthreadMutexCondition initialises `condLock` as a recursive mutex; the pair
of NSLockDemo uses one `NSCondition`. -/
inductive Demo where
  | pthreadMutexCondition | nsLockDemo
  deriving DecidableEq, Repr

def Demo.condLock : Demo → Kind
  | .pthreadMutexCondition => .recursive
  | .nsLockDemo => .normal

inductive Method where
  | addObject | deleteObject
  deriving DecidableEq, Repr

inductive Thread where
  | idle
  | lock (m : Method)
  | addObject
  | signal
  | test
  | wait
  | waiting
  | removeLastObject
  | unlock (m : Method)
  | raised
  deriving DecidableEq, Repr

/-- `waiters` are the threads that wait for the condition and have not been
woken; `added` and `deleted` count completed calls and are not in the source. -/
structure State (τ : Type*) where
  mutex : Mutex τ
  waiters : List τ
  mutableArray : List String
  thread : τ → Thread
  added : Nat
  deleted : Nat

inductive Action (τ : Type*) where
  | call (t : τ) (m : Method)
  | run (t : τ)
  | signal (t : τ) (woken : Option τ)
  | spurious (t : τ)

variable {τ : Type*} [DecidableEq τ]

def State.goto (s : State τ) (t : τ) (x : Thread) : State τ :=
  { s with thread := Function.update s.thread t x }

def Method.begin : Method → Thread
  | .addObject => .addObject
  | .deleteObject => .test

def State.complete (s : State τ) : Method → State τ
  | .addObject => { s with added := s.added + 1 }
  | .deleteObject => { s with deleted := s.deleted + 1 }

def runStep (kind : Kind) (s : State τ) (t : τ) : Option (State τ) :=
  match s.thread t with
  | .idle | .signal | .raised => none
  | .lock m => (s.mutex.lock kind t).map fun mutex => { s.goto t m.begin with mutex := mutex }
  | .addObject => some { s.goto t .signal with mutableArray := s.mutableArray ++ ["测试"] }
  | .test => some (s.goto t (if s.mutableArray.length = 0 then .wait else .removeLastObject))
  -- The wait gives the mutex up and joins the waiters in one step.
  | .wait => (s.mutex.unlock t).map fun mutex =>
      { s.goto t .waiting with mutex := mutex, waiters := s.waiters ++ [t] }
  -- Once woken, the thread competes for the mutex like any other.
  | .waiting => if t ∈ s.waiters then none else
      (s.mutex.lock kind t).map fun mutex => { s.goto t .removeLastObject with mutex := mutex }
  | .removeLastObject => match ConditionDemo.removeLastObject s.mutableArray with
    | some l => some { s.goto t (.unlock .deleteObject) with mutableArray := l }
    | none => some (s.goto t .raised)
  | .unlock m => (s.mutex.unlock t).map fun mutex => { (s.goto t .idle).complete m with mutex := mutex }

/-- A signal wakes one waiter of the scheduler's choice, or nobody when nobody
waits; a spurious wake-up releases a waiter without a signal. -/
def step (kind : Kind) (s : State τ) : Action τ → Option (State τ)
  | .call t m => if s.thread t = .idle then some (s.goto t (.lock m)) else none
  | .run t => runStep kind s t
  | .signal t none => if s.thread t = .signal ∧ s.waiters = [] then
      some (s.goto t (.unlock .addObject)) else none
  | .signal t (some u) => if s.thread t = .signal ∧ u ∈ s.waiters then
      some { s.goto t (.unlock .addObject) with waiters := s.waiters.erase u } else none
  | .spurious t => if t ∈ s.waiters then some { s with waiters := s.waiters.erase t } else none

def initialState : State τ where
  mutex := .free
  waiters := []
  mutableArray := []
  thread := fun _ => .idle
  added := 0
  deleted := 0

def system (d : Demo) : System (State τ) (Action τ) := ⟨initialState, step d.condLock⟩

/-- Everything a step can do, guards included. -/
inductive Fires (kind : Kind) (s : State τ) : Action τ → State τ → Prop where
  | call {t : τ} {m : Method} (ht : s.thread t = .idle) :
      Fires kind s (.call t m) (s.goto t (.lock m))
  | lock {t : τ} {m : Method} {mutex : Mutex τ} (ht : s.thread t = .lock m)
      (hl : s.mutex.lock kind t = some mutex) :
      Fires kind s (.run t) { s.goto t m.begin with mutex := mutex }
  | addObject {t : τ} (ht : s.thread t = .addObject) :
      Fires kind s (.run t) { s.goto t .signal with mutableArray := s.mutableArray ++ ["测试"] }
  | test {t : τ} (ht : s.thread t = .test) :
      Fires kind s (.run t) (s.goto t (if s.mutableArray.length = 0 then .wait else .removeLastObject))
  | wait {t : τ} {mutex : Mutex τ} (ht : s.thread t = .wait) (hl : s.mutex.unlock t = some mutex) :
      Fires kind s (.run t) { s.goto t .waiting with mutex := mutex, waiters := s.waiters ++ [t] }
  | reacquire {t : τ} {mutex : Mutex τ} (ht : s.thread t = .waiting) (hw : t ∉ s.waiters)
      (hl : s.mutex.lock kind t = some mutex) :
      Fires kind s (.run t) { s.goto t .removeLastObject with mutex := mutex }
  | remove {t : τ} {l : List String} (ht : s.thread t = .removeLastObject)
      (hr : removeLastObject s.mutableArray = some l) :
      Fires kind s (.run t) { s.goto t (.unlock .deleteObject) with mutableArray := l }
  | raise {t : τ} (ht : s.thread t = .removeLastObject)
      (hr : removeLastObject s.mutableArray = none) : Fires kind s (.run t) (s.goto t .raised)
  | unlock {t : τ} {m : Method} {mutex : Mutex τ} (ht : s.thread t = .unlock m)
      (hl : s.mutex.unlock t = some mutex) :
      Fires kind s (.run t) { (s.goto t .idle).complete m with mutex := mutex }
  | signalNobody {t : τ} (ht : s.thread t = .signal) (hw : s.waiters = []) :
      Fires kind s (.signal t none) (s.goto t (.unlock .addObject))
  | signal {t u : τ} (ht : s.thread t = .signal) (hu : u ∈ s.waiters) :
      Fires kind s (.signal t (some u))
        { s.goto t (.unlock .addObject) with waiters := s.waiters.erase u }
  | spurious {t : τ} (ht : t ∈ s.waiters) :
      Fires kind s (.spurious t) { s with waiters := s.waiters.erase t }

theorem step_fires {kind : Kind} {s s' : State τ} {a : Action τ} (h : step kind s a = some s') :
    Fires kind s a s' := by
  cases a with
  | call t m =>
    simp only [step, Option.ite_none_right_eq_some, Option.some.injEq] at h
    obtain ⟨ht, rfl⟩ := h
    exact .call ht
  | signal t woken =>
    cases woken with
    | none =>
      simp only [step, Option.ite_none_right_eq_some, Option.some.injEq] at h
      obtain ⟨⟨ht, hw⟩, rfl⟩ := h
      exact .signalNobody ht hw
    | some u =>
      simp only [step, Option.ite_none_right_eq_some, Option.some.injEq] at h
      obtain ⟨⟨ht, hu⟩, rfl⟩ := h
      exact .signal ht hu
  | spurious t =>
    simp only [step, Option.ite_none_right_eq_some, Option.some.injEq] at h
    obtain ⟨ht, rfl⟩ := h
    exact .spurious ht
  | run t =>
    simp only [step, runStep] at h
    cases ht : s.thread t with
    | idle | signal | raised => simp [ht] at h
    | lock m =>
      simp only [ht, Option.map_eq_some_iff] at h
      obtain ⟨mutex, hl, rfl⟩ := h
      exact .lock ht hl
    | addObject => simp only [ht, Option.some.injEq] at h; subst h; exact .addObject ht
    | test => simp only [ht, Option.some.injEq] at h; subst h; exact .test ht
    | wait =>
      simp only [ht, Option.map_eq_some_iff] at h
      obtain ⟨mutex, hl, rfl⟩ := h
      exact .wait ht hl
    | waiting =>
      simp only [ht, Option.ite_none_left_eq_some, Option.map_eq_some_iff] at h
      obtain ⟨hw, mutex, hl, rfl⟩ := h
      exact .reacquire ht hw hl
    | removeLastObject =>
      cases hr : removeLastObject s.mutableArray with
      | some l => simp only [ht, hr, Option.some.injEq] at h; subst h; exact .remove ht hr
      | none => simp only [ht, hr, Option.some.injEq] at h; subst h; exact .raise ht hr
    | unlock m =>
      simp only [ht, Option.map_eq_some_iff] at h
      obtain ⟨mutex, hl, rfl⟩ := h
      exact .unlock ht hl

theorem system_fires {d : Demo} {s s' : State τ} {a : Action τ}
    (h : (system d).step s a = some s') : Fires d.condLock s a s' := step_fires h

/-- From its lock to its unlock a call holds the mutex, except while it waits;
an exception leaves it locked. -/
def Thread.holds : Thread → Nat
  | .idle | .lock _ | .waiting => 0
  | .addObject | .signal | .test | .wait | .removeLastObject | .unlock _ | .raised => 1

/-- The array holds what was added and not deleted. -/
def Balanced (s : State τ) : Prop := s.mutableArray.length + s.deleted = s.added

/-- The array and the counts while a thread is inside. -/
def Half (s : State τ) (_ : τ) : Thread → Prop
  | .addObject | .test | .wait => Balanced s
  | .removeLastObject => Balanced s ∧ s.mutableArray ≠ []
  | .signal | .unlock .addObject => s.mutableArray.length + s.deleted = s.added + 1
  | .unlock .deleteObject => s.mutableArray.length + s.deleted + 1 = s.added
  | .raised => False
  | .idle | .lock _ | .waiting => True

/-- `removeLastObject` finds an element and never raises; with the mutex free
the array holds exactly the elements added and not deleted. -/
structure Consistent (s : State τ) : Prop where
  found : ∀ t, s.thread t = .removeLastObject → s.mutableArray ≠ []
  unraised : ∀ t, s.thread t ≠ .raised
  balance : s.mutex = .free → (s.mutableArray.length : Int) = s.added - s.deleted

/-- A waiter gets the mutex back only while the array is not empty. -/
def RefindsElement (s : State τ) : Action τ → Prop
  | .run t => s.thread t = .waiting → s.mutableArray ≠ []
  | _ => True

def Kept (s : State τ) : Prop := Guarded s.mutex Thread.holds s.thread (Balanced s) (Half s)

theorem kept_initial : Kept (initialState : State τ) := by
  refine ⟨.free fun _ => rfl, fun _ => rfl, fun t ht => ?_⟩
  simp [initialState, Thread.holds] at ht

/-- A step that meets the condition keeps the array and the counts together. -/
theorem kept_step {kind : Kind} {s s' : State τ} {a : Action τ} (hi : Kept s)
    (hc : RefindsElement s a) (h : Fires kind s a s') : Kept s' := by
  cases h with
  | call ht => exact hi.outside (by simp [ht, Thread.holds]) rfl id fun _ _ h => h
  | @lock t m mutex ht hl =>
    refine hi.acquire hl (by simp [ht, Thread.holds]) ?_ ?_
    · cases m <;> rfl
    · cases m <;> exact fun hb => hb
  | @addObject t ht =>
    refine hi.inside (by simp [ht, Thread.holds]) (by simp [ht, Thread.holds]) ?_
    rw [ht]
    intro hb
    have hb : s.mutableArray.length + s.deleted = s.added := hb
    change (s.mutableArray ++ ["测试"]).length + s.deleted = s.added + 1
    simp only [List.length_append, List.length_singleton]
    omega
  | @test t ht =>
    refine hi.inside (by simp [ht, Thread.holds]) (by split <;> simp [ht, Thread.holds]) ?_
    rw [ht]
    intro hb
    split
    · exact hb
    · rename_i hne
      exact ⟨hb, fun he => hne (List.length_eq_zero_iff.mpr he)⟩
  | @wait t mutex ht hl =>
    refine hi.release hl (by simp [ht, Thread.holds]) rfl ?_
    rw [ht]
    exact fun hb => hb
  | @reacquire t mutex ht hw hl =>
    exact hi.acquire hl (by simp [ht, Thread.holds]) rfl fun hb => ⟨hb, hc ht⟩
  | @remove t l ht hr =>
    refine hi.inside (by simp [ht, Thread.holds]) (by simp [ht, Thread.holds]) ?_
    rw [ht]
    rintro ⟨hb, _⟩
    have hb : s.mutableArray.length + s.deleted = s.added := hb
    have hlen := removeLastObject_length hr
    change l.length + s.deleted + 1 = s.added
    omega
  | @raise t ht hr =>
    have hq := hi.held t (by simp [ht, Thread.holds])
    rw [ht] at hq
    exact absurd (removeLastObject_none hr) hq.2
  | @unlock t m mutex ht hl =>
    cases m with
    | addObject =>
      refine hi.release hl (by simp [ht, Thread.holds]) rfl ?_
      rw [ht]
      exact fun hb => hb
    | deleteObject =>
      refine hi.release hl (by simp [ht, Thread.holds]) rfl ?_
      rw [ht]
      intro hb
      have hb : s.mutableArray.length + s.deleted + 1 = s.added := hb
      change s.mutableArray.length + (s.deleted + 1) = s.added
      omega
  | @signalNobody t ht _ | @signal t _ ht _ =>
    refine hi.inside (by simp [ht, Thread.holds]) (by simp [ht, Thread.holds]) ?_
    rw [ht]
    exact fun hb => hb
  | spurious _ => exact ⟨hi.tracks, hi.free, hi.held⟩

theorem Kept.consistent {s : State τ} (h : Kept s) : Consistent s where
  found t ht := by
    have hq := h.held t (by simp [ht, Thread.holds])
    rw [ht] at hq
    exact hq.2
  unraised t ht := by
    have hq := h.held t (by simp [ht, Thread.holds])
    rw [ht] at hq
    exact hq
  balance hm := by
    have hb : s.mutableArray.length + s.deleted = s.added := h.free hm
    omega

/-- A waiter that gets the mutex back on an empty array goes on to remove from it. -/
theorem empty_reacquire_breaks {kind : Kind} {s s' : State τ} {a : Action τ}
    (hc : ¬ RefindsElement s a) (h : Fires kind s a s') : ¬ Consistent s' := by
  cases a with
  | run t =>
    simp only [RefindsElement, Classical.not_imp, not_not] at hc
    obtain ⟨ht, hempty⟩ := hc
    cases h with
    | reacquire _ _ _ => exact fun hp => hp.found t (by simp [State.goto]) hempty
    | _ => simp_all
  | _ => exact absurd trivial hc

/-- Producers and consumers stay consistent throughout a run exactly when
every waiter that gets the mutex back finds the array nonempty. -/
theorem consistent_iff (d : Demo) {h : List (State τ × Action τ)} {s : State τ}
    (r : (system d).Run h s) :
    System.Throughout Consistent h s ↔ System.Meets RefindsElement h :=
  r.throughout_iff_meets kept_initial
    (fun _ _ _ hi hc hs => kept_step hi hc (system_fires hs))
    (fun _ hi => hi.consistent)
    (fun _ _ _ _ hc hs => empty_reacquire_breaks hc (system_fires hs))

/-- Consumer 0 waits, producer 1 adds and signals, and consumer 2 takes the
mutex and the element before consumer 0 is back. -/
def lateConsumer : List (Action (Fin 3)) :=
  [.call 0 .deleteObject, .run 0, .run 0, .run 0, .call 1 .addObject, .run 1, .run 1,
    .signal 1 (some 0), .run 1, .call 2 .deleteObject, .run 2, .run 2, .run 2, .run 2, .run 0, .run 0]

/-- `removeLastObject` is executed on an empty array. -/
theorem late_consumer_raises : ¬ ∀ s : State (Fin 3),
    (system .pthreadMutexCondition).Reachable s → Consistent s := by
  intro hall
  have hrun : ((system .pthreadMutexCondition).exec initialState lateConsumer).any
      (fun s => decide (s.thread 0 = .raised)) = true := by decide
  obtain ⟨s, hr, hp⟩ := System.exists_of_exec hrun
  exact (hall s hr).unraised 0 (of_decide_eq_true hp)

/-- A scheduler that hands the mutex back to a waiter only when there is an element. -/
def whenNonempty (s : State (Fin 3)) : Action (Fin 3) → Bool
  | .run t => decide (s.thread t = .waiting → s.mutableArray ≠ [])
  | _ => true

theorem whenNonempty_refinds (s : State (Fin 3)) (a : Action (Fin 3)) (h : whenNonempty s a = true) :
    RefindsElement s a := by
  cases a with
  | run t =>
    have hw : s.thread t = .waiting → s.mutableArray ≠ [] := of_decide_eq_true h
    exact hw
  | _ => trivial

/-- The demo's own order: the consumer waits first, the producer wakes it. -/
theorem consistent_one_consumer : ∃ h, ∃ s : State (Fin 3), (system .nsLockDemo).Run h s ∧
    System.Throughout Consistent h s ∧ s.mutableArray = [] ∧ s.added = 1 ∧ s.deleted = 1 := by
  have hrun : (((system .nsLockDemo).restrict whenNonempty).exec initialState
      [.call 0 .deleteObject, .call 1 .addObject, .run 0, .run 0, .run 0, .run 1, .run 1,
        .signal 1 (some 0), .run 1, .run 0, .run 0, .run 0]).any
      (fun s => decide (s.mutableArray = [] ∧ s.added = 1 ∧ s.deleted = 1)) = true := by decide
  obtain ⟨h, s, hr, hm, hp⟩ := System.exists_run_of_exec hrun
  exact ⟨h, s, hr, (consistent_iff .nsLockDemo hr).mpr (hm.mono whenNonempty_refinds),
    of_decide_eq_true hp⟩

/-- Only thread c deletes, and waiters are woken by signals only. -/
def OneConsumer (c : τ) : Action τ → Prop
  | .call t .deleteObject => t = c
  | .spurious _ => False
  | _ => True

/-- On the way through `deleteObject`. -/
def Thread.deletes : Thread → Prop
  | .lock .deleteObject | .test | .wait | .waiting | .removeLastObject | .unlock .deleteObject => True
  | _ => False

/-- A producer that is about to signal has appended an element, and only the
consumer could take one away. -/
structure Alone (c : τ) (s : State τ) : Prop where
  deletes : ∀ t, (s.thread t).deletes → t = c
  woken : s.thread c = .waiting → c ∉ s.waiters → s.mutableArray ≠ []
  appended : ∀ t, s.thread t = .signal → s.mutableArray ≠ []

omit [DecidableEq τ] in
theorem alone_initial (c : τ) : Alone c (initialState : State τ) := by
  refine ⟨fun _ h => h.elim, fun h => ?_, fun _ h => ?_⟩
  · cases h
  · cases h

/-- A thread moves, and no element is taken away. -/
theorem Alone.move {c : τ} {s s' : State τ} (h : Alone c s) {t : τ} {x : Thread}
    (hthread : s'.thread = Function.update s.thread t x) (hx : x.deletes → t = c)
    (harray : s.mutableArray ≠ [] → s'.mutableArray ≠ [])
    (hwaits : x = .waiting → t ∈ s'.waiters) (hsignals : x = .signal → s'.mutableArray ≠ [])
    (hwaiters : c ∈ s.waiters → c ∈ s'.waiters ∨ s'.mutableArray ≠ []) : Alone c s' := by
  refine ⟨?_, fun hc hnot => ?_, fun u hu => ?_⟩
  · rw [hthread]
    exact fun u hu => (Function.forall_update_iff s.thread fun u y => y.deletes → u = c).mpr
      ⟨hx, fun u _ => h.deletes u⟩ u hu
  · rw [hthread] at hc
    by_cases hct : c = t
    · subst hct
      rw [Function.update_self] at hc
      exact absurd (hwaits hc) hnot
    · rw [Function.update_of_ne hct] at hc
      by_cases hold : c ∈ s.waiters
      · exact (hwaiters hold).resolve_left hnot
      · exact harray (h.woken hc hold)
  · rw [hthread] at hu
    by_cases hut : u = t
    · subst hut
      rw [Function.update_self] at hu
      exact hsignals hu
    · rw [Function.update_of_ne hut] at hu
      exact harray (h.appended u hu)

theorem alone_step {kind : Kind} {c : τ} {s s' : State τ} {a : Action τ} (hk : Kept s) (hi : Alone c s)
    (hc : OneConsumer c a) (h : Fires kind s a s') : Alone c s' := by
  cases h with
  | @call t m ht =>
    refine hi.move rfl (fun hx => ?_) id nofun nofun .inl
    cases m with
    | addObject => exact hx.elim
    | deleteObject => exact hc
  | @lock t m mutex ht hl =>
    refine hi.move rfl (fun hx => ?_) id ?_ ?_ .inl
    · cases m with
      | addObject => exact hx.elim
      | deleteObject => exact hi.deletes t (by simp [ht, Thread.deletes])
    · cases m <;> nofun
    · cases m <;> nofun
  | @addObject t ht => exact hi.move rfl nofun (by simp) nofun (by simp) .inl
  | @test t ht =>
    refine hi.move rfl (fun _ => hi.deletes t (by simp [ht, Thread.deletes])) id ?_ ?_ .inl
    · split <;> nofun
    · split <;> nofun
  | @wait t mutex ht hl =>
    have htc := hi.deletes t (by simp [ht, Thread.deletes])
    exact hi.move rfl (fun _ => htc) id (by simp) nofun fun hmem => .inl (List.mem_append_left _ hmem)
  | @reacquire t mutex ht hw hl =>
    exact hi.move rfl (fun _ => hi.deletes t (by simp [ht, Thread.deletes])) id nofun nofun .inl
  | @remove t l ht hr =>
    have htc := hi.deletes t (by simp [ht, Thread.deletes])
    subst htc
    refine ⟨fun u hu => ?_, fun hwaits => ?_, fun u hu => ?_⟩
    · by_cases hut : u = t
      · exact hut
      · exact hi.deletes u (by simpa [State.goto, hut] using hu)
    · simp [State.goto] at hwaits
    · -- Nobody else is inside, so nobody is about to signal.
      by_cases hut : u = t
      · simp [State.goto, hut] at hu
      · have hsignal : s.thread u = .signal := by simpa [State.goto, hut] using hu
        exact absurd (hk.tracks.exclusive (by simp [hsignal, Thread.holds]) (by simp [ht, Thread.holds])) hut
  | raise _ _ => exact hi.move rfl nofun id nofun nofun .inl
  | @unlock t m mutex ht hl => cases m <;> exact hi.move rfl nofun id nofun nofun .inl
  | @signalNobody t ht hw => exact hi.move rfl nofun id nofun nofun .inl
  | @signal t u ht hu => exact hi.move rfl nofun id nofun nofun fun _ => .inr (hi.appended t ht)
  | spurious _ => exact hc.elim

theorem Alone.refinds {kind : Kind} {c : τ} {s s' : State τ} {a : Action τ} (h : Alone c s)
    (hf : Fires kind s a s') : RefindsElement s a := by
  cases a with
  | run t =>
    intro ht
    have htc : t = c := h.deletes t (by simp [ht, Thread.deletes])
    subst htc
    cases hf with
    | reacquire _ hw _ => exact h.woken ht hw
    | _ => simp_all
  | _ => trivial

/-- With one consumer and without spurious wake-ups the demos are consistent,
whatever the producers do. -/
theorem one_consumer_consistent (d : Demo) (c : τ) {h : List (State τ × Action τ)} {s : State τ}
    (r : (system d).Run h s) (hc : System.Meets (fun _ a => OneConsumer c a) h) :
    System.Throughout Consistent h s := by
  refine (r.throughout_of_meets (I := fun s => Kept s ∧ Alone c s) ⟨kept_initial, alone_initial c⟩
    (fun s a s' hi hc hs => ?_) hc).mono fun _ hi => hi.1.consistent
  have hf := system_fires hs
  exact ⟨kept_step hi.1 (hi.2.refinds hf) hf, alone_step hi.1 hi.2 hc hf⟩

/-- Thread 0 is the one consumer. -/
def consumerZero (_ : State (Fin 3)) : Action (Fin 3) → Bool
  | .call t .deleteObject => t == 0
  | .spurious _ => false
  | _ => true

theorem one_consumer_consistent_two : ∃ h, ∃ s : State (Fin 3), (system .pthreadMutexCondition).Run h s ∧
    System.Throughout Consistent h s ∧ s.mutableArray.length = 1 ∧ s.deleted = 1 := by
  have hrun : (((system .pthreadMutexCondition).restrict consumerZero).exec initialState
      [.call 0 .deleteObject, .call 1 .addObject, .call 2 .addObject, .run 0, .run 0, .run 0, .run 1, .run 1,
        .signal 1 (some 0), .run 1, .run 2, .run 2, .signal 2 none, .run 2, .run 0, .run 0, .run 0]).any
      (fun s => decide (s.mutableArray.length = 1 ∧ s.deleted = 1)) = true := by decide
  obtain ⟨h, s, hr, hm, hp⟩ := System.exists_run_of_exec hrun
  have hone := hm.mono (D := fun _ a => OneConsumer 0 a) fun s a ha => by
    cases a with
    | call t m =>
      cases m with
      | addObject => trivial
      | deleteObject => exact eq_of_beq ha
    | spurious t => cases ha
    | _ => trivial
  exact ⟨h, s, hr, one_consumer_consistent .pthreadMutexCondition 0 hr hone, of_decide_eq_true hp⟩

end ConditionDemo
