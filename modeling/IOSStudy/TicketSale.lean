import IOSStudy.Transition
import IOSStudy.Locks

/-!
# The ticket methods

All ticket demos sell from a counter, the `ticketCount` property or in
OsUnfairLockDemo `tickerCount`, that is read and written back in two steps. A
method is its lock, the call that takes the lock and the value its log line
prints; the threads of one view controller interleave the single steps of such
calls in any order.
-/
namespace TicketSale

open Transition Locks

/-- The locks under the names of their properties: `defaultLock` is the
`pthread_mutex_t` or the `os_unfair_lock`, `lock` the `NSLock` of NSLockDemo or
the `OSSpinLock` of OSSPinLockDemo, and `queue` the serial queue. -/
inductive LockName where
  | defaultLock | lock | nslock | queue
  deriving DecidableEq, Repr

/-- Wait for the lock, give up when it is taken, or `dispatch_sync`, whose
blocks run one at a time in the order of submission. -/
inductive Acquire where
  | lock | trylock | sync
  deriving DecidableEq, Repr

/-- What the log line prints: the local variable, or the property read again. -/
inductive Printed where
  | oldTicketsCount | ticketCount
  deriving DecidableEq, Repr

structure Method where
  acquire : Acquire
  lock : LockName
  prints : Printed
  deriving DecidableEq, Repr

inductive Thread where
  | idle
  | submit (m : Method)
  | acquire (m : Method)
  | read (m : Method)
  | write (m : Method) (oldTicketsCount : Int)
  | log (m : Method) (oldTicketsCount : Int)
  | release (m : Method)
  deriving DecidableEq, Repr

/-- `entered` is not in the source: it lists the callers in the order in which
they entered a critical section. A log line is kept with the thread it prints. -/
structure State (τ : Type*) where
  ticketCount : Int
  mutex : LockName → Mutex τ
  line : LockName → List τ
  thread : τ → Thread
  entered : List τ
  printed : List (τ × Int)

inductive Action (τ : Type*) where
  | call (t : τ) (m : Method)
  | run (t : τ)

variable {τ : Type*} [DecidableEq τ]

def Method.begin (m : Method) : Thread :=
  match m.acquire with
  | .sync => .submit m
  | _ => .acquire m

def State.goto (s : State τ) (t : τ) (x : Thread) : State τ :=
  { s with thread := Function.update s.thread t x }

/-- The lock has been taken: the critical section begins. -/
def State.enter (s : State τ) (t : τ) (m : Method) (mutex : Mutex τ) : State τ :=
  { s with
    mutex := Function.update s.mutex m.lock mutex
    thread := Function.update s.thread t (.read m)
    entered := s.entered ++ [t] }

def acquireStep (s : State τ) (t : τ) (m : Method) : Option (State τ) :=
  match m.acquire with
  | .lock => ((s.mutex m.lock).lock .normal t).map (s.enter t m)
  | .trylock => match (s.mutex m.lock).lock .normal t with
    | some mutex => some (s.enter t m mutex)
    | none => some (s.goto t .idle)
  | .sync => if (s.line m.lock).head? = some t then
      ((s.mutex m.lock).lock .normal t).map fun mutex =>
        { s.enter t m mutex with line := Function.update s.line m.lock (s.line m.lock).tail }
    else none

/-- One step of a thread inside its method. -/
def runStep (s : State τ) (t : τ) : Option (State τ) :=
  match s.thread t with
  | .idle => none
  | .submit m => some { s.goto t (.acquire m) with
      line := Function.update s.line m.lock (s.line m.lock ++ [t]) }
  | .acquire m => acquireStep s t m
  | .read m => some (s.goto t (.write m s.ticketCount))
  | .write m oldTicketsCount => some { s.goto t (.log m (oldTicketsCount - 1)) with
      ticketCount := oldTicketsCount - 1 }
  | .log m oldTicketsCount => some { s.goto t (.release m) with
      printed := s.printed ++ [(t, match m.prints with
        | .oldTicketsCount => oldTicketsCount
        | .ticketCount => s.ticketCount)] }
  | .release m => ((s.mutex m.lock).unlock t).map fun mutex =>
      { s.goto t .idle with mutex := Function.update s.mutex m.lock mutex }

def step (methods : List Method) (s : State τ) : Action τ → Option (State τ)
  | .call t m => if s.thread t = .idle ∧ m ∈ methods then some (s.goto t m.begin) else none
  | .run t => runStep s t

def initialState (initial : Int) : State τ where
  ticketCount := initial
  mutex := fun _ => .free
  line := fun _ => []
  thread := fun _ => .idle
  entered := []
  printed := []

/-- Any threads call any of the methods any number of times on one view controller. -/
def system (methods : List Method) (initial : Int) : System (State τ) (Action τ) :=
  ⟨initialState initial, step methods⟩

/-- The lock whose critical section the thread is in. -/
def Thread.inside : Thread → Option LockName
  | .read m | .write m _ | .log m _ | .release m => some m.lock
  | .idle | .submit _ | .acquire _ => none

def Thread.holds (l : LockName) (x : Thread) : Nat := if x.inside = some l then 1 else 0

@[simp] theorem holds_idle (l : LockName) : Thread.idle.holds l = 0 := rfl
@[simp] theorem holds_submit (l : LockName) (m : Method) : (Thread.submit m).holds l = 0 := rfl
@[simp] theorem holds_acquire (l : LockName) (m : Method) : (Thread.acquire m).holds l = 0 := rfl
@[simp] theorem holds_read (l : LockName) (m : Method) :
    (Thread.read m).holds l = if m.lock = l then 1 else 0 := by simp [Thread.holds, Thread.inside]
@[simp] theorem holds_write (l : LockName) (m : Method) (old : Int) :
    (Thread.write m old).holds l = if m.lock = l then 1 else 0 := by simp [Thread.holds, Thread.inside]
@[simp] theorem holds_log (l : LockName) (m : Method) (old : Int) :
    (Thread.log m old).holds l = if m.lock = l then 1 else 0 := by simp [Thread.holds, Thread.inside]
@[simp] theorem holds_release (l : LockName) (m : Method) :
    (Thread.release m).holds l = if m.lock = l then 1 else 0 := by simp [Thread.holds, Thread.inside]
@[simp] theorem holds_begin (l : LockName) (m : Method) : m.begin.holds l = 0 := by
  unfold Method.begin
  cases m.acquire <;> rfl

/-- Everything a step can do, guards included; only which of the two values a
log line prints is left open. -/
inductive Fires (methods : List Method) (s : State τ) : Action τ → State τ → Prop where
  | call {t : τ} {m : Method} (ht : s.thread t = .idle) (hm : m ∈ methods) :
      Fires methods s (.call t m) (s.goto t m.begin)
  | submit {t : τ} {m : Method} (ht : s.thread t = .submit m) :
      Fires methods s (.run t) { s.goto t (.acquire m) with
        line := Function.update s.line m.lock (s.line m.lock ++ [t]) }
  | enter {t : τ} {m : Method} {mutex : Mutex τ} (ht : s.thread t = .acquire m)
      (hm : m.acquire ≠ .sync) (hl : (s.mutex m.lock).lock .normal t = some mutex) :
      Fires methods s (.run t) (s.enter t m mutex)
  | enterSync {t : τ} {m : Method} {mutex : Mutex τ} (ht : s.thread t = .acquire m)
      (hm : m.acquire = .sync) (hfirst : (s.line m.lock).head? = some t)
      (hl : (s.mutex m.lock).lock .normal t = some mutex) :
      Fires methods s (.run t)
        { s.enter t m mutex with line := Function.update s.line m.lock (s.line m.lock).tail }
  | giveUp {t : τ} {m : Method} (ht : s.thread t = .acquire m) (hm : m.acquire = .trylock)
      (hl : (s.mutex m.lock).lock .normal t = none) :
      Fires methods s (.run t) (s.goto t .idle)
  | read {t : τ} {m : Method} (ht : s.thread t = .read m) :
      Fires methods s (.run t) (s.goto t (.write m s.ticketCount))
  | write {t : τ} {m : Method} {old : Int} (ht : s.thread t = .write m old) :
      Fires methods s (.run t) { s.goto t (.log m (old - 1)) with ticketCount := old - 1 }
  | log {t : τ} {m : Method} {old value : Int} (ht : s.thread t = .log m old)
      (hv : value = old ∨ value = s.ticketCount) :
      Fires methods s (.run t) { s.goto t (.release m) with printed := s.printed ++ [(t, value)] }
  | release {t : τ} {m : Method} {mutex : Mutex τ} (ht : s.thread t = .release m)
      (hl : (s.mutex m.lock).unlock t = some mutex) :
      Fires methods s (.run t)
        { s.goto t .idle with mutex := Function.update s.mutex m.lock mutex }

theorem acquire_fires {methods : List Method} {s s' : State τ} {t : τ} {m : Method}
    (ht : s.thread t = .acquire m) (h : acquireStep s t m = some s') :
    Fires methods s (.run t) s' := by
  unfold acquireStep at h
  cases ha : m.acquire with
  | lock =>
    simp only [ha, Option.map_eq_some_iff] at h
    obtain ⟨mutex, hl, rfl⟩ := h
    exact .enter ht (by simp [ha]) hl
  | trylock =>
    simp only [ha] at h
    cases hl : (s.mutex m.lock).lock .normal t with
    | none =>
      simp only [hl, Option.some.injEq] at h
      subst h
      exact .giveUp ht ha hl
    | some mutex =>
      simp only [hl, Option.some.injEq] at h
      subst h
      exact .enter ht (by simp [ha]) hl
  | sync =>
    simp only [ha, Option.ite_none_right_eq_some, Option.map_eq_some_iff] at h
    obtain ⟨hfirst, mutex, hl, rfl⟩ := h
    exact .enterSync ht ha hfirst hl

theorem step_fires {methods : List Method} {s s' : State τ} {a : Action τ}
    (h : step methods s a = some s') : Fires methods s a s' := by
  cases a with
  | call t m =>
    simp only [step, Option.ite_none_right_eq_some, Option.some.injEq] at h
    obtain ⟨⟨ht, hm⟩, rfl⟩ := h
    exact .call ht hm
  | run t =>
    simp only [step, runStep] at h
    cases ht : s.thread t with
    | idle => simp [ht] at h
    | submit m => simp only [ht, Option.some.injEq] at h; subst h; exact .submit ht
    | acquire m => simp only [ht] at h; exact acquire_fires ht h
    | read m => simp only [ht, Option.some.injEq] at h; subst h; exact .read ht
    | write m old => simp only [ht, Option.some.injEq] at h; subst h; exact .write ht
    | log m old =>
      simp only [ht, Option.some.injEq] at h
      subst h
      exact .log ht (by cases m.prints <;> simp)
    | release m =>
      simp only [ht, Option.map_eq_some_iff] at h
      obtain ⟨mutex, hl, rfl⟩ := h
      exact .release ht hl

theorem system_fires {methods : List Method} {initial : Int} {s s' : State τ} {a : Action τ}
    (h : (system methods initial).step s a = some s') : Fires methods s a s' := step_fires h

@[simp] theorem goto_thread (s : State τ) (t : τ) (x : Thread) :
    (s.goto t x).thread = Function.update s.thread t x := rfl

/-- Every lock agrees with the threads' program counters after any step. -/
theorem tracks_step {methods : List Method} {s s' : State τ} {a : Action τ}
    (hi : ∀ l, Tracks (s.mutex l) (Thread.holds l) s.thread) (h : Fires methods s a s') :
    ∀ l, Tracks (s'.mutex l) (Thread.holds l) s'.thread := by
  intro l
  cases h with
  | call ht _ => exact (hi l).move (by simp [ht])
  | submit ht => exact (hi l).move (by simp [ht])
  | @enter t m mutex ht _ hl | @enterSync t m mutex ht _ _ hl =>
    simp only [State.enter]
    by_cases hlm : l = m.lock
    · subst hlm
      rw [Function.update_self]
      exact (hi m.lock).lock hl (by simp [ht])
    · rw [Function.update_of_ne hlm]
      exact (hi l).move (by simp [ht, Ne.symm hlm])
  | giveUp ht _ _ => exact (hi l).move (by simp [ht])
  | read ht => exact (hi l).move (by simp [ht])
  | write ht => exact (hi l).move (by simp [ht])
  | log ht _ => exact (hi l).move (by simp [ht])
  | @release t m mutex ht hl =>
    simp only [State.goto]
    by_cases hlm : l = m.lock
    · subst hlm
      rw [Function.update_self]
      exact (hi m.lock).unlock hl (by simp [ht])
    · rw [Function.update_of_ne hlm]
      exact (hi l).move (by simp [ht, Ne.symm hlm])

/-- The method the thread is in works with this lock. -/
def UsesOnly (l : LockName) : Thread → Prop
  | .idle => True
  | .submit m | .acquire m | .read m | .write m _ | .log m _ | .release m => m.lock = l

theorem begin_uses {l : LockName} {m : Method} (h : m.lock = l) : UsesOnly l m.begin := by
  unfold Method.begin
  cases m.acquire <;> exact h

/-- A thread stays with the lock of the method it was called with. -/
theorem uses_step {methods : List Method} {l : LockName} {s s' : State τ} {a : Action τ}
    (hi : ∀ t, UsesOnly l (s.thread t)) (hcall : ∀ t m, a = .call t m → m.lock = l)
    (h : Fires methods s a s') : ∀ t, UsesOnly l (s'.thread t) := by
  cases h with
  | @call t m _ _ => exact forall_move (fun u _ => hi u) (begin_uses (hcall t m rfl))
  | @submit t m ht | @enter t m mutex ht _ _ | @enterSync t m mutex ht _ _ _ | @read t m ht
  | @write t m old ht | @log t m old value ht _ =>
    have hl : m.lock = l := by simpa [ht, UsesOnly] using hi t
    exact forall_move (fun u _ => hi u) hl
  | giveUp _ _ _ => exact forall_move (fun u _ => hi u) trivial
  | release _ _ => exact forall_move (fun u _ => hi u) trivial

end TicketSale
