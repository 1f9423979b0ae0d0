import IOSStudy.Transition
import IOSStudy.RunLoop

/-!
# TWOViewController: a thread kept alive by a run loop, and dealloc

The worker leaves its loop when the weak reference has become nil, and
dealloc then waits for the worker. The reference becomes nil before dealloc
posts its request, so everything depends on where the worker is when the last
reference is dropped.
-/
namespace KeepAliveThread

open Transition RunLoop

inductive Request where
  | test | stopThreadAction
  deriving DecidableEq, Repr

/-- `test` is posted with `withObject:self` and retains self twice. The object
that posts `stopThreadAction` is deallocating and cannot be retained. -/
def Request.references : Request → Nat
  | .test => 2
  | .stopThreadAction => 0

/-- On the releasing thread deallocation begins, posts its request and waits. -/
inductive Dealloc where
  | alive | begun | waiting | done
  deriving DecidableEq, Repr

/-- Where the worker is. A load of `weakSelf` holds a reference until the next
step; `stopped` is the flag of the run loop. Under ARC the reference of the first
load lives to the end of the loop condition, so the code is never at
`loadStopThread` without one: the model has more interleavings than the code. -/
inductive Worker where
  | begin
  | loadWeakSelf
  | releaseWeakSelf
  | loadStopThread
  | releaseStopThread (stopThread : Bool)
  | runMode
  | perform (r : Request)
  | release (references : Nat) (stopped : Bool)
  | left
  deriving DecidableEq, Repr

/-- `outside` counts the references of the releasing thread. -/
structure State where
  outside : Nat
  retainCount : Nat
  stopThread : Bool
  requests : List Request
  dealloc : Dealloc
  worker : Worker
  deriving DecidableEq, Repr

inductive Action where
  | touchesBegan
  | retain
  | release
  | dealloc
  | worker
  deriving DecidableEq, Repr

def State.goto (s : State) (w : Worker) : State := { s with worker := w }

def State.retain (s : State) : State := { s with retainCount := s.retainCount + 1 }

/-- The last release begins the deallocation, on the releasing thread. -/
def State.release (s : State) : State :=
  { s with
    retainCount := s.retainCount - 1
    dealloc := if s.retainCount = 1 then .begun else s.dealloc }

/-- On the worker itself dealloc performs `stopThreadAction` at once. -/
def State.releaseOnWorker (s : State) : State :=
  { s with
    retainCount := s.retainCount - 1
    dealloc := if s.retainCount = 1 then .done else s.dealloc
    stopThread := if s.retainCount = 1 then true else s.stopThread }

def State.performSelector (s : State) (r : Request) : State :=
  { s with requests := s.requests ++ [r], retainCount := s.retainCount + r.references }

/-- `runMode:beforeDate:` with `[NSDate distantFuture]` returns after a source was handled. -/
def runModeArguments : RunInMode := ⟨63113904000, true⟩

/-- The activation at the end of the pass in which it has delivered a request. -/
def deliveryPass (stopped : Bool) : Activation :=
  let a := (Activation.enter 0 runModeArguments).beginPass.beginPerform.endPerform
  if stopped then a.stop else a

def workerStep (s : State) : Option State :=
  match s.worker with
  | .begin => some (s.goto .loadWeakSelf)
  | .loadWeakSelf =>
      some (if s.dealloc = .alive then s.retain.goto .releaseWeakSelf else s.goto .left)
  | .releaseWeakSelf => some (s.releaseOnWorker.goto .loadStopThread)
  -- The property of nil is NO, and the loop body runs once more.
  | .loadStopThread => some (if s.dealloc = .alive then
      s.retain.goto (.releaseStopThread s.stopThread) else s.goto .runMode)
  | .releaseStopThread stopThread =>
      some (s.releaseOnWorker.goto (if stopThread then .left else .runMode))
  | .runMode => match s.requests with
    | [] => none
    | r :: requests => some { s.goto (.perform r) with requests := requests }
  | .perform .test => some (s.goto (.release 2 false))
  | .perform .stopThreadAction =>
      some { s.goto (.release 0 true) with stopThread := true, dealloc := .done }
  | .release (n + 1) stopped =>
      some (s.releaseOnWorker.goto (.release n (stopped || decide (s.retainCount = 1))))
  | .release 0 stopped =>
      some (s.goto (if (deliveryPass stopped).passResult false = none then .runMode else .loadWeakSelf))
  | .left => none

/-- The releasing thread runs the methods of the controller, and dealloc. -/
def step (s : State) : Action → Option State
  | .touchesBegan => if s.dealloc = .alive ∧ 0 < s.outside then
      some (if s.stopThread then s else s.performSelector .test) else none
  | .retain => if s.dealloc = .alive ∧ 0 < s.outside then
      some { s.retain with outside := s.outside + 1 } else none
  | .release => if s.dealloc = .alive ∧ 0 < s.outside then
      some { s.release with outside := s.outside - 1 } else none
  | .dealloc => if s.dealloc = .begun then
      some { s.performSelector .stopThreadAction with dealloc := .waiting } else none
  | .worker => workerStep s

/-- After `viewDidLoad`. -/
def initialState : State where
  outside := 1
  retainCount := 1
  stopThread := false
  requests := []
  dealloc := .alive
  worker := .begin

def system : System State Action := ⟨initialState, step⟩

/-- The request that dealloc waits for has a live worker to perform it. -/
def Served (s : State) : Prop := s.dealloc = .waiting → s.worker ≠ .left

/-- The worker is past its test of `weakSelf` and no delivery has begun. -/
def Asleep (s : State) : Prop := s.worker = .loadStopThread ∨ s.worker = .runMode

/-- The releasing thread drops the last reference only while the worker is asleep. -/
def DropsAsleep (s : State) (a : Action) : Prop := a = .release → s.retainCount = 1 → Asleep s

/-- Everything a step can do, guards included. -/
inductive Fires (s : State) : Action → State → Prop where
  | touchesBegan (hd : s.dealloc = .alive) (ho : 0 < s.outside) (ht : s.stopThread = false) :
      Fires s .touchesBegan (s.performSelector .test)
  | ignore (hd : s.dealloc = .alive) (ho : 0 < s.outside) (ht : s.stopThread = true) :
      Fires s .touchesBegan s
  | retain (hd : s.dealloc = .alive) (ho : 0 < s.outside) :
      Fires s .retain { s.retain with outside := s.outside + 1 }
  | release (hd : s.dealloc = .alive) (ho : 0 < s.outside) :
      Fires s .release { s.release with outside := s.outside - 1 }
  | dealloc (hd : s.dealloc = .begun) :
      Fires s .dealloc { s.performSelector .stopThreadAction with dealloc := .waiting }
  | begin (hw : s.worker = .begin) : Fires s .worker (s.goto .loadWeakSelf)
  | loadWeakSelf (hw : s.worker = .loadWeakSelf) (hd : s.dealloc = .alive) :
      Fires s .worker (s.retain.goto .releaseWeakSelf)
  | leave (hw : s.worker = .loadWeakSelf) (hd : s.dealloc ≠ .alive) : Fires s .worker (s.goto .left)
  | releaseWeakSelf (hw : s.worker = .releaseWeakSelf) :
      Fires s .worker (s.releaseOnWorker.goto .loadStopThread)
  | loadStopThread (hw : s.worker = .loadStopThread) (hd : s.dealloc = .alive) :
      Fires s .worker (s.retain.goto (.releaseStopThread s.stopThread))
  | loadNil (hw : s.worker = .loadStopThread) (hd : s.dealloc ≠ .alive) :
      Fires s .worker (s.goto .runMode)
  | releaseStopThread {stopThread : Bool} (hw : s.worker = .releaseStopThread stopThread) :
      Fires s .worker (s.releaseOnWorker.goto (if stopThread then .left else .runMode))
  | deliver {r : Request} {requests : List Request} (hw : s.worker = .runMode)
      (hr : s.requests = r :: requests) :
      Fires s .worker { s.goto (.perform r) with requests := requests }
  | test (hw : s.worker = .perform .test) : Fires s .worker (s.goto (.release 2 false))
  | stopThreadAction (hw : s.worker = .perform .stopThreadAction) :
      Fires s .worker { s.goto (.release 0 true) with stopThread := true, dealloc := .done }
  | releaseRequest {n : Nat} {stopped : Bool} (hw : s.worker = .release (n + 1) stopped) :
      Fires s .worker (s.releaseOnWorker.goto (.release n (stopped || decide (s.retainCount = 1))))
  | return {stopped : Bool} (hw : s.worker = .release 0 stopped) :
      Fires s .worker (s.goto .loadWeakSelf)

/-- One delivery is enough for `runMode:beforeDate:` to return. -/
theorem deliveryPass_returns (stopped timeout : Bool) :
    (deliveryPass stopped).passResult timeout = some .handledSource := by
  cases stopped with
  | false => exact passResult_of_handled rfl rfl timeout
  | true => exact passResult_of_handled rfl rfl timeout

theorem worker_fires {s s' : State} (h : workerStep s = some s') : Fires s .worker s' := by
  simp only [workerStep] at h
  cases hw : s.worker with
  | begin => simp only [hw, Option.some.injEq] at h; subst h; exact .begin hw
  | loadWeakSelf =>
    simp only [hw, Option.some.injEq] at h
    subst h
    by_cases hd : s.dealloc = .alive
    · rw [if_pos hd]
      exact .loadWeakSelf hw hd
    · rw [if_neg hd]
      exact .leave hw hd
  | releaseWeakSelf => simp only [hw, Option.some.injEq] at h; subst h; exact .releaseWeakSelf hw
  | loadStopThread =>
    simp only [hw, Option.some.injEq] at h
    subst h
    by_cases hd : s.dealloc = .alive
    · rw [if_pos hd]
      exact .loadStopThread hw hd
    · rw [if_neg hd]
      exact .loadNil hw hd
  | releaseStopThread stopThread =>
    simp only [hw, Option.some.injEq] at h
    subst h
    exact .releaseStopThread hw
  | runMode =>
    cases hr : s.requests with
    | nil => simp [hw, hr] at h
    | cons r requests => simp only [hw, hr, Option.some.injEq] at h; subst h; exact .deliver hw hr
  | perform r =>
    cases r with
    | test => simp only [hw, Option.some.injEq] at h; subst h; exact .test hw
    | stopThreadAction =>
      simp only [hw, Option.some.injEq] at h
      subst h
      exact .stopThreadAction hw
  | release n stopped =>
    cases n with
    | zero =>
      simp only [hw, deliveryPass_returns, reduceCtorEq, if_false, Option.some.injEq] at h
      subst h
      exact .return hw
    | succ n => simp only [hw, Option.some.injEq] at h; subst h; exact .releaseRequest hw
  | left => simp [hw] at h

theorem system_fires {s s' : State} {a : Action} (h : system.step s a = some s') :
    Fires s a s' := by
  simp only [system, step] at h
  cases a with
  | touchesBegan =>
    simp only [Option.ite_none_right_eq_some, Option.some.injEq] at h
    obtain ⟨⟨hd, ho⟩, rfl⟩ := h
    cases ht : s.stopThread with
    | false => exact .touchesBegan hd ho ht
    | true => exact .ignore hd ho ht
  | retain =>
    simp only [Option.ite_none_right_eq_some, Option.some.injEq] at h
    obtain ⟨⟨hd, ho⟩, rfl⟩ := h
    exact .retain hd ho
  | release =>
    simp only [Option.ite_none_right_eq_some, Option.some.injEq] at h
    obtain ⟨⟨hd, ho⟩, rfl⟩ := h
    exact .release hd ho
  | dealloc =>
    simp only [Option.ite_none_right_eq_some, Option.some.injEq] at h
    obtain ⟨hd, rfl⟩ := h
    exact .dealloc hd
  | worker => exact worker_fires h

/-- The references that the worker holds. -/
def Worker.held : Worker → Nat
  | .releaseWeakSelf | .releaseStopThread _ => 1
  | .perform r => r.references
  | .release n _ => n
  | .begin | .loadWeakSelf | .loadStopThread | .runMode | .left => 0

/-- The references that the pending requests hold. -/
def pending : List Request → Nat
  | [] => 0
  | r :: requests => r.references + pending requests

@[simp] theorem pending_nil : pending [] = 0 := rfl
@[simp] theorem pending_cons (r : Request) (requests : List Request) :
    pending (r :: requests) = r.references + pending requests := rfl

theorem pending_append (requests : List Request) (r : Request) :
    pending (requests ++ [r]) = pending requests + r.references := by
  induction requests with
  | nil => rw [List.nil_append, pending_cons, pending_nil, Nat.add_comm]
  | cons r' requests ih =>
    rw [List.cons_append, pending_cons, pending_cons, ih]
    omega

theorem pending_eq_zero {requests : List Request} (h : ∀ r ∈ requests, r = .test)
    (hp : pending requests = 0) : requests = [] := by
  cases requests with
  | nil => rfl
  | cons r requests =>
    have hr := h r (by simp)
    rw [pending_cons, hr] at hp
    simp [Request.references] at hp

/-- What the worker does not do while the controller is alive. -/
def Worker.Working : Worker → Prop
  | .perform .stopThreadAction | .releaseStopThread true | .left => False
  | _ => True

/-- Every reference is accounted for, and nobody has asked the worker to stop. -/
structure Alive (s : State) : Prop where
  alive : s.dealloc = .alive
  positive : 0 < s.retainCount
  count : s.retainCount = s.outside + pending s.requests + s.worker.held
  flag : s.stopThread = false
  tests : ∀ r ∈ s.requests, r = .test
  working : s.worker.Working

/-- No reference is left, and only dealloc's own request can be pending. -/
structure Dead (s : State) : Prop where
  dead : s.dealloc ≠ .alive
  held : s.worker.held = 0
  waiting : s.dealloc = .waiting →
    s.requests = [.stopThreadAction] ∧ s.worker ≠ .perform .stopThreadAction ∨
    s.requests = [] ∧ s.worker = .perform .stopThreadAction
  empty : s.dealloc ≠ .waiting → s.requests = [] ∧ s.worker ≠ .perform .stopThreadAction

theorem alive_initial : Alive initialState := by
  refine ⟨rfl, ?_, rfl, rfl, ?_, trivial⟩
  · simp [initialState]
  · simp [initialState]

/-- Without the reference that is dropped the controller is alive or has no
reference left at all. -/
theorem Alive.drop {s s' : State} (h : Alive s) (hcount : s'.retainCount = s.retainCount - 1)
    (hheld : s.outside + s.worker.held = s'.outside + s'.worker.held + 1)
    (hrequests : s'.requests = s.requests) (hworking : s'.worker.Working)
    (halive : s.retainCount ≠ 1 → s'.dealloc = .alive ∧ s'.stopThread = s.stopThread)
    (hdead : s.retainCount = 1 → s'.dealloc = .begun ∨ s'.dealloc = .done) : Alive s' ∨ Dead s' := by
  have hsum := h.count
  by_cases hone : s.retainCount = 1
  · right
    have hzero : pending s.requests = 0 := by omega
    have hempty := hrequests.trans (pending_eq_zero h.tests hzero)
    have hstop : s'.worker ≠ .perform .stopThreadAction := by
      intro hw
      rw [hw] at hworking
      exact hworking
    have hdealloc := hdead hone
    refine ⟨?_, ?_, ?_, fun _ => ⟨hempty, hstop⟩⟩
    · rcases hdealloc with hd | hd <;> simp [hd]
    · omega
    · rcases hdealloc with hd | hd <;> simp [hd]
  · left
    obtain ⟨hd, hflag⟩ := halive hone
    have hpositive := h.positive
    refine ⟨hd, ?_, ?_, hflag.trans h.flag, hrequests ▸ h.tests, hworking⟩
    · omega
    · rw [hrequests]
      omega

theorem Alive.dropOnWorker {s : State} {w : Worker} (h : Alive s)
    (hheld : s.worker.held = w.held + 1) (hworking : w.Working) :
    Alive (s.releaseOnWorker.goto w) ∨ Dead (s.releaseOnWorker.goto w) := by
  apply h.drop
  · rfl
  · change s.outside + s.worker.held = s.outside + w.held + 1
    omega
  · rfl
  · exact hworking
  · intro hone
    simp [State.goto, State.releaseOnWorker, hone, h.alive]
  · intro hone
    simp [State.goto, State.releaseOnWorker, hone]

/-- The worker goes on without a change of references. -/
theorem Alive.goto {s : State} {w : Worker} (h : Alive s) (hheld : s.worker.held = w.held)
    (hworking : w.Working) : Alive (s.goto w) := by
  refine ⟨h.alive, h.positive, ?_, h.flag, h.tests, hworking⟩
  exact h.count.trans (by rw [hheld]; rfl)

theorem Alive.load {s : State} {w : Worker} (h : Alive s) (hheld : w.held = s.worker.held + 1)
    (hworking : w.Working) : Alive (s.retain.goto w) := by
  refine ⟨h.alive, Nat.succ_pos _, ?_, h.flag, h.tests, hworking⟩
  change s.retainCount + 1 = s.outside + pending s.requests + w.held
  have hsum := h.count
  omega

theorem alive_step {s s' : State} {a : Action} (h : Alive s) (hf : Fires s a s') :
    Alive s' ∨ Dead s' := by
  have hsum := h.count
  cases hf with
  | touchesBegan hd _ _ =>
    refine .inl ⟨hd, Nat.lt_add_right _ h.positive, ?_, h.flag, ?_, h.working⟩
    · change s.retainCount + 2 = s.outside + pending (s.requests ++ [.test]) + s.worker.held
      rw [pending_append]
      change s.retainCount + 2 = s.outside + (pending s.requests + 2) + s.worker.held
      omega
    · intro r hr
      rcases List.mem_append.mp hr with hr | hr
      · exact h.tests r hr
      · exact List.mem_singleton.mp hr
  | ignore _ _ _ => exact .inl h
  | retain hd _ =>
    refine .inl ⟨hd, Nat.succ_pos _, ?_, h.flag, h.tests, h.working⟩
    change s.retainCount + 1 = s.outside + 1 + pending s.requests + s.worker.held
    omega
  | release hd ho =>
    apply h.drop
    · rfl
    · change s.outside + s.worker.held = s.outside - 1 + s.worker.held + 1
      omega
    · rfl
    · exact h.working
    · intro hone
      simp [State.release, hone, hd]
    · intro hone
      simp [State.release, hone]
  | dealloc hd => simp [h.alive] at hd
  | begin hw => exact .inl (h.goto (by simp [hw, Worker.held]) trivial)
  | loadWeakSelf hw _ => exact .inl (h.load (by simp [hw, Worker.held]) trivial)
  | leave _ hd | loadNil _ hd => exact absurd h.alive hd
  | releaseWeakSelf hw => exact h.dropOnWorker (by simp [hw, Worker.held]) trivial
  | loadStopThread hw _ =>
    rw [h.flag]
    exact .inl (h.load (by simp [hw, Worker.held]) trivial)
  | @releaseStopThread stopThread hw =>
    have hworking := h.working
    rw [hw] at hworking
    cases stopThread with
    | true => exact hworking.elim
    | false => exact h.dropOnWorker (by simp [hw, Worker.held]) trivial
  | @deliver r requests hw hr =>
    have htest := h.tests r (by simp [hr])
    subst htest
    refine .inl ⟨h.alive, h.positive, ?_, h.flag, ?_, trivial⟩
    · rw [hr, hw, pending_cons] at hsum
      change s.retainCount = s.outside + pending requests + Request.test.references
      have hheld : Worker.runMode.held = 0 := rfl
      omega
    · intro r' hr'
      exact h.tests r' (by simp [hr, show r' ∈ requests from hr'])
  | test hw => exact .inl (h.goto (by simp [hw, Worker.held, Request.references]) trivial)
  | stopThreadAction hw =>
    have hworking := h.working
    rw [hw] at hworking
    exact hworking.elim
  | releaseRequest hw => exact h.dropOnWorker (by simp [hw, Worker.held]) trivial
  | «return» hw => exact .inl (h.goto (by simp [hw, Worker.held]) trivial)

theorem dead_step {s s' : State} {a : Action} (h : Dead s) (hf : Fires s a s') : Dead s' := by
  have hheld := h.held
  cases hf with
  | touchesBegan hd _ _ | ignore hd _ _ | retain hd _ | release hd _ => exact absurd hd h.dead
  | dealloc hd =>
    obtain ⟨hempty, hstop⟩ := h.empty (by simp [hd])
    refine ⟨by simp, h.held, fun _ => .inl ⟨?_, hstop⟩, by simp⟩
    simp [State.performSelector, hempty]
  | loadWeakSelf _ hd | loadStopThread _ hd => exact absurd hd h.dead
  | begin hw | leave hw _ | loadNil hw _ | «return» hw =>
    refine ⟨h.dead, rfl, ?_, ?_⟩
    · intro hd
      have hpending := (h.waiting hd).resolve_right (by simp [hw])
      exact .inl ⟨hpending.1, by simp [State.goto]⟩
    · intro hd
      exact ⟨(h.empty hd).1, by simp [State.goto]⟩
  | releaseWeakSelf hw | releaseStopThread hw | test hw | releaseRequest hw =>
    simp [hw, Worker.held, Request.references] at hheld
  | @deliver r requests hw hr =>
    by_cases hd : s.dealloc = .waiting
    · obtain ⟨hpending, _⟩ := (h.waiting hd).resolve_right (by simp [hw])
      obtain ⟨rfl, rfl⟩ := List.cons.inj (hr.symm.trans hpending)
      exact ⟨h.dead, rfl, fun _ => .inr ⟨rfl, rfl⟩, fun hne => absurd hd hne⟩
    · simp [(h.empty hd).1] at hr
  | stopThreadAction hw =>
    refine ⟨by simp, rfl, by simp, fun _ => ⟨?_, by simp [State.goto]⟩⟩
    by_cases hd : s.dealloc = .waiting
    · exact ((h.waiting hd).resolve_left fun hpending => hpending.2 hw).1
    · exact absurd hw (h.empty hd).2

theorem counted_step {s s' : State} {a : Action} (h : Alive s ∨ Dead s) (hf : Fires s a s') :
    Alive s' ∨ Dead s' := by
  rcases h with h | h
  · exact alive_step h hf
  · exact .inr (dead_step h hf)

/-- While dealloc is under way on the releasing thread, the worker cannot test
`weakSelf` before it has performed the request. -/
def Reached (s : State) : Prop :=
  s.dealloc = .begun ∨ s.dealloc = .waiting → Asleep s ∨ s.worker = .perform .stopThreadAction

theorem Alive.reached {s : State} (h : Alive s) : Reached s := by
  rintro (hd | hd) <;> simp [h.alive] at hd

theorem Reached.served {s : State} (h : Reached s) : Served s := by
  intro hd hleft
  rcases h (.inr hd) with (hw | hw) | hw <;> simp [hw] at hleft

/-- Deallocation begins on the releasing thread only where the last reference
is dropped there. -/
theorem Alive.reached_step {s s' : State} {a : Action} (h : Alive s) (hc : DropsAsleep s a)
    (hf : Fires s a s') : Reached s' := by
  have hworker : ∀ w, ¬ ((s.releaseOnWorker.goto w).dealloc = .begun ∨
      (s.releaseOnWorker.goto w).dealloc = .waiting) := by
    intro w
    simp only [State.goto, State.releaseOnWorker, h.alive]
    split <;> simp
  intro hd
  cases hf with
  | release _ _ =>
    by_cases hone : s.retainCount = 1
    · exact .inl (hc rfl hone)
    · simp [State.release, hone, h.alive] at hd
  | releaseWeakSelf _ | releaseStopThread _ | releaseRequest _ => exact absurd hd (hworker _)
  | dealloc hbegun => simp [h.alive] at hbegun
  | leave _ hdead | loadNil _ hdead => exact absurd h.alive hdead
  | _ => simp [State.performSelector, State.retain, State.goto, h.alive] at hd

theorem Dead.reached_step {s s' : State} {a : Action} (hi : Dead s) (h : Reached s)
    (hf : Fires s a s') : Reached s' := by
  have hheld := hi.held
  intro hd
  cases hf with
  | touchesBegan halive _ _ | ignore halive _ _ | retain halive _ | release halive _ =>
    exact absurd halive hi.dead
  | loadWeakSelf _ halive | loadStopThread _ halive => exact absurd halive hi.dead
  | dealloc hbegun => exact h (.inl hbegun)
  | begin hw | leave hw _ | test hw | «return» hw =>
    rcases h hd with (hasleep | hasleep) | hasleep <;> simp [hw] at hasleep
  | loadNil _ _ => exact .inl (.inr rfl)
  | releaseWeakSelf hw | releaseStopThread hw | releaseRequest hw =>
    simp [hw, Worker.held] at hheld
  | @deliver r requests hw hr =>
    by_cases hwaiting : s.dealloc = .waiting
    · obtain ⟨hpending, _⟩ := (hi.waiting hwaiting).resolve_right (by simp [hw])
      obtain ⟨rfl, _⟩ := List.cons.inj (hr.symm.trans hpending)
      exact .inr rfl
    · simp [(hi.empty hwaiting).1] at hr
  | stopThreadAction _ => simp at hd

theorem reached_step {s s' : State} {a : Action} (hi : Alive s ∨ Dead s) (h : Reached s)
    (hc : DropsAsleep s a) (hf : Fires s a s') : Reached s' := by
  rcases hi with hi | hi
  · exact hi.reached_step hc hf
  · exact hi.reached_step h hf

/-- The worker finds `weakSelf` nil before it performs the request of dealloc. -/
structure Doomed (s : State) : Prop where
  dealloc : s.dealloc = .begun ∨ s.dealloc = .waiting
  worker : s.worker = .begin ∨ s.worker = .loadWeakSelf ∨ (∃ stopped, s.worker = .release 0 stopped) ∨
    s.worker = .left

theorem doomed_of_drop {s s' : State} {a : Action} (h : Alive s) (hc : ¬ DropsAsleep s a)
    (hf : Fires s a s') : Doomed s' := by
  simp only [DropsAsleep, Classical.not_imp] at hc
  obtain ⟨rfl, hone, hawake⟩ := hc
  cases hf with
  | release hd ho =>
    have hsum := h.count
    have hheld : s.worker.held = 0 := by omega
    have hworking := h.working
    refine ⟨.inl (by simp [State.release, hone]), ?_⟩
    change s.worker = .begin ∨ s.worker = .loadWeakSelf ∨ (∃ stopped, s.worker = .release 0 stopped) ∨
      s.worker = .left
    cases hw : s.worker with
    | begin => exact .inl rfl
    | loadWeakSelf => exact .inr (.inl rfl)
    | loadStopThread => exact absurd (.inl hw) hawake
    | runMode => exact absurd (.inr hw) hawake
    | release n stopped =>
      rw [hw] at hheld
      have hn : n = 0 := hheld
      subst hn
      exact .inr (.inr (.inl ⟨stopped, rfl⟩))
    | left => exact .inr (.inr (.inr rfl))
    | releaseWeakSelf | releaseStopThread _ => simp [hw, Worker.held] at hheld
    | perform r =>
      cases r with
      | test => simp [hw, Worker.held, Request.references] at hheld
      | stopThreadAction =>
        rw [hw] at hworking
        exact hworking.elim

theorem doomed_step {s s' : State} {a : Action} (h : Doomed s) (hf : Fires s a s') : Doomed s' := by
  have hdead : s.dealloc ≠ .alive := by rcases h.dealloc with hd | hd <;> simp [hd]
  have hworker := h.worker
  cases hf with
  | touchesBegan hd _ _ | ignore hd _ _ | retain hd _ | release hd _ => exact absurd hd hdead
  | loadWeakSelf _ hd | loadStopThread _ hd => exact absurd hd hdead
  | dealloc _ => exact ⟨.inr rfl, h.worker⟩
  | begin _ | «return» _ => exact ⟨h.dealloc, .inr (.inl rfl)⟩
  | leave _ _ => exact ⟨h.dealloc, .inr (.inr (.inr rfl))⟩
  | _ hw => simp [hw] at hworker

/-- Nothing holds the worker up on its way out. -/
theorem doomed_leaves {s : State} (h : Doomed s) :
    ∃ as t, system.exec s as = some t ∧ t.worker = .left ∧ t.dealloc = s.dealloc := by
  have hdead : s.dealloc ≠ .alive := by rcases h.dealloc with hd | hd <;> simp [hd]
  rcases h.worker with hw | hw | ⟨stopped, hw⟩ | hw
  · refine ⟨[.worker, .worker], s.goto .left, ?_, rfl, rfl⟩
    simp [system, step, workerStep, hw, State.goto, hdead]
  · refine ⟨[.worker], s.goto .left, ?_, rfl, rfl⟩
    simp [system, step, workerStep, hw, State.goto, hdead]
  · refine ⟨[.worker, .worker], s.goto .left, ?_, rfl, rfl⟩
    simp [system, step, workerStep, hw, State.goto, hdead, deliveryPass_returns]
  · exact ⟨[], s, rfl, hw, rfl⟩

theorem doomed_fails {s : State} (h : Doomed s) :
    ∃ as t, system.exec s as = some t ∧ ¬ Served t := by
  rcases h.dealloc with hd | hd
  · have hstep : system.step s .dealloc =
        some { s.performSelector .stopThreadAction with dealloc := .waiting } := if_pos hd
    obtain ⟨as, t, he, hleft, hwaiting⟩ := doomed_leaves (doomed_step h (system_fires hstep))
    refine ⟨.dealloc :: as, t, ?_, fun hserved => hserved hwaiting hleft⟩
    rw [System.exec_cons, hstep]
    exact he
  · obtain ⟨as, t, he, hleft, hwaiting⟩ := doomed_leaves h
    exact ⟨as, t, he, fun hserved => hserved (hwaiting.trans hd) hleft⟩

theorem run_counted {h : List (State × Action)} {s : State} (r : system.Run h s) :
    Alive s ∨ Dead s :=
  System.Reachable.invariant (I := fun s => Alive s ∨ Dead s) (.inl alive_initial)
    (fun _ _ _ hi hs => counted_step hi (system_fires hs)) ⟨h, r⟩

theorem run_doomed {h : List (State × Action)} {s : State} (r : system.Run h s)
    (hc : ¬ System.Meets DropsAsleep h) : Doomed s := by
  induction r with
  | start => exact absurd (System.meets_nil _) hc
  | @fire h s s' a r hf ih =>
    by_cases hm : System.Meets DropsAsleep h
    · have hdrop : ¬ DropsAsleep s a := fun hd => hc ((System.meets_cons _ _ _ _).mpr ⟨hd, hm⟩)
      rcases run_counted r with halive | hdead
      · exact doomed_of_drop halive hdrop (system_fires hf)
      · simp only [DropsAsleep, Classical.not_imp] at hdrop
        obtain ⟨rfl, _⟩ := hdrop
        cases system_fires hf with
        | release hd _ => exact absurd hd hdead.dead
    · exact doomed_step (ih hm) (system_fires hf)

/-- When the last reference is dropped only while the worker is asleep, the
request of dealloc always has a live worker. Every other run can still be
continued to a dealloc that waits for a worker that has left. -/
theorem served_of_drops_asleep {h : List (State × Action)} {s : State} (r : system.Run h s) :
    (System.Meets DropsAsleep h → System.Throughout Served h s) ∧
    (¬ System.Meets DropsAsleep h → ∃ as t, system.exec s as = some t ∧ ¬ Served t) := by
  constructor
  · intro hm
    have hreached : System.Throughout (fun s => (Alive s ∨ Dead s) ∧ Reached s) h s :=
      r.throughout_of_meets ⟨.inl alive_initial, alive_initial.reached⟩
        (fun _ _ _ hi hc hs => ⟨counted_step hi.1 (system_fires hs),
          reached_step hi.1 hi.2 hc (system_fires hs)⟩) hm
    exact hreached.mono fun _ hi => hi.2.served
  · exact fun hm => doomed_fails (run_doomed r hm)

/-- The worker has performed a request and released what it held; the owner
drops the last reference before the worker loads `weakSelf` again. -/
def dropBehindDelivery : List Action :=
  [.worker, .worker, .worker, .worker, .worker, .touchesBegan, .worker, .worker, .worker, .worker,
    .release, .worker, .worker, .dealloc]

/-- dealloc posts its request to a thread that has left its loop. -/
theorem dealloc_waits_forever : ¬ ∀ s : State, system.Reachable s → Served s := by
  intro hall
  have hrun : (system.exec initialState dropBehindDelivery).any
      (fun s => decide (s.dealloc = .waiting ∧ s.worker = .left)) = true := by decide
  obtain ⟨s, hr, hp⟩ := System.exists_of_exec hrun
  obtain ⟨hwaiting, hleft⟩ := of_decide_eq_true hp
  exact hall s hr hwaiting hleft

/-- An owner that drops the last reference only while the worker is asleep. -/
def whenAsleep (s : State) (a : Action) : Bool :=
  decide (a = .release → s.retainCount = 1 → s.worker = .loadStopThread ∨ s.worker = .runMode)

theorem whenAsleep_drops (s : State) (a : Action) (h : whenAsleep s a = true) :
    DropsAsleep s a := by
  have himp : a = .release → s.retainCount = 1 → s.worker = .loadStopThread ∨ s.worker = .runMode :=
    of_decide_eq_true h
  exact himp

/-- A touch, and a controller that is released once its request has been performed. -/
theorem served_asleep : ∃ h s, system.Run h s ∧ System.Throughout Served h s ∧
    s.dealloc = .done ∧ s.worker = .left := by
  have hrun : ((system.restrict whenAsleep).exec initialState
      [.worker, .worker, .worker, .worker, .worker, .touchesBegan, .worker, .worker, .worker, .worker,
        .worker, .worker, .worker, .worker, .worker, .release, .dealloc, .worker, .worker, .worker,
        .worker]).any
      (fun s => decide (s.dealloc = .done ∧ s.worker = .left)) = true := by decide
  obtain ⟨h, s, r, hm, hp⟩ := System.exists_run_of_exec hrun
  exact ⟨h, s, r, (served_of_drops_asleep r).1 (hm.mono whenAsleep_drops), of_decide_eq_true hp⟩

end KeepAliveThread
