import IOSStudy.Transition
import IOSStudy.AtomicObjects
import IOSStudy.RunLoop

/-!
# ZTHSerialThreadObject: a serial executor on a run loop

Calls become perform requests in one queue, and the innermost activation
takes them from its head. Order is therefore never lost, at any depth. A stop
is only a mark on the activation that performs it: what that activation still
performs in its pass, and what lies outside of it, goes on.
-/
namespace SerialThread

open Transition RunLoop

inductive Thread where
  | created | executing | finished
  deriving DecidableEq, Repr

inductive Request (β : Type*) where
  | executeTask (block : β)
  | stopThreadAction
  deriving DecidableEq, Repr

/-- The innermost activation comes first. `calls`, `performed` and `opened`
record the requests passed, the requests performed and the number of
activations so far, and are not in the source. -/
structure State (β : Type*) where
  thread : Thread
  requests : List (Request β)
  activations : List Activation
  calls : List (Request β)
  performed : List (Request β)
  opened : Nat

inductive Action (β : Type*) where
  | run
  | executeBlock (block : Option β)
  | stop
  | beginPass
  | perform
  | blockReturns
  | spin (arguments : RunInMode)
  | endPass (timeout : Bool)

variable {β : Type*}

/-- `CFRunLoopRunInMode(kCFRunLoopDefaultMode, 1.0e10, false)` -/
def runArguments : RunInMode := ⟨10000000000, false⟩

def State.performSelector (s : State β) (r : Request β) : State β :=
  { s with requests := s.requests ++ [r], calls := s.calls ++ [r] }

def State.open (s : State β) (arguments : RunInMode) : State β :=
  { s with activations := .enter s.opened arguments :: s.activations, opened := s.opened + 1 }

/-- The thread block ends when the outermost activation returns. -/
def State.return (s : State β) (outer : List Activation) : State β :=
  { s with activations := outer, thread := if outer = [] then .finished else s.thread }

def run (s : State β) : Option (State β) :=
  if s.thread = .created then some ({ s with thread := .executing }.open runArguments) else none

def executeBlock (s : State β) : Option β → State β
  | none => s
  | some block => s.performSelector (.executeTask block)

def stop (s : State β) : State β := s.performSelector .stopThreadAction

/-- What performing a request does to the activation that performs it. -/
def Request.perform : Request β → Activation → Activation
  | .executeTask _ => Activation.beginPerform
  | .stopThreadAction => Activation.stop

/-- A step of the innermost activation in the given phase. -/
def State.innermost (s : State β) (p : Phase) (f : Activation → List Activation → State β) :
    Option (State β) :=
  match s.activations with
  | a :: outer => if a.phase = p then some (f a outer) else none
  | [] => none

def perform (s : State β) : Option (State β) :=
  match s.requests with
  | r :: requests => s.innermost .inPass fun a outer => { s with
      activations := r.perform a :: outer, requests := requests, performed := s.performed ++ [r] }
  | [] => none

def endPass (s : State β) (timeout : Bool) : Option (State β) :=
  s.innermost .inPass fun a outer =>
    if a.passResult timeout = none then { s with activations := a.wait :: outer }
    else s.return outer

def step (s : State β) : Action β → Option (State β)
  | .run => run s
  | .executeBlock block => if s.thread = .created then none else some (executeBlock s block)
  | .stop => if s.thread = .created then none else some (stop s)
  | .beginPass => s.innermost .waiting fun a outer => { s with activations := a.beginPass :: outer }
  | .perform => perform s
  | .blockReturns =>
      s.innermost .performing fun a outer => { s with activations := a.endPerform :: outer }
  -- A block that runs the loop itself opens a nested activation.
  | .spin arguments => s.innermost .performing fun _ _ => s.open arguments
  | .endPass timeout => endPass s timeout

def initialState : State β where
  thread := .created
  requests := []
  activations := []
  calls := []
  performed := []
  opened := 0

def system : System (State β) (Action β) := ⟨initialState, step⟩

/-- The blocks among the requests. -/
def blocks (requests : List (Request β)) : List β :=
  requests.filterMap fun
    | .executeTask block => some block
    | .stopThreadAction => none

/-- Everything a step can do, guards included. -/
inductive Fires (s : State β) : Action β → State β → Prop where
  | run (ht : s.thread = .created) : Fires s .run ({ s with thread := .executing }.open runArguments)
  | ignore (ht : s.thread ≠ .created) : Fires s (.executeBlock none) s
  | executeBlock {block : β} (ht : s.thread ≠ .created) :
      Fires s (.executeBlock (some block)) (s.performSelector (.executeTask block))
  | stop (ht : s.thread ≠ .created) : Fires s .stop (s.performSelector .stopThreadAction)
  | beginPass {a : Activation} {outer : List Activation} (ha : s.activations = a :: outer)
      (hp : a.phase = .waiting) : Fires s .beginPass { s with activations := a.beginPass :: outer }
  | perform {a : Activation} {outer : List Activation} {r : Request β} {requests : List (Request β)}
      (ha : s.activations = a :: outer) (hp : a.phase = .inPass) (hr : s.requests = r :: requests) :
      Fires s .perform { s with
        activations := r.perform a :: outer, requests := requests, performed := s.performed ++ [r] }
  | blockReturns {a : Activation} {outer : List Activation} (ha : s.activations = a :: outer)
      (hp : a.phase = .performing) :
      Fires s .blockReturns { s with activations := a.endPerform :: outer }
  | spin {arguments : RunInMode} {a : Activation} {outer : List Activation}
      (ha : s.activations = a :: outer) (hp : a.phase = .performing) :
      Fires s (.spin arguments) (s.open arguments)
  | return {timeout : Bool} {a : Activation} {outer : List Activation}
      (ha : s.activations = a :: outer) (hp : a.phase = .inPass)
      (hr : a.passResult timeout ≠ none) : Fires s (.endPass timeout) (s.return outer)
  | wait {timeout : Bool} {a : Activation} {outer : List Activation}
      (ha : s.activations = a :: outer) (hp : a.phase = .inPass)
      (hr : a.passResult timeout = none) :
      Fires s (.endPass timeout) { s with activations := a.wait :: outer }

theorem innermost_some {s s' : State β} {p : Phase} {f : Activation → List Activation → State β}
    (h : s.innermost p f = some s') :
    ∃ a outer, s.activations = a :: outer ∧ a.phase = p ∧ s' = f a outer := by
  simp only [State.innermost] at h
  cases ha : s.activations with
  | nil => simp [ha] at h
  | cons a outer =>
    simp only [ha, Option.ite_none_right_eq_some, Option.some.injEq] at h
    exact ⟨a, outer, rfl, h.1, h.2.symm⟩

theorem perform_fires {s s' : State β} (h : perform s = some s') : Fires s .perform s' := by
  simp only [perform] at h
  cases hr : s.requests with
  | nil => simp [hr] at h
  | cons r requests =>
    simp only [hr] at h
    obtain ⟨a, outer, ha, hp, rfl⟩ := innermost_some h
    exact .perform ha hp hr

theorem endPass_fires {s s' : State β} {timeout : Bool} (h : endPass s timeout = some s') :
    Fires s (.endPass timeout) s' := by
  obtain ⟨a, outer, ha, hp, rfl⟩ := innermost_some h
  cases hr : a.passResult timeout with
  | none => simp only [if_true]; exact .wait ha hp hr
  | some result => simp only [reduceCtorEq, if_false]; exact .return ha hp (by simp [hr])

theorem system_fires {s s' : State β} {a : Action β} (h : system.step s a = some s') :
    Fires s a s' := by
  simp only [system, step] at h
  cases a with
  | run =>
    simp only [run, Option.ite_none_right_eq_some, Option.some.injEq] at h
    obtain ⟨ht, rfl⟩ := h
    exact .run ht
  | executeBlock block =>
    simp only [Option.ite_none_left_eq_some, Option.some.injEq] at h
    obtain ⟨ht, rfl⟩ := h
    cases block with
    | none => exact .ignore ht
    | some block => exact .executeBlock ht
  | stop =>
    simp only [Option.ite_none_left_eq_some, Option.some.injEq] at h
    obtain ⟨ht, rfl⟩ := h
    exact .stop ht
  | beginPass =>
    obtain ⟨a, outer, ha, hp, rfl⟩ := innermost_some h
    exact .beginPass ha hp
  | perform => exact perform_fires h
  | blockReturns =>
    obtain ⟨a, outer, ha, hp, rfl⟩ := innermost_some h
    exact .blockReturns ha hp
  | spin arguments =>
    obtain ⟨a, outer, ha, hp, rfl⟩ := innermost_some h
    exact .spin ha hp
  | endPass timeout => exact endPass_fires h

/-- Calls are performed in order and none is lost or repeated. -/
def InOrder (s : State β) : Prop := s.calls = s.performed ++ s.requests

theorem inOrder_step {s s' : State β} {a : Action β} (h : InOrder s) (hf : Fires s a s') :
    InOrder s' := by
  simp only [InOrder] at h ⊢
  cases hf with
  | executeBlock _ | stop _ => simp [State.performSelector, h]
  | perform _ _ hr => simp [h, hr]
  | _ => exact h

theorem inOrder_initial : InOrder (initialState : State β) := rfl

@[simp] theorem blocks_nil : blocks ([] : List (Request β)) = [] := rfl
@[simp] theorem blocks_executeTask (block : β) (requests : List (Request β)) :
    blocks (.executeTask block :: requests) = block :: blocks requests := rfl
@[simp] theorem blocks_stopThreadAction (requests : List (Request β)) :
    blocks (.stopThreadAction :: requests) = blocks requests := rfl
@[simp] theorem blocks_append (requests requests' : List (Request β)) :
    blocks (requests ++ requests') = blocks requests ++ blocks requests' := List.filterMap_append

/-- Whatever the run loop does, the object is an executor that starts blocks
one after the other in the order of the calls. -/
def executorSimulation : Simulation (system : System (State β) (Action β))
    (AtomicObjects.executor β) where
  rel s t := InOrder s ∧ t = (blocks s.calls, blocks s.performed)
  start := ⟨inOrder_initial, rfl⟩
  step := by
    rintro s t a s' ⟨hi, rfl⟩ hs
    have hf := system_fires hs
    have hi' := inOrder_step hi hf
    cases hf with
    | @executeBlock block _ =>
      refine ⟨[.pass block], _, rfl, hi', ?_⟩
      simp [State.performSelector]
    | stop _ =>
      refine ⟨[], _, rfl, hi', ?_⟩
      simp [State.performSelector]
    | @perform a outer r requests _ _ hr =>
      cases r with
      | executeTask block =>
        have hcalls : blocks s.calls = blocks s.performed ++ block :: blocks requests := by
          rw [hi, hr, blocks_append, blocks_executeTask]
        refine ⟨[.start], _, ?_, hi', rfl⟩
        simp [AtomicObjects.executor, hcalls]
      | stopThreadAction =>
        refine ⟨[], _, rfl, hi', ?_⟩
        simp
    | _ => exact ⟨[], _, rfl, hi', rfl⟩

theorem reachable_executor {s : State β} (h : system.Reachable s) :
    (AtomicObjects.executor β).Reachable (blocks s.calls, blocks s.performed) := by
  obtain ⟨t, ht, _, rfl⟩ := executorSimulation.reachable h
  exact ht

/-- Activations are numbered from the outermost, which has the number 0 and
runs until it is stopped. -/
structure Stacked (s : State β) : Prop where
  numbered : s.activations.Pairwise fun a b => b.serial < a.serial
  opened : ∀ a ∈ s.activations, a.serial < s.opened
  outermost : s.activations ≠ [] → ∃ a ∈ s.activations, a.serial = 0
  arguments : ∀ a ∈ s.activations, a.serial = 0 → a.arguments = runArguments
  created : s.thread = .created → s.activations = [] ∧ s.opened = 0

theorem stacked_initial : Stacked (initialState : State β) where
  numbered := .nil
  opened := by simp [initialState]
  outermost := by simp [initialState]
  arguments := by simp [initialState]
  created := fun _ => ⟨rfl, rfl⟩

theorem Stacked.executing {s : State β} (h : Stacked s) {a : Activation} (ha : a ∈ s.activations) :
    s.thread ≠ .created := by
  intro ht
  simp [(h.created ht).1] at ha

/-- The innermost activation changes, but neither its number nor its arguments. -/
theorem Stacked.change {s s' : State β} (h : Stacked s) {a a' : Activation} {outer : List Activation}
    (ha : s.activations = a :: outer) (ha' : s'.activations = a' :: outer)
    (hserial : a'.serial = a.serial) (harguments : a'.arguments = a.arguments)
    (ht : s'.thread = s.thread) (ho : s'.opened = s.opened) : Stacked s' := by
  have hmem : ∀ b ∈ s'.activations, ∃ c ∈ s.activations,
      b.serial = c.serial ∧ b.arguments = c.arguments := by
    intro b hb
    rw [ha'] at hb
    rcases List.mem_cons.mp hb with rfl | hb
    · exact ⟨a, by simp [ha], hserial, harguments⟩
    · exact ⟨b, by simp [ha, hb], rfl, rfl⟩
  obtain ⟨hlt, houter⟩ := List.pairwise_cons.mp (ha ▸ h.numbered)
  refine ⟨?_, ?_, ?_, ?_, ?_⟩
  · rw [ha']
    refine List.pairwise_cons.mpr ⟨?_, houter⟩
    intro b hb
    rw [hserial]
    exact hlt b hb
  · intro b hb
    obtain ⟨c, hc, hserial, _⟩ := hmem b hb
    rw [hserial, ho]
    exact h.opened c hc
  · intro _
    obtain ⟨c, hc, hzero⟩ := h.outermost (by simp [ha])
    rw [ha] at hc
    rw [ha']
    rcases List.mem_cons.mp hc with rfl | hc
    · exact ⟨a', by simp, hserial.trans hzero⟩
    · exact ⟨c, by simp [hc], hzero⟩
  · intro b hb hzero
    obtain ⟨c, hc, hserial, harguments⟩ := hmem b hb
    rw [harguments]
    exact h.arguments c hc (hserial.symm.trans hzero)
  · intro hcreated
    rw [ht] at hcreated
    exact absurd hcreated (h.executing (a := a) (by simp [ha]))

/-- A new activation has a number of its own, 0 exactly when it is the first. -/
theorem Stacked.open {s : State β} (h : Stacked s) (arguments : RunInMode) (ht : s.thread ≠ .created)
    (harguments : s.opened = 0 → arguments = runArguments)
    (hbottom : s.activations = [] → s.opened = 0) : Stacked (s.open arguments) where
  numbered := List.pairwise_cons.mpr ⟨fun b hb => h.opened b hb, h.numbered⟩
  opened := by
    intro b hb
    rcases List.mem_cons.mp hb with rfl | hb
    · exact Nat.lt_succ_self _
    · exact Nat.lt_succ_of_lt (h.opened b hb)
  outermost := by
    intro _
    by_cases hempty : s.activations = []
    · exact ⟨_, List.mem_cons_self, hbottom hempty⟩
    · obtain ⟨b, hb, hzero⟩ := h.outermost hempty
      exact ⟨b, List.mem_cons_of_mem _ hb, hzero⟩
  arguments := by
    intro b hb hzero
    rcases List.mem_cons.mp hb with rfl | hb
    · exact harguments hzero
    · exact h.arguments b hb hzero
  created := fun hcreated => absurd hcreated ht

/-- When an activation returns, the one it was nested in goes on. -/
theorem Stacked.return {s : State β} (h : Stacked s) {a : Activation} {outer : List Activation}
    (ha : s.activations = a :: outer) : Stacked (s.return outer) := by
  obtain ⟨hlt, houter⟩ := List.pairwise_cons.mp (ha ▸ h.numbered)
  have hmem : ∀ b ∈ outer, b ∈ s.activations := fun b hb => by simp [ha, hb]
  refine ⟨houter, fun b hb => h.opened b (hmem b hb), ?_,
    fun b hb => h.arguments b (hmem b hb), ?_⟩
  · intro hne
    obtain ⟨b, hb, hzero⟩ := h.outermost (by simp [ha])
    rw [ha] at hb
    rcases List.mem_cons.mp hb with rfl | hb
    · obtain ⟨c, hc⟩ := List.exists_mem_of_ne_nil outer hne
      have hserial := hlt c hc
      omega
    · exact ⟨b, hb, hzero⟩
  · intro hcreated
    have ht := h.executing (a := a) (by simp [ha])
    simp only [State.return] at hcreated
    split at hcreated
    · cases hcreated
    · exact absurd hcreated ht

theorem stacked_step {s s' : State β} {a : Action β} (h : Stacked s) (hf : Fires s a s') :
    Stacked s' := by
  cases hf with
  | run ht =>
    obtain ⟨hempty, hopened⟩ := h.created ht
    have hstarted : Stacked { s with thread := .executing } :=
      ⟨h.numbered, h.opened, h.outermost, h.arguments, by simp⟩
    exact hstarted.open _ (by simp) (fun _ => rfl) fun _ => hopened
  | ignore _ => exact h
  | executeBlock ht | stop ht =>
    exact ⟨h.numbered, h.opened, h.outermost, h.arguments, fun hc => absurd hc ht⟩
  | beginPass ha _ | blockReturns ha _ | wait ha _ _ => exact h.change ha rfl rfl rfl rfl rfl
  | @perform a outer r requests ha _ _ => cases r <;> exact h.change ha rfl rfl rfl rfl rfl
  | @spin arguments a outer ha _ =>
    have hopened := h.opened a (by simp [ha])
    exact h.open _ (h.executing (a := a) (by simp [ha])) (by omega) (by simp [ha])
  | «return» ha _ _ => exact h.return ha

theorem reachable_stacked {s : State β} (h : system.Reachable s) : Stacked s :=
  h.invariant stacked_initial fun _ _ _ hi hs => stacked_step hi (system_fires hs)

theorem Stacked.outermost_zero {s : State β} (h : Stacked s) {a : Activation}
    (ha : s.activations = [a]) : a.serial = 0 := by
  obtain ⟨b, hb, hzero⟩ := h.outermost (by simp [ha])
  rw [ha] at hb
  exact List.mem_singleton.mp hb ▸ hzero

theorem runArguments_untilStopped : runArguments.untilStopped := by
  simp [RunInMode.untilStopped, runArguments, timerIntervalLimit]

/-- A mark, and the end of the thread, come from a stop that has been performed. -/
structure Marked (s : State β) : Prop where
  stopped : ∀ a ∈ s.activations, a.stopped = true → .stopThreadAction ∈ s.performed
  finished : s.thread = .finished → .stopThreadAction ∈ s.performed

theorem Marked.change {s s' : State β} (h : Marked s) {a a' : Activation} {outer : List Activation}
    (ha : s.activations = a :: outer) (ha' : s'.activations = a' :: outer)
    (hstopped : a'.stopped = a.stopped) (ht : s'.thread = s.thread)
    (hp : ∀ r ∈ s.performed, r ∈ s'.performed) : Marked s' where
  stopped := by
    intro b hb hmark
    rw [ha'] at hb
    rcases List.mem_cons.mp hb with rfl | hb
    · exact hp _ (h.stopped a (by simp [ha]) (hstopped.symm.trans hmark))
    · exact hp _ (h.stopped b (by simp [ha, hb]) hmark)
  finished := fun hf => hp _ (h.finished (ht.symm.trans hf))

theorem marked_step {s s' : State β} {a : Action β} (hs : Stacked s) (h : Marked s)
    (hf : Fires s a s') : Marked s' := by
  cases hf with
  | run ht =>
    obtain ⟨hempty, _⟩ := hs.created ht
    refine ⟨?_, by simp [State.open]⟩
    intro a ha hmark
    simp only [State.open, hempty, List.mem_singleton] at ha
    simp [ha, Activation.enter] at hmark
  | ignore _ => exact h
  | executeBlock _ | stop _ => exact ⟨h.stopped, h.finished⟩
  | beginPass ha _ | blockReturns ha _ | wait ha _ _ => exact h.change ha rfl rfl rfl fun _ hr => hr
  | @perform a outer r requests ha _ _ =>
    cases r with
    | executeTask block => exact h.change ha rfl rfl rfl fun _ hr => List.mem_append_left _ hr
    | stopThreadAction => exact ⟨fun _ _ _ => by simp, fun _ => by simp⟩
  | spin ha _ =>
    refine ⟨?_, h.finished⟩
    intro b hb hmark
    rcases List.mem_cons.mp hb with rfl | hb
    · simp [Activation.enter] at hmark
    · exact h.stopped b hb hmark
  | @«return» timeout a outer ha _ hr =>
    refine ⟨fun b hb => h.stopped b (by simp [ha, show b ∈ outer from hb]), ?_⟩
    intro hfinished
    by_cases hempty : outer = []
    · have hzero := hs.outermost_zero (hempty ▸ ha)
      have harguments := hs.arguments a (by simp [ha]) hzero
      rw [passResult_untilStopped (harguments ▸ runArguments_untilStopped)] at hr
      exact h.stopped a (by simp [ha]) (by simpa using hr)
    · simp only [State.return, hempty, if_false] at hfinished
      exact h.finished hfinished

/-- The worker stays alive until a stop has been performed. -/
theorem finished_by_stop {s : State β} (h : system.Reachable s) (hf : s.thread = .finished) :
    .stopThreadAction ∈ s.performed := by
  have hmarked : Stacked s ∧ Marked s := h.invariant (I := fun s => Stacked s ∧ Marked s)
    ⟨stacked_initial, by simp [system, initialState], by simp [system, initialState]⟩
    fun _ _ _ hi hs => ⟨stacked_step hi.1 (system_fires hs), marked_step hi.1 hi.2 (system_fires hs)⟩
  exact hmarked.2.finished hf

theorem finished_by_stop_once : ∃ s : State Nat, system.Reachable s ∧ s.thread = .finished ∧
    .stopThreadAction ∈ s.performed := by
  have hrun : system.exec (initialState : State Nat) [.run, .stop, .beginPass, .perform, .endPass false] =
    some _ := rfl
  have hs := System.Reachable.start.exec hrun
  exact ⟨_, hs, rfl, finished_by_stop hs rfl⟩

/-- The activation a, or what is left of it, is in the pass in which it was
stopped and cannot begin another. -/
structure Ending (a : Activation) (s : State β) : Prop where
  opened : a.serial < s.opened
  started : s.thread ≠ .created
  ending : ∀ b ∈ s.activations, b.serial = a.serial →
    b.pass = a.pass ∧ b.stopped = true ∧ b.phase ≠ .waiting

theorem Ending.change {a : Activation} {s s' : State β} (h : Ending a s) {b b' : Activation}
    {outer : List Activation} (hb : s.activations = b :: outer) (hb' : s'.activations = b' :: outer)
    (ht : s'.thread = s.thread) (ho : s'.opened = s.opened)
    (hending : b'.serial = a.serial → b'.pass = a.pass ∧ b'.stopped = true ∧ b'.phase ≠ .waiting) :
    Ending a s' where
  opened := ho ▸ h.opened
  started := ht ▸ h.started
  ending := by
    intro c hc hserial
    rw [hb'] at hc
    rcases List.mem_cons.mp hc with rfl | hc
    · exact hending hserial
    · exact h.ending c (by simp [hb, hc]) hserial

theorem ending_step {a : Activation} {s s' : State β} {act : Action β} (h : Ending a s)
    (hf : Fires s act s') : Ending a s' := by
  cases hf with
  | run ht => exact absurd ht h.started
  | ignore _ => exact h
  | executeBlock _ | stop _ => exact ⟨h.opened, h.started, h.ending⟩
  | @beginPass b outer hb hp =>
    refine h.change hb rfl rfl rfl fun hserial => ?_
    exact absurd hp (h.ending b (by simp [hb]) hserial).2.2
  | @perform b outer r requests hb _ _ =>
    cases r with
    | executeTask block =>
      refine h.change hb rfl rfl rfl fun hserial => ?_
      obtain ⟨hpass, hstopped, _⟩ := h.ending b (by simp [hb]) hserial
      exact ⟨hpass, hstopped, by simp [Request.perform, Activation.beginPerform]⟩
    | stopThreadAction =>
      refine h.change hb rfl rfl rfl fun hserial => ?_
      obtain ⟨hpass, _, hphase⟩ := h.ending b (by simp [hb]) hserial
      exact ⟨hpass, rfl, hphase⟩
  | @blockReturns b outer hb _ =>
    refine h.change hb rfl rfl rfl fun hserial => ?_
    obtain ⟨hpass, hstopped, _⟩ := h.ending b (by simp [hb]) hserial
    exact ⟨hpass, hstopped, by simp [Activation.endPerform]⟩
  | spin _ _ =>
    refine ⟨Nat.lt_succ_of_lt h.opened, h.started, ?_⟩
    intro c hc hserial
    rcases List.mem_cons.mp hc with rfl | hc
    · exact absurd hserial.symm (Nat.ne_of_lt h.opened)
    · exact h.ending c hc hserial
  | @«return» timeout b outer hb _ _ =>
    refine ⟨h.opened, ?_, fun c hc => h.ending c (by simp [hb, show c ∈ outer from hc])⟩
    simp only [State.return]
    split
    · simp
    · exact h.started
  | @wait timeout b outer hb _ hr =>
    refine h.change hb rfl rfl rfl fun hserial => ?_
    exact absurd hr (passResult_of_stopped (h.ending b (by simp [hb]) hserial).2.1 timeout)

/-- Performing a stop marks the activation that performs it, for good. -/
theorem ending_of_stop {s s' : State β} {a : Activation} {outer : List Activation}
    {requests : List (Request β)} (h : Stacked s) (ha : s.activations = a :: outer)
    (hr : s.requests = .stopThreadAction :: requests) (hs : system.step s .perform = some s') :
    Ending a s' := by
  obtain ⟨hlt, _⟩ := List.pairwise_cons.mp (ha ▸ h.numbered)
  have hmem : a ∈ s.activations := by simp [ha]
  cases system_fires hs with
  | @perform b outer' r requests' hb hp hr' =>
    cases ha.symm.trans hb
    cases hr.symm.trans hr'
    refine ⟨h.opened a hmem, h.executing hmem, ?_⟩
    intro c hc hserial
    rcases List.mem_cons.mp hc with rfl | hc
    · simp [Request.perform, Activation.stop, hp]
    · exact absurd hserial (Nat.ne_of_lt (hlt c hc))

/-- The blocks started are a prefix of the blocks passed. The activation that
performs a stop returns when its pass ends, and when it is the outermost one,
whatever is performed later is performed before that. -/
theorem serial_executor {s : State β} (h : system.Reachable s) :
    blocks s.performed <+: blocks s.calls ∧
    ∀ (a : Activation) (outer : List Activation) (requests : List (Request β)) (s' t : State β)
      (as : List (Action β)), s.activations = a :: outer → s.requests = .stopThreadAction :: requests →
      system.step s .perform = some s' → system.exec s' as = some t →
      (∀ b ∈ t.activations, b.serial = a.serial → b.pass = a.pass ∧ b.phase ≠ .waiting) ∧
      (∀ b inner timeout t', t.activations = b :: inner → b.serial = a.serial →
        system.step t (.endPass timeout) = some t' → t' = t.return inner) ∧
      (outer = [] → ∀ t', system.step t .perform = some t' →
        ∃ b ∈ t.activations, b.serial = a.serial ∧ b.pass = a.pass) := by
  refine ⟨AtomicObjects.executor_in_order (reachable_executor h), ?_⟩
  intro a outer requests s' t as ha hr hs he
  have hstacked := reachable_stacked h
  have hending : Ending a t := System.exec_invariant (S := system)
    (fun _ _ _ hi hf => ending_step hi (system_fires hf)) (ending_of_stop hstacked ha hr hs) he
  refine ⟨?_, ?_, ?_⟩
  · intro b hb hserial
    obtain ⟨hpass, _, hphase⟩ := hending.ending b hb hserial
    exact ⟨hpass, hphase⟩
  · intro b inner timeout t' hb hserial hf
    obtain ⟨_, hstopped, _⟩ := hending.ending b (by simp [hb]) hserial
    cases system_fires hf with
    | «return» hb' _ _ => cases hb.symm.trans hb'; rfl
    | wait hb' _ hr' => cases hb.symm.trans hb'; exact absurd hr' (passResult_of_stopped hstopped _)
  · rintro rfl t' hf
    have hzero := hstacked.outermost_zero ha
    have ht : Stacked t := reachable_stacked ((h.fire hs).exec he)
    cases system_fires hf with
    | @perform b inner r _ hb _ _ =>
      obtain ⟨c, hc, hczero⟩ := ht.outermost (by simp [hb])
      have hserial : c.serial = a.serial := hczero.trans hzero.symm
      exact ⟨c, hc, hserial, (hending.ending c hc hserial).1⟩

/-- Once a stop has been performed no block is started. -/
def NoneStartedAfterStop (β : Type*) : Prop :=
  ∀ (s s' t : State β) (requests : List (Request β)) (as : List (Action β)), system.Reachable s →
    s.requests = .stopThreadAction :: requests → system.step s .perform = some s' →
    system.exec s' as = some t → blocks t.performed = blocks s'.performed

/-- Once a stop has been performed the outermost activation does not wait again. -/
def OutermostEndsAfterStop (β : Type*) : Prop :=
  ∀ (s s' t : State β) (requests : List (Request β)) (as : List (Action β)), system.Reachable s →
    s.requests = .stopThreadAction :: requests → system.step s .perform = some s' →
    system.exec s' as = some t → ∀ a ∈ t.activations, a.serial = 0 → a.phase ≠ .waiting

/-- A stop and a block behind it, taken up in one pass. -/
def flatStop : State Nat where
  thread := .executing
  requests := [.stopThreadAction, .executeTask 7]
  activations := [⟨0, 1, runArguments, .inPass, false, false⟩]
  calls := [.stopThreadAction, .executeTask 7]
  performed := []
  opened := 1

theorem flatStop_reachable : system.Reachable flatStop := by
  have hrun : system.exec initialState [.run, .stop, .executeBlock (some 7), .beginPass] =
    some flatStop := rfl
  exact System.Reachable.start.exec hrun

/-- A block that spins the run loop, and a stop that the nested activation performs. -/
def nestedStop : State Nat where
  thread := .executing
  requests := [.stopThreadAction]
  activations := [⟨1, 1, ⟨1, false⟩, .inPass, false, false⟩, ⟨0, 1, runArguments, .performing, true, false⟩]
  calls := [.executeTask 3, .stopThreadAction]
  performed := [.executeTask 3]
  opened := 2

theorem nestedStop_reachable : system.Reachable nestedStop := by
  have hrun : system.exec initialState [.run, .executeBlock (some 3), .stop, .beginPass, .perform,
    .spin ⟨1, false⟩, .beginPass] = some nestedStop := rfl
  exact System.Reachable.start.exec hrun

/-- The block behind the stop is started, and the outermost activation waits
again when only the nested one was stopped. -/
theorem stop_is_not_final : ¬ NoneStartedAfterStop Nat ∧ ¬ OutermostEndsAfterStop Nat := by
  constructor
  · intro hnone
    have hblocks := hnone flatStop _ _ _ [.perform] flatStop_reachable rfl rfl rfl
    exact absurd hblocks (by decide)
  · intro hends
    have hphase := hends nestedStop _ _ _ [.endPass false, .blockReturns, .endPass false]
      nestedStop_reachable rfl rfl rfl ⟨0, 1, runArguments, .waiting, true, false⟩ (by decide) rfl
    exact hphase rfl

/-- The flat case to its end: the block runs in the same pass and the thread ends. -/
theorem serial_executor_flat : ∃ s t : State Nat,
    system.step flatStop .perform = some s ∧ system.exec s [.perform, .blockReturns] = some t ∧
    blocks t.performed = [7] ∧
    (∀ t', system.step t (.endPass false) = some t' → t'.thread = .finished) ∧
    ∀ b ∈ t.activations, b.serial = 0 → b.pass = 1 ∧ b.phase ≠ .waiting := by
  refine ⟨_, _, rfl, rfl, rfl, ?_, ?_⟩
  · intro t' ht
    obtain ⟨_, hstop⟩ := serial_executor flatStop_reachable
    obtain ⟨_, hreturn, _⟩ := hstop _ _ _ _ _ [.perform, .blockReturns] rfl rfl rfl rfl
    rw [hreturn _ _ _ _ rfl rfl ht]
    rfl
  · exact ((serial_executor flatStop_reachable).2 _ _ _ _ _ [.perform, .blockReturns]
      rfl rfl rfl rfl).1

end SerialThread
