import Mathlib.Tactic.Common

/-!
# Activations of a run loop

One activation of `__CFRunLoopRun`: passes over the sources with a wait
between them, and the tests at the end of a pass that decide whether it
returns. The mode is never empty here, since the programs keep a source or a
port in it.
-/
namespace RunLoop

/-- `TIMER_INTERVAL_LIMIT` of CFRunLoop.c, in seconds: a longer run never times out. -/
def timerIntervalLimit : Nat := 504911232

/-- The arguments of `CFRunLoopRunInMode`. -/
structure RunInMode where
  seconds : Nat
  returnAfterSourceHandled : Bool
  deriving DecidableEq, Repr

/-- Within a pass the activation performs one source after the other. -/
inductive Phase where
  | waiting | inPass | performing
  deriving DecidableEq, Repr

/-- `serial` and `pass` number the activations of a thread and their passes and
are not in the source. -/
structure Activation where
  serial : Nat
  pass : Nat
  arguments : RunInMode
  phase : Phase
  sourceHandledThisLoop : Bool
  stopped : Bool
  deriving DecidableEq, Repr

inductive Result where
  | handledSource | timedOut | stopped
  deriving DecidableEq, Repr

/-- The tests at the end of a pass, in the order of the source. -/
def Activation.passResult (a : Activation) (timeout : Bool) : Option Result :=
  if a.sourceHandledThisLoop && a.arguments.returnAfterSourceHandled then some .handledSource
  else if timeout && decide (a.arguments.seconds ≤ timerIntervalLimit) then some .timedOut
  else if a.stopped then some .stopped
  else none

def Activation.enter (serial : Nat) (arguments : RunInMode) : Activation :=
  ⟨serial, 0, arguments, .waiting, false, false⟩

def Activation.beginPass (a : Activation) : Activation :=
  { a with phase := .inPass, pass := a.pass + 1, sourceHandledThisLoop := false }

/-- A source whose perform callout does not return at once. -/
def Activation.beginPerform (a : Activation) : Activation :=
  { a with phase := .performing, sourceHandledThisLoop := true }

def Activation.endPerform (a : Activation) : Activation := { a with phase := .inPass }

/-- `CFRunLoopStop` sets the flag of the innermost activation. -/
def Activation.stop (a : Activation) : Activation :=
  { a with stopped := true, sourceHandledThisLoop := true }

def Activation.wait (a : Activation) : Activation := { a with phase := .waiting }

/-- Runs until it is stopped: neither a handled source nor the time ends it. -/
def RunInMode.untilStopped (r : RunInMode) : Prop :=
  r.returnAfterSourceHandled = false ∧ timerIntervalLimit < r.seconds

theorem passResult_of_stopped {a : Activation} (h : a.stopped = true) (timeout : Bool) :
    a.passResult timeout ≠ none := by
  simp only [Activation.passResult, h, if_true]
  split <;> [skip; split] <;> simp

theorem passResult_of_handled {a : Activation} (h : a.sourceHandledThisLoop = true)
    (hr : a.arguments.returnAfterSourceHandled = true) (timeout : Bool) :
    a.passResult timeout = some .handledSource := by
  simp [Activation.passResult, h, hr]

theorem passResult_untilStopped {a : Activation} (h : a.arguments.untilStopped) (timeout : Bool) :
    a.passResult timeout = if a.stopped then some .stopped else none := by
  obtain ⟨hhandled, hlimit⟩ := h
  have hlong : ¬ a.arguments.seconds ≤ timerIntervalLimit := by omega
  simp [Activation.passResult, hhandled, hlong]

end RunLoop
