import IOSStudy.BlockQueue
import IOSStudy.TimerArray

/-!
# Timers of run loops

Timers are created, added to modes of a run loop and to its common modes,
removed, invalidated and set to another fire date, by the loop or in the callout
of a timer. A pass of a loop in one mode calls out to the timers that are due;
a callout can run the loop again.
-/
namespace RunLoopTimers

open Transition SortedInsertion TimerArray
open BlockQueue (kCFRunLoopCommonModes)

/-- The variables of one call of `__CFRunLoopDoTimers`. -/
structure DoTimers where
  rlm : String
  timers : List TimerRef
  firing : Option (TimerRef × Nat)
  deriving DecidableEq, Repr

/-- A callout to a timer, the time it was to fire at and the time it was. -/
structure Callout where
  rlt : TimerRef
  fireTSR : Nat
  now : Nat
  deriving DecidableEq, Repr

structure State where
  now : Nat
  count : Nat
  timer : TimerRef → Timer
  mode : RunLoopRef × String → Mode
  commonModes : RunLoopRef → List String
  commonModeItems : RunLoopRef → List TimerRef
  calls : RunLoopRef → List DoTimers
  callouts : List Callout
  halted : Bool

def State.updateTimer (s : State) (rlt : TimerRef) (t : Timer) : State :=
  { s with timer := Function.update s.timer rlt t }

def State.updateMode (s : State) (key : RunLoopRef × String) (x : Mode) : State :=
  { s with mode := Function.update s.mode key x }

def State.setCalls (s : State) (rl : RunLoopRef) (calls : List DoTimers) : State :=
  { s with calls := Function.update s.calls rl calls }

def State.setItems (s : State) (rl : RunLoopRef) (items : List TimerRef) : State :=
  { s with commonModeItems := Function.update s.commonModeItems rl items }

/-- `TIMER_INTERVAL_LIMIT`, for a clock that counts nanoseconds. -/
def timerIntervalLimit : Nat := 504911232 * 10 ^ 9

/-- `__CFTimeIntervalToTSR` of an interval or of the limit. -/
def timeIntervalToTSR (ti : Nat) : Nat := if timerIntervalLimit < ti then timerIntervalLimit else ti

/-- `_runLoop` is another loop than rl. -/
def otherLoop (rl : RunLoopRef) : Option RunLoopRef → Bool
  | none => false
  | some rl' => rl' != rl

/-- A timer without an interval does not repeat. -/
def timerCreate (now : Nat) (delay : Nat) (interval : Option Nat) : Timer where
  fireTSR := now + timeIntervalToTSR delay
  interval := timeIntervalToTSR (interval.getD 0)
  repeats := interval.isSome
  tolerance := 0
  valid := true
  firing := false
  runLoop := none
  rlModes := []

/-- `CFRunLoopAddTimer` with the name of a mode. -/
def addTimerToMode (s : State) (rl : RunLoopRef) (rlt : TimerRef) (modeName : String) : State :=
  let t := s.timer rlt
  if !t.valid || otherLoop rl t.runLoop || t.rlModes.contains modeName then s
  else
    let s := s.updateTimer rlt { t with runLoop := some rl, rlModes := modeName :: t.rlModes }
    s.updateMode (rl, modeName) ((s.mode (rl, modeName)).repositionTimer s.timer rlt false)

def addTimer (s : State) (rl : RunLoopRef) (rlt : TimerRef) (modeName : String) : State :=
  if !(s.timer rlt).valid || otherLoop rl (s.timer rlt).runLoop then s
  else if modeName = kCFRunLoopCommonModes then
    let s := s.setItems rl ((s.commonModeItems rl).insert rlt)
    (s.commonModes rl).foldl (fun s modeName => addTimerToMode s rl rlt modeName) s
  else addTimerToMode s rl rlt modeName

/-- `CFRunLoopRemoveTimer` with the name of a mode. -/
def removeTimerFromMode (s : State) (rl : RunLoopRef) (rlt : TimerRef) (modeName : String) : State :=
  let timerList := (s.mode (rl, modeName)).timers
  if rlt ∈ timerList then
    let t := s.timer rlt
    let rlModes := t.rlModes.erase modeName
    let s := s.updateTimer rlt { t with rlModes := rlModes, runLoop := if rlModes = [] then none else t.runLoop }
    let rlm := { s.mode (rl, modeName) with timers := timerList.erase rlt }
    s.updateMode (rl, modeName) (rlm.armNextTimer s.timer)
  else s

def removeTimer (s : State) (rl : RunLoopRef) (rlt : TimerRef) (modeName : String) : State :=
  if modeName = kCFRunLoopCommonModes then
    if rlt ∈ s.commonModeItems rl then
      let s := s.setItems rl ((s.commonModeItems rl).erase rlt)
      (s.commonModes rl).foldl (fun s modeName => removeTimerFromMode s rl rlt modeName) s
    else s
  else removeTimerFromMode s rl rlt modeName

def addCommonMode (s : State) (rl : RunLoopRef) (modeName : String) : State :=
  if modeName ∈ s.commonModes rl then s
  else
    let s := { s with commonModes := Function.update s.commonModes rl (modeName :: s.commonModes rl) }
    (s.commonModeItems rl).foldl (fun s rlt => addTimerToMode s rl rlt modeName) s

/-- A new fire date, and the place for it in all the modes of the timer. -/
def setFireTSR (s : State) (rlt : TimerRef) (nextFireTSR : Nat) : State :=
  let t := s.timer rlt
  let s := s.updateTimer rlt { t with fireTSR := nextFireTSR }
  match t.runLoop with
  | none => s
  | some rl => t.rlModes.foldl
      (fun s modeName => s.updateMode (rl, modeName) ((s.mode (rl, modeName)).repositionTimer s.timer rlt true)) s

def setNextFireDate (s : State) (rlt : TimerRef) (delay : Nat) : State :=
  if (s.timer rlt).valid then setFireTSR s rlt (s.now + timeIntervalToTSR delay) else s

def setTolerance (s : State) (rlt : TimerRef) (tolerance : Nat) : State :=
  let t := s.timer rlt
  s.updateTimer rlt { t with tolerance := if t.repeats then min tolerance (t.interval / 2) else tolerance }

def invalidate (s : State) (rlt : TimerRef) : State :=
  let t := s.timer rlt
  if t.valid then
    let s := s.updateTimer rlt { t with valid := false }
    match t.runLoop with
    | none => s
    | some rl =>
      let s := t.rlModes.foldl (fun s modeName => removeTimer s rl rlt modeName) s
      removeTimer s rl rlt kCFRunLoopCommonModes
  else s

/-- `while (nextFireTSR <= currentTSR) nextFireTSR += intervalTSR` -/
def advance (interval now : Nat) : Nat → Nat → Nat
  | 0, next => next
  | fuel + 1, next => if next ≤ now then advance interval now fuel (next + interval) else next

def nextFireTSR (interval now old : Nat) : Nat :=
  if llongMax - interval ≤ old then llongMax else advance interval now (now + 1 - old) old

/-- The timers that are due when the pass begins. -/
def beginDoTimers (s : State) (rl : RunLoopRef) (rlm : String) : State :=
  let due := (s.mode (rl, rlm)).timers.filter fun rlt =>
    (s.timer rlt).valid && !(s.timer rlt).firing && decide ((s.timer rlt).fireTSR ≤ s.now)
  s.setCalls rl (⟨rlm, due, none⟩ :: s.calls rl)

/-- The deadlines are forgotten, so that the next ones are handed on in any case. -/
def setFiring (s : State) (rl : RunLoopRef) (rlm : String) (rlt : TimerRef) : State :=
  let s := s.updateTimer rlt { s.timer rlt with firing := true }
  let x := { s.mode (rl, rlm) with timerSoftDeadline := uint64Max, timerHardDeadline := uint64Max }
  s.updateMode (rl, rlm) (x.armNextTimer s.timer)

/-- `__CFRunLoopDoTimer` up to the callout, if there is one. -/
def beginDoTimer (s : State) (rl : RunLoopRef) (call : DoTimers) (calls : List DoTimers) (rlt : TimerRef)
    (rest : List TimerRef) : State :=
  let t := s.timer rlt
  if t.valid = true ∧ t.fireTSR ≤ s.now ∧ t.firing = false ∧ t.runLoop = some rl then
    let s := setFiring s rl call.rlm rlt
    let s := s.setCalls rl ({ call with timers := rest, firing := some (rlt, t.fireTSR) } :: calls)
    { s with callouts := ⟨rlt, t.fireTSR, s.now⟩ :: s.callouts }
  else s.setCalls rl ({ call with timers := rest } :: calls)

/-- A timer that does not repeat is invalid after its callout. -/
def unsetFiring (s : State) (rl : RunLoopRef) (call : DoTimers) (calls : List DoTimers) (rlt : TimerRef) : State :=
  let s := if (s.timer rlt).repeats then s else invalidate s rlt
  (s.updateTimer rlt { s.timer rlt with firing := false }).setCalls rl ({ call with firing := none } :: calls)

/-- A later fire date that was set in the callout stays, otherwise the timer gets its next one. -/
def endDoTimer (s : State) (rl : RunLoopRef) (call : DoTimers) (calls : List DoTimers) (rlt : TimerRef)
    (oldFireTSR : Nat) : State :=
  let s := unsetFiring s rl call calls rlt
  let t := s.timer rlt
  if t.valid then
    if oldFireTSR < t.fireTSR then
      s.updateMode (rl, call.rlm) ((s.mode (rl, call.rlm)).armNextTimer s.timer)
    else if t.interval = 0 ∧ oldFireTSR < llongMax then { s with halted := true }
    else setFireTSR s rlt (nextFireTSR t.interval s.now oldFireTSR)
  else s

inductive Action where
  | tick (d : Nat)
  | timerCreate (delay : Nat) (interval : Option Nat)
  | addTimer (rl : RunLoopRef) (rlt : TimerRef) (modeName : String)
  | removeTimer (rl : RunLoopRef) (rlt : TimerRef) (modeName : String)
  | addCommonMode (rl : RunLoopRef) (modeName : String)
  | setNextFireDate (rlt : TimerRef) (delay : Nat)
  | setTolerance (rlt : TimerRef) (tolerance : Nat)
  | invalidate (rlt : TimerRef)
  | doTimers (rl : RunLoopRef) (rlm : String)
  | doTimer (rl : RunLoopRef)
  | returned (rl : RunLoopRef)
  | finish (rl : RunLoopRef)
  deriving DecidableEq, Repr

/-- The thread of the loop is outside all passes or in a callout. -/
def mayBegin : List DoTimers → Bool
  | [] => true
  | call :: _ => call.firing.isSome

def step (s : State) : Action → Option State
  | .tick d => if s.now + d < llongMax then some { s with now := s.now + d } else none
  | .timerCreate delay interval =>
    some { s.updateTimer s.count (timerCreate s.now delay interval) with count := s.count + 1 }
  | .addTimer rl rlt modeName => some (addTimer s rl rlt modeName)
  | .removeTimer rl rlt modeName => some (removeTimer s rl rlt modeName)
  | .addCommonMode rl modeName =>
    if modeName = kCFRunLoopCommonModes then none else some (addCommonMode s rl modeName)
  | .setNextFireDate rlt delay => some (setNextFireDate s rlt delay)
  | .setTolerance rlt tolerance => some (setTolerance s rlt tolerance)
  | .invalidate rlt => some (invalidate s rlt)
  | .doTimers rl rlm => if mayBegin (s.calls rl) then some (beginDoTimers s rl rlm) else none
  | .doTimer rl => match s.calls rl with
    | ⟨rlm, rlt :: rest, none⟩ :: calls => some (beginDoTimer s rl ⟨rlm, rlt :: rest, none⟩ calls rlt rest)
    | _ => none
  | .returned rl => match s.calls rl with
    | ⟨rlm, timers, some (rlt, oldFireTSR)⟩ :: calls =>
      some (endDoTimer s rl ⟨rlm, timers, some (rlt, oldFireTSR)⟩ calls rlt oldFireTSR)
    | _ => none
  | .finish rl => match s.calls rl with
    | ⟨_, [], none⟩ :: calls => some (s.setCalls rl calls)
    | _ => none

/-- No timer yet, and the default mode is the one common mode of each loop. -/
def initial : State where
  now := 0
  count := 0
  timer _ := ⟨0, 0, false, 0, false, false, none, []⟩
  mode _ := ⟨[], uint64Max, uint64Max, none, none⟩
  commonModes _ := ["kCFRunLoopDefaultMode"]
  commonModeItems _ := []
  calls _ := []
  callouts := []
  halted := false

def timers : System State Action where
  initial := initial
  step s a := if s.halted then none else step s a

end RunLoopTimers
