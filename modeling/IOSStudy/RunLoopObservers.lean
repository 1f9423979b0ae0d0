import IOSStudy.BlockQueue
import IOSStudy.TimerArray

/-!
# Observers of run loops

Observers are added to modes of a run loop and to its common modes, removed and
invalidated, by the loop or in the callout of an observer. At an activity of a
loop those that want to know of it are collected, and then called out to one
after the other; a callout can run the loop again.
-/
namespace RunLoopObservers

open Transition SortedInsertion
open TimerArray (RunLoopRef)
open BlockQueue (kCFRunLoopCommonModes)

abbrev ObserverRef := Nat
abbrev Activity := BitVec 64

structure Observer where
  activities : Activity
  order : Int
  repeats : Bool
  valid : Bool
  firing : Bool
  runLoop : Option RunLoopRef
  rlCount : Nat
  deriving DecidableEq, Repr

structure Mode where
  observers : List ObserverRef
  observerMask : Activity
  deriving DecidableEq, Repr

/-- The variables of one call of `__CFRunLoopDoObservers`. -/
structure DoObservers where
  activity : Activity
  collectedObservers : List ObserverRef
  firing : Option ObserverRef
  deriving DecidableEq, Repr

structure Callout where
  rlo : ObserverRef
  activity : Activity
  deriving DecidableEq, Repr

/-- A loop has its modes by name; one that it does not have is empty. -/
structure State where
  count : Nat
  observer : ObserverRef → Observer
  modes : RunLoopRef → List String
  mode : RunLoopRef × String → Mode
  commonModes : RunLoopRef → List String
  commonModeItems : RunLoopRef → List ObserverRef
  calls : RunLoopRef → List DoObservers
  callouts : List Callout

def State.updateObserver (s : State) (rlo : ObserverRef) (t : Observer) : State :=
  { s with observer := Function.update s.observer rlo t }

@[simp] theorem State.updateObserver_self (s : State) (rlo : ObserverRef) (t : Observer) :
    (s.updateObserver rlo t).observer rlo = t := by
  simp only [State.updateObserver, Function.update_self]

theorem State.updateObserver_of_ne (s : State) {rlo o : ObserverRef} (t : Observer) (h : o ≠ rlo) :
    (s.updateObserver rlo t).observer o = s.observer o := by
  simp only [State.updateObserver, Function.update_of_ne h]

@[simp] theorem State.updateObserver_calls (s : State) (rlo : ObserverRef) (t : Observer) :
    (s.updateObserver rlo t).calls = s.calls := rfl

@[simp] theorem State.updateObserver_callouts (s : State) (rlo : ObserverRef) (t : Observer) :
    (s.updateObserver rlo t).callouts = s.callouts := rfl

def State.updateMode (s : State) (key : RunLoopRef × String) (x : Mode) : State :=
  { s with mode := Function.update s.mode key x }

def State.setCalls (s : State) (rl : RunLoopRef) (calls : List DoObservers) : State :=
  { s with calls := Function.update s.calls rl calls }

def State.setItems (s : State) (rl : RunLoopRef) (items : List ObserverRef) : State :=
  { s with commonModeItems := Function.update s.commonModeItems rl items }

def observerCreate (activities : Activity) (repeats : Bool) (order : Int) : Observer :=
  ⟨activities, order, repeats, true, false, none, 0⟩

/-- `__CFRunLoopObserverSchedule` -/
def Observer.schedule (t : Observer) (rl : RunLoopRef) : Observer :=
  { t with runLoop := if t.rlCount = 0 then some rl else t.runLoop, rlCount := t.rlCount + 1 }

/-- `__CFRunLoopObserverCancel` -/
def Observer.cancel (t : Observer) : Observer :=
  { t with rlCount := t.rlCount - 1, runLoop := if t.rlCount - 1 = 0 then none else t.runLoop }

/-- `_runLoop` is another loop than rl. -/
def Observer.otherLoop (t : Observer) (rl : RunLoopRef) : Bool := t.runLoop.any (· != rl)

def findMode (s : State) (rl : RunLoopRef) (modeName : String) : State :=
  if modeName ∈ s.modes rl then s
  else { s with modes := Function.update s.modes rl (modeName :: s.modes rl) }

/-- Behind the observers of the mode whose order is not larger. -/
def insertObserver (s : State) (rl : RunLoopRef) (rlo : ObserverRef) (modeName : String) : State :=
  let t := s.observer rlo
  let rlm := s.mode (rl, modeName)
  let idx := searchBack (fun idx => rlm.observers[idx]?.any fun obs => decide ((s.observer obs).order ≤ t.order))
    rlm.observers.length
  let s := s.updateMode (rl, modeName) ⟨rlm.observers.insertIdx idx rlo, rlm.observerMask ||| t.activities⟩
  s.updateObserver rlo (t.schedule rl)

/-- `CFRunLoopAddObserver` with the name of a mode. -/
def addObserverToMode (s : State) (rl : RunLoopRef) (rlo : ObserverRef) (modeName : String) : State :=
  if !(s.observer rlo).valid || (s.observer rlo).otherLoop rl then s
  else
    let s := findMode s rl modeName
    if rlo ∈ (s.mode (rl, modeName)).observers then s else insertObserver s rl rlo modeName

def addObserver (s : State) (rl : RunLoopRef) (rlo : ObserverRef) (modeName : String) : State :=
  if !(s.observer rlo).valid || (s.observer rlo).otherLoop rl then s
  else if modeName = kCFRunLoopCommonModes then
    let s := s.setItems rl ((s.commonModeItems rl).insert rlo)
    (s.commonModes rl).foldl (fun s modeName => addObserverToMode s rl rlo modeName) s
  else addObserverToMode s rl rlo modeName

/-- The mask of the mode stays. -/
def eraseObserver (s : State) (rl : RunLoopRef) (rlo : ObserverRef) (modeName : String) : State :=
  let t := s.observer rlo
  let rlm := s.mode (rl, modeName)
  let s := s.updateMode (rl, modeName) { rlm with observers := rlm.observers.erase rlo }
  s.updateObserver rlo t.cancel

/-- `CFRunLoopRemoveObserver` with the name of a mode. -/
def removeObserverFromMode (s : State) (rl : RunLoopRef) (rlo : ObserverRef) (modeName : String) : State :=
  if rlo ∈ (s.mode (rl, modeName)).observers then eraseObserver s rl rlo modeName else s

def removeObserver (s : State) (rl : RunLoopRef) (rlo : ObserverRef) (modeName : String) : State :=
  if modeName = kCFRunLoopCommonModes then
    if rlo ∈ s.commonModeItems rl then
      let s := s.setItems rl ((s.commonModeItems rl).erase rlo)
      (s.commonModes rl).foldl (fun s modeName => removeObserverFromMode s rl rlo modeName) s
    else s
  else removeObserverFromMode s rl rlo modeName

def addCommonMode (s : State) (rl : RunLoopRef) (modeName : String) : State :=
  if modeName ∈ s.commonModes rl then s
  else
    let s := { s with commonModes := Function.update s.commonModes rl (modeName :: s.commonModes rl) }
    (s.commonModeItems rl).foldl (fun s rlo => addObserverToMode s rl rlo modeName) s

/-- The observer is removed from all modes of its loop, and from the common ones. -/
def invalidate (s : State) (rlo : ObserverRef) : State :=
  let t := s.observer rlo
  if t.valid then
    let s := s.updateObserver rlo { t with valid := false }
    match t.runLoop with
    | none => s
    | some rl =>
      let s := (s.modes rl).foldl (fun s modeName => removeObserver s rl rlo modeName) s
      removeObserver s rl rlo kCFRunLoopCommonModes
  else s

/-- An observer that is firing when the others are collected is left out. -/
def beginDoObservers (s : State) (rl : RunLoopRef) (rlm : String) (activity : Activity) : State :=
  let collectedObservers := (s.mode (rl, rlm)).observers.filter fun rlo =>
    (s.observer rlo).activities &&& activity != 0 && (s.observer rlo).valid && !(s.observer rlo).firing
  s.setCalls rl (⟨activity, collectedObservers, none⟩ :: s.calls rl)

/-- Only whether the observer is still valid is tested again before its callout. -/
def beginDoObserver (s : State) (rl : RunLoopRef) (activity : Activity) (calls : List DoObservers)
    (rlo : ObserverRef) (rest : List ObserverRef) : State :=
  if (s.observer rlo).valid then
    let s := s.updateObserver rlo { s.observer rlo with firing := true }
    let s := s.setCalls rl (⟨activity, rest, some rlo⟩ :: calls)
    { s with callouts := ⟨rlo, activity⟩ :: s.callouts }
  else s.setCalls rl (⟨activity, rest, none⟩ :: calls)

/-- An observer that does not repeat is invalid after its callout. -/
def endDoObserver (s : State) (rl : RunLoopRef) (activity : Activity) (calls : List DoObservers)
    (rlo : ObserverRef) (rest : List ObserverRef) : State :=
  let s := if (s.observer rlo).repeats then s else invalidate s rlo
  (s.updateObserver rlo { s.observer rlo with firing := false }).setCalls rl (⟨activity, rest, none⟩ :: calls)

inductive Action where
  | observerCreate (activities : Activity) (repeats : Bool) (order : Int)
  | findMode (rl : RunLoopRef) (modeName : String)
  | addObserver (rl : RunLoopRef) (rlo : ObserverRef) (modeName : String)
  | removeObserver (rl : RunLoopRef) (rlo : ObserverRef) (modeName : String)
  | addCommonMode (rl : RunLoopRef) (modeName : String)
  | invalidate (rlo : ObserverRef)
  | doObservers (rl : RunLoopRef) (rlm : String) (activity : Activity)
  | doObserver (rl : RunLoopRef)
  | returned (rl : RunLoopRef)
  | finish (rl : RunLoopRef)
  deriving DecidableEq, Repr

/-- The thread of the loop is outside all calls or in a callout. -/
def mayBegin : List DoObservers → Bool
  | [] => true
  | call :: _ => call.firing.isSome

def step (s : State) : Action → Option State
  | .observerCreate activities repeats order =>
    some { s.updateObserver s.count (observerCreate activities repeats order) with count := s.count + 1 }
  | .findMode rl modeName => if modeName = kCFRunLoopCommonModes then none else some (findMode s rl modeName)
  | .addObserver rl rlo modeName => some (addObserver s rl rlo modeName)
  | .removeObserver rl rlo modeName => some (removeObserver s rl rlo modeName)
  | .addCommonMode rl modeName =>
    if modeName = kCFRunLoopCommonModes then none else some (addCommonMode s rl modeName)
  | .invalidate rlo => some (invalidate s rlo)
  | .doObservers rl rlm activity =>
    if mayBegin (s.calls rl) then some (beginDoObservers s rl rlm activity) else none
  | .doObserver rl => match s.calls rl with
    | ⟨activity, rlo :: rest, none⟩ :: calls => some (beginDoObserver s rl activity calls rlo rest)
    | _ => none
  | .returned rl => match s.calls rl with
    | ⟨activity, rest, some rlo⟩ :: calls => some (endDoObserver s rl activity calls rlo rest)
    | _ => none
  | .finish rl => match s.calls rl with
    | ⟨_, [], none⟩ :: calls => some (s.setCalls rl calls)
    | _ => none

/-- No observer yet, and the default mode is the one mode of each loop, a common one. -/
def initial : State where
  count := 0
  observer _ := ⟨0, 0, false, false, false, none, 0⟩
  modes _ := ["kCFRunLoopDefaultMode"]
  mode _ := ⟨[], 0⟩
  commonModes _ := ["kCFRunLoopDefaultMode"]
  commonModeItems _ := []
  calls _ := []
  callouts := []

def observers : System State Action where
  initial := initial
  step := step

end RunLoopObservers
