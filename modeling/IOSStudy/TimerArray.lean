import IOSStudy.SortedInsertion

/-!
# The timers of a run loop mode

A mode keeps its timers in an array sorted by the time they fire at. The next
deadlines are those of the timers that are not firing: a soft one, before which
no timer can fire, and a hard one, by which the first has to.
-/
namespace TimerArray

open SortedInsertion

abbrev TimerRef := Nat
abbrev RunLoopRef := Nat

def uint64Max : Nat := 2 ^ 64 - 1
def llongMax : Nat := 2 ^ 63 - 1

/-- Times and intervals are in the units of `mach_absolute_time`. -/
structure Timer where
  fireTSR : Nat
  interval : Nat
  repeats : Bool
  tolerance : Nat
  valid : Bool
  firing : Bool
  runLoop : Option RunLoopRef
  rlModes : List String
  deriving DecidableEq, Repr

/-- What the two kernel timers were asked for last, unless it was cancelled. -/
structure Mode where
  timers : List TimerRef
  timerSoftDeadline : Nat
  timerHardDeadline : Nat
  mkTimer : Option Nat
  dispatchTimer : Option (Nat × Nat)
  deriving DecidableEq, Repr

/-- Find last set. -/
def flsl (n : Nat) : Nat := if n = 0 then 0 else n.log2 + 1

def insertionIndexInTimerArray (fireTSR : TimerRef → Nat) (array : List TimerRef) (rlt : TimerRef) : Nat :=
  let cnt := array.length
  let leq idx := array[idx]?.any fun item => decide (fireTSR item ≤ fireTSR rlt)
  if cnt = 0 then 0
  else if 256 < cnt && leq (cnt - 1) then cnt
  else if 256 < cnt && !leq 0 then 0
  else
    -- add is halved before each test, so that the first step is 1 << flsl(cnt)
    let (idx, lastTestLEQ) := search leq cnt (flsl cnt + 1) 0
    if lastTestLEQ then idx + 1 else idx

def hardDeadline (t : Timer) : Nat :=
  if t.fireTSR + t.tolerance ≤ uint64Max then t.fireTSR + t.tolerance else uint64Max

/-- The loop of `__CFArmNextTimerInMode` from the deadlines it has found so far. -/
def nextDeadlines (timer : TimerRef → Timer) (firing : TimerRef → Bool) :
    List TimerRef → Nat → Nat → Nat × Nat
  | [], soft, hard => (soft, hard)
  | t :: timers, soft, hard =>
    if firing t then nextDeadlines timer firing timers soft hard
    else if hard < (timer t).fireTSR then (soft, hard)
    else nextDeadlines timer firing timers
      (if (timer t).fireTSR < soft then (timer t).fireTSR else soft)
      (if hardDeadline (timer t) < hard then hardDeadline (timer t) else hard)

/-- A leeway is left to the dispatch timer, an exact deadline to the mk timer. -/
def Mode.request (x : Mode) (soft hard : Nat) : Mode :=
  if soft < uint64Max ∧ (hard ≠ x.timerHardDeadline ∨ soft ≠ x.timerSoftDeadline) then
    if 0 < hard - soft then { x with mkTimer := none, dispatchTimer := some (soft, hard - soft) }
    else { x with mkTimer := some soft, dispatchTimer := none }
  else if soft = uint64Max then { x with mkTimer := none, dispatchTimer := none }
  else x

def Mode.setDeadlines (x : Mode) (d : Nat × Nat) : Mode :=
  { x.request d.1 d.2 with timerSoftDeadline := d.1, timerHardDeadline := d.2 }

def Mode.armNextTimer (x : Mode) (timer : TimerRef → Timer) : Mode :=
  x.setDeadlines (nextDeadlines timer (fun t => (timer t).firing) x.timers uint64Max uint64Max)

def Mode.insertTimer (x : Mode) (timer : TimerRef → Timer) (rlt : TimerRef) : Mode :=
  { x with
    timers := x.timers.insertIdx (insertionIndexInTimerArray (fun t => (timer t).fireTSR) x.timers rlt) rlt }

def Mode.repositionTimer (x : Mode) (timer : TimerRef → Timer) (rlt : TimerRef) (isInArray : Bool) : Mode :=
  if isInArray then
    if rlt ∈ x.timers then
      ({ x with timers := x.timers.erase rlt }.insertTimer timer rlt).armNextTimer timer
    else x
  else (x.insertTimer timer rlt).armNextTimer timer

section

variable {fireTSR : TimerRef → Nat} {array : List TimerRef}

/-- All the paths of the search end behind the timers that do not fire later. -/
theorem insertionIndex_eq (h : Sorted fireTSR array) (rlt : TimerRef) :
    insertionIndexInTimerArray fireTSR array rlt =
      (array.takeWhile fun t => decide (fireTSR t ≤ fireTSR rlt)).length := by
  have hb := h.boundary (fireTSR rlt)
  rw [insertionIndexInTimerArray]
  generalize (array.takeWhile fun t => decide (fireTSR t ≤ fireTSR rlt)).length = b at hb ⊢
  generalize (fun i : Nat => array[i]?.any fun item => decide (fireTSR item ≤ fireTSR rlt)) = leq at hb ⊢
  have hle := hb.le
  dsimp only
  split
  · next hempty => omega
  · next hsome =>
    split
    · next hlast =>
      rw [Bool.and_eq_true] at hlast
      have hnot : ¬ b ≤ array.length - 1 := by
        intro hout
        rw [hb.above _ hout (by omega)] at hlast
        exact absurd hlast.2 (by decide)
      omega
    · split
      · next hfirst =>
        simp only [Bool.and_eq_true, Bool.not_eq_true', decide_eq_true_eq] at hfirst
        have hnot : ¬ 0 < b := by
          intro hin
          rw [hb.below 0 hin] at hfirst
          exact absurd hfirst.2 (by decide)
        omega
      · apply hb.search (.inl rfl)
        have hlog : array.length < 2 ^ (array.length.log2 + 1) := Nat.lt_log2_self
        have hbits : 2 ^ (array.length.log2 + 1) ≤ 2 ^ (array.length.log2 + 1 + 1) :=
          Nat.pow_le_pow_right (by omega) (by omega)
        rw [flsl, if_neg hsome]
        omega

theorem insertIdx_insertionIndex (h : Sorted fireTSR array) (rlt : TimerRef) :
    array.insertIdx (insertionIndexInTimerArray fireTSR array rlt) rlt = insertSorted fireTSR rlt array := by
  rw [insertionIndex_eq h, insertIdx_takeWhile, insertSorted_eq]

end

section

variable {timer : TimerRef → Timer} {firing : TimerRef → Bool}

/-- The least value over the timers, no timer counts as the end of time. -/
def earliest (f : TimerRef → Nat) : List TimerRef → Nat
  | [] => uint64Max
  | t :: timers => min (f t) (earliest f timers)

/-- The deadlines of the timers of a mode that are not firing. -/
def deadlines (timer : TimerRef → Timer) (firing : TimerRef → Bool) (timers : List TimerRef) : Nat × Nat :=
  (earliest (fun t => (timer t).fireTSR) (timers.filter fun t => !firing t),
    earliest (fun t => hardDeadline (timer t)) (timers.filter fun t => !firing t))

end

/-- The kernel is asked for the deadlines, by the one timer or the other. -/
structure Mode.Requested (x : Mode) : Prop where
  mkTimer : x.mkTimer = if x.timerSoftDeadline < uint64Max ∧ x.timerSoftDeadline = x.timerHardDeadline then
    some x.timerSoftDeadline else none
  dispatchTimer : x.dispatchTimer = if x.timerSoftDeadline < uint64Max ∧ x.timerSoftDeadline < x.timerHardDeadline
    then some (x.timerSoftDeadline, x.timerHardDeadline - x.timerSoftDeadline) else none

section

variable {x : Mode} {timer : TimerRef → Timer}

@[simp] theorem request_timers (x : Mode) (soft hard : Nat) : (x.request soft hard).timers = x.timers := by
  rw [Mode.request]
  split
  · split <;> rfl
  · split <;> rfl

@[simp] theorem armNextTimer_timers (x : Mode) (timer : TimerRef → Timer) :
    (x.armNextTimer timer).timers = x.timers := request_timers x _ _

theorem insertTimer_timers (hsorted : Sorted (fun t => (timer t).fireTSR) x.timers) (rlt : TimerRef) :
    (x.insertTimer timer rlt).timers = insertSorted (fun t => (timer t).fireTSR) rlt x.timers :=
  insertIdx_insertionIndex hsorted rlt

end

end TimerArray
