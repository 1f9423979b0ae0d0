import IOSStudy.Transition
import IOSStudy.Locks

/-!
# TestSemaphore: tasks put in order by a semaphore

`main` starts every task but the first only after the one before it has
signalled. The last task signals nobody, and `main` may exit before it has run.
-/
namespace TestSemaphore

open Transition Locks

inductive Statement (τ : Type*) where
  | dispatchAsync (task : τ) (signals : Bool)
  | wait
  | exit
  deriving DecidableEq, Repr

/-- The body of `main` for a first task and the tasks after it. -/
def mainBody {τ : Type*} : τ → List τ → List (Statement τ)
  | task, [] => [.dispatchAsync task false, .exit]
  | task, next :: tasks => .dispatchAsync task true :: .wait :: mainBody next tasks

example : mainBody "a" ["b", "c"] = [.dispatchAsync "a" true, .wait, .dispatchAsync "b" true, .wait,
    .dispatchAsync "c" false, .exit] := rfl

/-- A submitted block and whether it has logged. -/
structure Block (τ : Type*) where
  task : τ
  signals : Bool
  logged : Bool

inductive Line (τ : Type*) where
  | task (task : τ)
  | exit
  deriving DecidableEq, Repr

structure State (τ : Type*) where
  body : List (Statement τ)
  semaphore : Semaphore
  blocks : List (Block τ)
  log : List (Line τ)

inductive Action where
  | main
  | block (i : Nat)

variable {τ : Type*}

def mainStep (s : State τ) : Option (State τ) :=
  match s.body with
  | [] => none
  | .dispatchAsync task signals :: body =>
      some { s with body := body, blocks := s.blocks ++ [⟨task, signals, false⟩] }
  | .wait :: body => s.semaphore.wait.map fun semaphore =>
      { s with body := body, semaphore := semaphore }
  | .exit :: body => some { s with body := body, log := s.log ++ [.exit] }

/-- A block of the global queue logs, and then signals if it has to. -/
def blockStep (s : State τ) (i : Nat) : Option (State τ) :=
  match s.blocks[i]? with
  | none => none
  | some b => some (if b.logged then
      { s with
        blocks := s.blocks.eraseIdx i
        semaphore := if b.signals then s.semaphore.signal else s.semaphore }
    else { s with blocks := s.blocks.set i { b with logged := true }, log := s.log ++ [.task b.task] })

def step (s : State τ) : Action → Option (State τ)
  | .main => mainStep s
  | .block i => blockStep s i

def initialState (first : τ) (others : List τ) : State τ where
  body := mainBody first others
  semaphore := ⟨0⟩
  blocks := []
  log := []

def system (first : τ) (others : List τ) : System (State τ) Action := ⟨initialState first others, step⟩

/-- The tasks that have logged, in order. -/
def logged (log : List (Line τ)) : List τ :=
  log.filterMap fun
    | .task task => some task
    | .exit => none

/-- The lines of tasks alone. -/
def lines (tasks : List τ) : List (Line τ) := tasks.map .task

theorem logged_lines (tasks : List τ) : logged (lines tasks) = tasks := by
  induction tasks with
  | nil => rfl
  | cons task tasks ih => exact congrArg (task :: ·) ih

theorem logged_task (log : List (Line τ)) (task : τ) :
    logged (log ++ [.task task]) = logged log ++ [task] := List.filterMap_append

theorem logged_exit (log : List (Line τ)) : logged (log ++ [.exit]) = logged log := by
  simp [logged]

theorem exit_notMem_lines (tasks : List τ) : Line.exit ∉ lines tasks := by
  simp [lines]

/-- Where main is, and how far the block under way has come. -/
inductive Stage (tasks : List τ) : State τ → Prop where
  | submit {done rest : List τ} {task : τ} (ht : tasks = done ++ task :: rest) :
      Stage tasks ⟨mainBody task rest, ⟨0⟩, [], lines done⟩
  | pending {done rest : List τ} {task next : τ} (ht : tasks = done ++ task :: next :: rest) :
      Stage tasks ⟨.wait :: mainBody next rest, ⟨0⟩, [⟨task, true, false⟩], lines done⟩
  | ran {done rest : List τ} {task next : τ} (ht : tasks = done ++ task :: next :: rest) :
      Stage tasks ⟨.wait :: mainBody next rest, ⟨0⟩, [⟨task, true, true⟩], lines (done ++ [task])⟩
  | signalled {done rest : List τ} {task next : τ} (ht : tasks = done ++ task :: next :: rest) :
      Stage tasks ⟨.wait :: mainBody next rest, ⟨1⟩, [], lines (done ++ [task])⟩
  | last {done : List τ} {task : τ} {body : List (Statement τ)} {log : List (Line τ)}
      (ht : tasks = done ++ [task]) (hb : body = [.exit] ∨ body = []) (hd : lines done <+: log)
      (hl : logged log = done) : Stage tasks ⟨body, ⟨0⟩, [⟨task, false, false⟩], log⟩
  | finished {done : List τ} {task : τ} {body : List (Statement τ)} {log : List (Line τ)}
      {blocks : List (Block τ)} (ht : tasks = done ++ [task]) (hb : body = [.exit] ∨ body = [])
      (hd : lines done <+: log) (hl : logged log = tasks)
      (hblocks : blocks = [⟨task, false, true⟩] ∨ blocks = []) : Stage tasks ⟨body, ⟨0⟩, blocks, log⟩

theorem stage_initial (first : τ) (others : List τ) :
    Stage (first :: others) (initialState first others) := by
  have ht : first :: others = [] ++ first :: others := rfl
  exact .submit ht

theorem stage_main {tasks : List τ} {s s' : State τ} (h : Stage tasks s)
    (hs : mainStep s = some s') : Stage tasks s' := by
  cases h with
  | @submit done rest task ht =>
    cases rest with
    | nil =>
      cases hs
      exact .last ht (.inl rfl) (List.prefix_refl _) (logged_lines done)
    | cons next rest =>
      cases hs
      exact .pending ht
  | pending _ | ran _ => simp [mainStep, Semaphore.wait] at hs
  | @signalled done rest task next ht =>
    cases hs
    have ht' : tasks = (done ++ [task]) ++ next :: rest := by rw [ht, List.append_assoc]; rfl
    exact .submit ht'
  | @last done task body log ht hb hd hl =>
    rcases hb with rfl | rfl
    · cases hs
      exact .last ht (.inr rfl) (hd.trans (List.prefix_append _ _)) ((logged_exit log).trans hl)
    · cases hs
  | @finished done task body log blocks ht hb hd hl hblocks =>
    rcases hb with rfl | rfl
    · cases hs
      exact .finished ht (.inr rfl) (hd.trans (List.prefix_append _ _))
        ((logged_exit log).trans hl) hblocks
    · cases hs

theorem stage_block {tasks : List τ} {s s' : State τ} {i : Nat} (h : Stage tasks s)
    (hs : blockStep s i = some s') : Stage tasks s' := by
  cases h with
  | submit _ | signalled _ => simp [blockStep] at hs
  | @pending done rest task next ht =>
    cases i with
    | zero =>
      cases hs
      have hlog : lines done ++ [.task task] = lines (done ++ [task]) := by simp [lines]
      rw [hlog]
      exact .ran ht
    | succ i => simp [blockStep] at hs
  | ran ht =>
    cases i with
    | zero => cases hs; exact .signalled ht
    | succ i => simp [blockStep] at hs
  | @last done task body log ht hb hd hl =>
    cases i with
    | zero =>
      cases hs
      refine .finished ht hb (hd.trans (List.prefix_append _ _)) ?_ (.inl rfl)
      rw [logged_task, hl, ht]
    | succ i => simp [blockStep] at hs
  | finished ht hb hd hl hblocks =>
    rcases hblocks with rfl | rfl
    · cases i with
      | zero => cases hs; exact .finished ht hb hd hl (.inr rfl)
      | succ i => simp [blockStep] at hs
    · simp [blockStep] at hs

theorem reachable_stage {first : τ} {others : List τ} {s : State τ}
    (h : (system first others).Reachable s) : Stage (first :: others) s := by
  refine h.invariant (stage_initial first others) fun s a s' hi hs => ?_
  cases a with
  | main => exact stage_main hi hs
  | block i => exact stage_block hi hs

/-- The tasks log in the order of the program, and `main` exits only after all
of them but the last have logged. -/
theorem tasks_in_order {first : τ} {others : List τ} {s : State τ}
    (h : (system first others).Reachable s) :
    logged s.log <+: first :: others ∧
    (.exit ∈ s.log → lines (first :: others).dropLast <+: s.log) := by
  cases reachable_stage h with
  | submit ht | pending ht =>
    refine ⟨?_, fun hexit => absurd hexit (exit_notMem_lines _)⟩
    rw [logged_lines, ht]
    exact List.prefix_append _ _
  | @ran done rest task next ht | @signalled done rest task next ht =>
    refine ⟨?_, fun hexit => absurd hexit (exit_notMem_lines _)⟩
    rw [logged_lines, ht]
    exact ⟨next :: rest, by simp⟩
  | last ht _ hd hl =>
    rw [ht, hl, List.dropLast_concat]
    exact ⟨List.prefix_append _ _, fun _ => hd⟩
  | finished ht _ hd hl _ =>
    rw [hl, ht, List.dropLast_concat]
    exact ⟨List.prefix_refl _, fun _ => hd⟩

/-- `main` exits before the second of two tasks has logged. -/
theorem tasks_in_order_two : ∃ s : State Nat, (system 7 [8]).Reachable s ∧ s.log = [.task 7, .exit] ∧
    lines [7] <+: s.log := by
  obtain ⟨s, hs, hp⟩ := System.exists_of_exec (show ((system 7 [8]).exec (system 7 [8]).initial
    [.main, .block 0, .block 0, .main, .main, .main]).any
    (fun s => s.log == [.task 7, .exit]) = true by decide)
  have hlog : s.log = [.task 7, .exit] := by simpa using hp
  exact ⟨s, hs, hlog, (tasks_in_order hs).2 (by simp [hlog])⟩

end TestSemaphore
