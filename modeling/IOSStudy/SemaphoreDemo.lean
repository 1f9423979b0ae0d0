import IOSStudy.Transition
import IOSStudy.Locks

/-!
# semaphoreTest: threads that share the permits of a semaphore

The demo creates its semaphore with one permit and starts ten threads; here
the number of permits and the threads are arbitrary.
-/
namespace SemaphoreDemo

open Transition Locks

/-- Every thread runs `semaphoreTest` once. -/
inductive Thread where
  | new | wait | log | signal | finished
  deriving DecidableEq, Repr

structure State (τ : Type*) where
  semaphore : Semaphore
  thread : τ → Thread
  log : List τ

inductive Action (τ : Type*) where
  | start (t : τ)
  | run (t : τ)

variable {τ : Type*} [DecidableEq τ]

def State.goto (s : State τ) (t : τ) (x : Thread) : State τ :=
  { s with thread := Function.update s.thread t x }

def runStep (s : State τ) (t : τ) : Option (State τ) :=
  match s.thread t with
  | .new | .finished => none
  | .wait => s.semaphore.wait.map fun semaphore => { s.goto t .log with semaphore := semaphore }
  | .log => some { s.goto t .signal with log := s.log ++ [t] }
  | .signal => some { s.goto t .finished with semaphore := s.semaphore.signal }

def step (s : State τ) : Action τ → Option (State τ)
  | .start t => if s.thread t = .new then some (s.goto t .wait) else none
  | .run t => runStep s t

/-- `dispatch_semaphore_create(permits)` -/
def initialState (permits : Nat) : State τ where
  semaphore := ⟨permits⟩
  thread := fun _ => .new
  log := []

def system (permits : Nat) : System (State τ) (Action τ) := ⟨initialState permits, step⟩

/-- Between the wait and the signal. -/
def Inside (x : Thread) : Prop := x = .log ∨ x = .signal

/-- Everything a step can do, guards included. -/
inductive Fires (s : State τ) : Action τ → State τ → Prop where
  | start {t : τ} (ht : s.thread t = .new) : Fires s (.start t) (s.goto t .wait)
  | wait {t : τ} {semaphore : Semaphore} (ht : s.thread t = .wait)
      (hw : s.semaphore.wait = some semaphore) :
      Fires s (.run t) { s.goto t .log with semaphore := semaphore }
  | log {t : τ} (ht : s.thread t = .log) :
      Fires s (.run t) { s.goto t .signal with log := s.log ++ [t] }
  | signal {t : τ} (ht : s.thread t = .signal) :
      Fires s (.run t) { s.goto t .finished with semaphore := s.semaphore.signal }

theorem system_fires {permits : Nat} {s s' : State τ} {a : Action τ}
    (h : (system permits).step s a = some s') : Fires s a s' := by
  cases a with
  | start t =>
    simp only [system, step, Option.ite_none_right_eq_some, Option.some.injEq] at h
    obtain ⟨ht, rfl⟩ := h
    exact .start ht
  | run t =>
    simp only [system, step, runStep] at h
    cases ht : s.thread t with
    | new | finished => simp [ht] at h
    | wait =>
      simp only [ht, Option.map_eq_some_iff] at h
      obtain ⟨semaphore, hw, rfl⟩ := h
      exact .wait ht hw
    | log => simp only [ht, Option.some.injEq] at h; subst h; exact .log ht
    | signal => simp only [ht, Option.some.injEq] at h; subst h; exact .signal ht

/-- The threads that have logged, each once. -/
def Logged (s : State τ) : Prop :=
  s.log.Nodup ∧ ∀ t, t ∈ s.log ↔ s.thread t = .signal ∨ s.thread t = .finished

structure Fair (permits : Nat) (s : State τ) : Prop where
  shares : Shares s.semaphore permits Inside s.thread
  logged : Logged s

omit [DecidableEq τ] in
theorem fair_initial (permits : Nat) : Fair permits (initialState permits : State τ) where
  shares := .free fun t => by simp [initialState, Inside]
  logged := ⟨.nil, fun t => by simp [initialState]⟩

/-- A move that neither logs nor forgets that a thread has logged. -/
theorem Logged.quiet {s s' : State τ} (h : Logged s) {t : τ} {x : Thread}
    (hlog : s'.log = s.log) (hthread : s'.thread = Function.update s.thread t x)
    (hx : x = .signal ∨ x = .finished ↔ s.thread t = .signal ∨ s.thread t = .finished) : Logged s' := by
  refine ⟨hlog ▸ h.1, fun u => ?_⟩
  rw [hlog, hthread, h.2 u]
  by_cases hut : u = t
  · subst hut
    rw [Function.update_self, hx]
  · rw [Function.update_of_ne hut]

theorem fair_step {permits : Nat} {s s' : State τ} {a : Action τ} (h : Fair permits s)
    (hf : Fires s a s') : Fair permits s' := by
  cases hf with
  | start ht =>
    refine ⟨h.shares.move (by simp [ht, Inside]), h.logged.quiet rfl rfl (by simp [ht])⟩
  | wait ht hw =>
    refine ⟨h.shares.wait hw (by simp [ht, Inside]) (.inl rfl), h.logged.quiet rfl rfl (by simp [ht])⟩
  | signal ht =>
    refine ⟨h.shares.signal (.inr ht) (by simp [Inside]), h.logged.quiet rfl rfl (by simp [ht])⟩
  | @log t ht =>
    have hnew : t ∉ s.log := by simp [h.logged.2 t, ht]
    refine ⟨h.shares.move (by simp [ht, Inside]), ?_, fun u => ?_⟩
    · exact List.nodup_append.mpr ⟨h.logged.1, List.nodup_singleton t, by
        intro u hu v hv
        rw [List.mem_singleton.mp hv]
        rintro rfl
        exact hnew hu⟩
    · by_cases hut : u = t
      · subst hut
        simp [State.goto]
      · simp [State.goto, hut, h.logged.2 u]

theorem reachable_fair {permits : Nat} {s : State τ} (h : (system permits).Reachable s) :
    Fair permits s :=
  h.invariant (fair_initial permits) fun _ _ _ hi hs => fair_step hi (system_fires hs)

/-- Of all threads at most as many as there are permits are between the wait
and the signal, each logs once, and at rest no permit is missing. -/
theorem semaphoreTest_shares {permits : Nat} {s : State τ} (h : (system permits).Reachable s) :
    (∀ set : Finset τ, (∀ t ∈ set, Inside (s.thread t)) → set.card ≤ permits) ∧
    s.log.Nodup ∧
    ((∀ t, ¬ Inside (s.thread t)) → s.semaphore.permits = permits) := by
  have hfair := reachable_fair h
  exact ⟨fun _ hset => hfair.shares.at_most hset, hfair.logged.1, hfair.shares.all_free⟩

/-- With the one permit of the source the threads log one at a time. -/
theorem semaphoreTest_alone {s : State τ} (h : (system 1).Reachable s) :
    AtMostOne Inside s.thread := (reachable_fair h).shares.exclusive

/-- A waiting thread waits for another one that can move, as long as there is a permit at all. -/
theorem semaphoreTest_moves {permits : Nat} {s : State τ} (h : (system permits).Reachable s)
    (hpermits : 0 < permits) {t : τ} (ht : s.thread t = .wait) :
    ∃ u, (step s (.run u)).isSome := by
  have hfair := reachable_fair h
  by_cases hinside : ∃ u, Inside (s.thread u)
  · obtain ⟨u, hu | hu⟩ := hinside
    · exact ⟨u, by simp [step, runStep, hu]⟩
    · exact ⟨u, by simp [step, runStep, hu]⟩
  · have hfree := hfair.shares.all_free (not_exists.mp hinside)
    have hne : s.semaphore.permits ≠ 0 := by omega
    exact ⟨t, by simp [step, runStep, ht, Semaphore.wait, hne]⟩

end SemaphoreDemo
