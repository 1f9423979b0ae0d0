import Mathlib.Data.List.Nodup
import Mathlib.Data.List.Perm.Basic
import Mathlib.Logic.Function.Basic
import IOSStudy.Transition

/-!
# Compare-and-swap loops

An operation on a shared word reads it, decides from what it read, and either
answers at once or tries to swap in a new value, beginning again when another
thread was faster. Seen from outside such operations happen one after the
other, each between its call and its return.
-/
namespace CasLoop

open Transition

/-- One turn of the loop, decided from the value read. -/
inductive Turn (ω ρ : Type*) where
  | answer (reply : ρ)
  | swap (new : ω) (reply : ρ)
  deriving DecidableEq, Repr

/-- The word and the answer when the turn is taken at once. -/
def Turn.result {ω ρ : Type*} (old : ω) : Turn ω ρ → ω × ρ
  | .answer reply => (old, reply)
  | .swap new reply => (new, reply)

inductive Event (τ κ ρ : Type*) where
  | called (t : τ) (call : κ)
  | returned (t : τ) (call : κ) (reply : ρ)
  deriving DecidableEq, Repr

/-- The operations that have returned, in the order of the history. -/
def returns {τ κ ρ : Type*} : List (Event τ κ ρ) → List (τ × κ × ρ)
  | [] => []
  | .called _ _ :: history => returns history
  | .returned t call reply :: history => (t, call, reply) :: returns history

inductive Pc (ω κ ρ : Type*) where
  | idle
  | reading (call : κ)
  | deciding (call : κ) (old : ω)
  | returning (call : κ) (reply : ρ)
  deriving DecidableEq, Repr

structure Loops (ω τ κ ρ : Type*) where
  word : ω
  pc : τ → Pc ω κ ρ
  history : List (Event τ κ ρ)

inductive LoopAction (τ κ : Type*) where
  | call (t : τ) (call : κ)
  | read (t : τ)
  | decide (t : τ)
  | finish (t : τ)
  deriving DecidableEq, Repr

section

variable {ω τ κ ρ : Type*} [DecidableEq ω] [DecidableEq τ]

/-- Threads calling operations on one word. The clients' discipline says from
the history which calls they make; the history has the latest event first. -/
def loops (turn : κ → ω → Turn ω ρ) (may : List (Event τ κ ρ) → τ → κ → Bool) (word : ω) :
    System (Loops ω τ κ ρ) (LoopAction τ κ) where
  initial := ⟨word, fun _ => .idle, []⟩
  step s
    | .call t call => match s.pc t with
      | .idle =>
        if may s.history t call then
          some { s with
            pc := Function.update s.pc t (.reading call)
            history := .called t call :: s.history }
        else none
      | _ => none
    | .read t => match s.pc t with
      | .reading call => some { s with pc := Function.update s.pc t (.deciding call s.word) }
      | _ => none
    | .decide t => match s.pc t with
      | .deciding call old => match turn call old with
        | .answer reply => some { s with pc := Function.update s.pc t (.returning call reply) }
        | .swap new reply =>
          if s.word = old then
            some { s with word := new, pc := Function.update s.pc t (.returning call reply) }
          else some { s with pc := Function.update s.pc t (.reading call) }
      | _ => none
    | .finish t => match s.pc t with
      | .returning call reply =>
        some { s with
          pc := Function.update s.pc t .idle
          history := .returned t call reply :: s.history }
      | _ => none

end

inductive Phase (κ ρ : Type*) where
  | idle
  | waiting (call : κ)
  | answered (call : κ) (reply : ρ)
  deriving DecidableEq, Repr

/-- The object the loops implement, with the operations in the order they took
effect, the latest one first. -/
structure Atomic (ω τ κ ρ : Type*) where
  word : ω
  phase : τ → Phase κ ρ
  history : List (Event τ κ ρ)
  acts : List (τ × κ × ρ)

inductive AtomicAction (τ κ : Type*) where
  | call (t : τ) (call : κ)
  | act (t : τ)
  | finish (t : τ)
  deriving DecidableEq, Repr

section

variable {ω τ κ ρ : Type*} [DecidableEq τ]

/-- Between its call and its return an operation takes effect in one step. -/
def atomic (apply : κ → ω → ω × ρ) (may : List (Event τ κ ρ) → τ → κ → Bool) (word : ω) :
    System (Atomic ω τ κ ρ) (AtomicAction τ κ) where
  initial := ⟨word, fun _ => .idle, [], []⟩
  step s
    | .call t call => match s.phase t with
      | .idle =>
        if may s.history t call then
          some { s with
            phase := Function.update s.phase t (.waiting call)
            history := .called t call :: s.history }
        else none
      | _ => none
    | .act t => match s.phase t with
      | .waiting call =>
        some { s with
          word := (apply call s.word).1
          phase := Function.update s.phase t (.answered call (apply call s.word).2)
          acts := (t, call, (apply call s.word).2) :: s.acts }
      | _ => none
    | .finish t => match s.phase t with
      | .answered call reply =>
        some { s with
          phase := Function.update s.phase t .idle
          history := .returned t call reply :: s.history }
      | _ => none

/-- What a step of the atomic object does. -/
inductive Fires (apply : κ → ω → ω × ρ) (may : List (Event τ κ ρ) → τ → κ → Bool)
    (s : Atomic ω τ κ ρ) : Atomic ω τ κ ρ → Prop
  | call (t : τ) (call : κ) : s.phase t = .idle → may s.history t call = true →
      Fires apply may s { s with
        phase := Function.update s.phase t (.waiting call)
        history := .called t call :: s.history }
  | act (t : τ) (call : κ) : s.phase t = .waiting call →
      Fires apply may s { s with
        word := (apply call s.word).1
        phase := Function.update s.phase t (.answered call (apply call s.word).2)
        acts := (t, call, (apply call s.word).2) :: s.acts }
  | finish (t : τ) (call : κ) (reply : ρ) : s.phase t = .answered call reply →
      Fires apply may s { s with
        phase := Function.update s.phase t .idle
        history := .returned t call reply :: s.history }

theorem fires_of_step {apply : κ → ω → ω × ρ} {may : List (Event τ κ ρ) → τ → κ → Bool} {word : ω}
    {s s' : Atomic ω τ κ ρ} {a : AtomicAction τ κ} (h : (atomic apply may word).step s a = some s') :
    Fires apply may s s' := by
  cases a with
  | call t call =>
    simp only [atomic] at h
    split at h
    · next hp =>
      simp only [Option.ite_none_right_eq_some, Option.some.injEq] at h
      obtain ⟨hm, rfl⟩ := h
      exact .call t call hp hm
    · cases h
  | act t =>
    simp only [atomic] at h
    split at h
    · next call hp =>
      cases h
      exact .act t call hp
    · cases h
  | finish t =>
    simp only [atomic] at h
    split at h
    · next call reply hp =>
      cases h
      exact .finish t call reply hp
    · cases h

/-- The operations as a sequential program would do them, one after the other. -/
inductive Legal (apply : κ → ω → ω × ρ) (word : ω) : List (τ × κ × ρ) → ω → Prop
  | nil : Legal apply word [] word
  | cons {acts : List (τ × κ × ρ)} {w : ω} (t : τ) (call : κ) : Legal apply word acts w →
      Legal apply word ((t, call, (apply call w).2) :: acts) (apply call w).1

/-- Every answer was given by an operation that took effect, and an operation
that took effect has returned or is about to. -/
structure Explained (apply : κ → ω → ω × ρ) (word : ω) (s : Atomic ω τ κ ρ)
    (pending : List (τ × κ × ρ)) : Prop where
  legal : Legal apply word s.acts s.word
  threads : (pending.map Prod.fst).Nodup
  answered : ∀ t call reply, (t, call, reply) ∈ pending ↔ s.phase t = .answered call reply
  perm : s.acts.Perm (pending ++ returns s.history)

variable {apply : κ → ω → ω × ρ} {may : List (Event τ κ ρ) → τ → κ → Bool} {word : ω}
  {s s' : Atomic ω τ κ ρ} {pending : List (τ × κ × ρ)}

omit [DecidableEq τ] in
theorem Explained.notMem (h : Explained apply word s pending) {t : τ}
    (ht : ∀ call reply, s.phase t ≠ .answered call reply) : t ∉ pending.map Prod.fst := by
  intro hmem
  obtain ⟨⟨u, call, reply⟩, he, hu⟩ := List.mem_map.mp hmem
  change u = t at hu
  subst hu
  exact ht call reply ((h.answered u call reply).mp he)

theorem explained_step (h : Explained apply word s pending) (hs : Fires apply may s s') :
    ∃ pending', Explained apply word s' pending' := by
  cases hs with
  | call t call hp _ =>
    refine ⟨pending, h.legal, h.threads, ?_, h.perm⟩
    intro u c reply
    by_cases hut : u = t
    · subst hut
      simp [h.answered u c reply, hp]
    · simp [hut, h.answered u c reply]
  | act t call hp =>
    have hnew := h.notMem (t := t) (by simp [hp])
    refine ⟨(t, call, (apply call s.word).2) :: pending, .cons t call h.legal, ?_, ?_, ?_⟩
    · exact List.nodup_cons.mpr ⟨hnew, h.threads⟩
    · intro u c reply
      by_cases hut : u = t
      · subst hut
        have hout : (u, c, reply) ∉ pending := fun hmem => hnew (List.mem_map.mpr ⟨_, hmem, rfl⟩)
        simp only [List.mem_cons, Prod.mk.injEq, true_and, hout, or_false, Function.update_self,
          Phase.answered.injEq]
        exact ⟨fun ⟨hc, hr⟩ => ⟨hc.symm, hr.symm⟩, fun ⟨hc, hr⟩ => ⟨hc.symm, hr.symm⟩⟩
      · simp [hut, h.answered u c reply]
    · exact h.perm.cons _
  | finish t call reply hp =>
    obtain ⟨before, after, rfl⟩ := List.append_of_mem ((h.answered t call reply).mpr hp)
    have hnodup := h.threads
    rw [List.map_append, List.map_cons] at hnodup
    have hmid := List.nodup_middle.mp hnodup
    rw [← List.map_append] at hmid
    obtain ⟨hnew, hrest⟩ := List.nodup_cons.mp hmid
    refine ⟨before ++ after, h.legal, hrest, ?_, ?_⟩
    · intro u c r
      by_cases hut : u = t
      · subst hut
        have hout : (u, c, r) ∉ before ++ after :=
          fun hmem => hnew (List.mem_map.mpr ⟨_, hmem, rfl⟩)
        simp [hout]
      · simp only [Function.update_of_ne hut, ← h.answered u c r]
        simp [hut]
    · refine h.perm.trans ?_
      simp only [returns, List.append_assoc, List.cons_append]
      refine List.Perm.append_left before ?_
      exact List.perm_middle.symm

/-- The history of the object is that of a sequential use. -/
theorem explained (h : (atomic apply may word).Reachable s) : ∃ pending, Explained apply word s pending := by
  refine h.invariant (I := fun s => ∃ pending, Explained apply word s pending) ?_ ?_
  · exact ⟨[], .nil, List.nodup_nil, by simp [atomic], List.Perm.nil⟩
  · intro s a s' hi hs
    obtain ⟨pending, hi⟩ := hi
    exact explained_step hi (fires_of_step hs)

/-- No answer is seen more often than it was given. -/
theorem countP_returns_le (h : (atomic apply may word).Reachable s) (p : τ × κ × ρ → Bool) :
    (returns s.history).countP p ≤ s.acts.countP p := by
  obtain ⟨pending, he⟩ := explained h
  rw [he.perm.countP_eq p, List.countP_append]
  exact Nat.le_add_left _ _

end

/-- Where a thread in the loop stands for an observer: a turn that only answers
has taken effect when its word was read. -/
def view {ω κ ρ : Type*} (turn : κ → ω → Turn ω ρ) : Pc ω κ ρ → Phase κ ρ
  | .idle => .idle
  | .reading call => .waiting call
  | .deciding call old => match turn call old with
    | .answer reply => .answered call reply
    | .swap _ _ => .waiting call
  | .returning call reply => .answered call reply

/-- The object an observer of the loops sees, with the operations that took effect. -/
def observed {ω τ κ ρ : Type*} (turn : κ → ω → Turn ω ρ) (s : Loops ω τ κ ρ) (acts : List (τ × κ × ρ)) :
    Atomic ω τ κ ρ :=
  ⟨s.word, view turn ∘ s.pc, s.history, acts⟩

section

variable {ω τ κ ρ : Type*} [DecidableEq ω] [DecidableEq τ] (turn : κ → ω → Turn ω ρ)
  (may : List (Event τ κ ρ) → τ → κ → Bool) (word : ω)

/-- A step of the loops is no step of the object, or one. -/
theorem observed_step {s s' : Loops ω τ κ ρ} {a : LoopAction τ κ} (acts : List (τ × κ × ρ))
    (hs : (loops turn may word).step s a = some s') :
    ∃ bs acts', (atomic (fun call w => (turn call w).result w) may word).exec
      (observed turn s acts) bs = some (observed turn s' acts') := by
  cases a with
  | call t call =>
    simp only [loops] at hs
    split at hs
    · next hpc =>
      simp only [Option.ite_none_right_eq_some, Option.some.injEq] at hs
      obtain ⟨hm, rfl⟩ := hs
      refine ⟨[.call t call], acts, ?_⟩
      simp [atomic, observed, Function.comp_update, hpc, view, hm]
    · cases hs
  | read t =>
    simp only [loops] at hs
    split at hs
    · next call hpc =>
      cases hs
      cases hturn : turn call s.word with
      | answer reply =>
        refine ⟨[.act t], (t, call, reply) :: acts, ?_⟩
        simp [atomic, observed, Function.comp_update, hpc, view, hturn, Turn.result]
      | swap new reply =>
        refine ⟨[], acts, ?_⟩
        have hsame : view turn (.deciding call s.word) = (view turn ∘ s.pc) t := by
          simp [view, hturn, hpc]
        simp [observed, Function.comp_update, hsame]
    · cases hs
  | decide t =>
    simp only [loops] at hs
    split at hs
    · next call old hpc =>
      cases hturn : turn call old with
      | answer reply =>
        simp only [hturn, Option.some.injEq] at hs
        subst hs
        refine ⟨[], acts, ?_⟩
        have hsame : view turn (.returning call reply) = (view turn ∘ s.pc) t := by
          simp [view, hturn, hpc]
        simp [observed, Function.comp_update, hsame]
      | swap new reply =>
        simp only [hturn] at hs
        split at hs
        · next hword =>
          cases hs
          refine ⟨[.act t], (t, call, reply) :: acts, ?_⟩
          simp [atomic, observed, Function.comp_update, hpc, view, hturn, hword, Turn.result]
        · cases hs
          refine ⟨[], acts, ?_⟩
          have hsame : view turn (.reading call) = (view turn ∘ s.pc) t := by
            simp [view, hturn, hpc]
          simp [observed, Function.comp_update, hsame]
    · cases hs
  | finish t =>
    simp only [loops] at hs
    split at hs
    · next call reply hpc =>
      cases hs
      refine ⟨[.finish t], acts, ?_⟩
      simp [atomic, observed, Function.comp_update, hpc, view]
    · cases hs

/-- The loops implement the object whose operations happen at once. -/
def linearization :
    Simulation (loops turn may word) (atomic (fun call w => (turn call w).result w) may word) where
  rel s a := ∃ acts, a = observed turn s acts
  start := ⟨[], rfl⟩
  step := by
    rintro s a b s' ⟨acts, rfl⟩ hs
    obtain ⟨bs, acts', he⟩ := observed_step turn may word acts hs
    exact ⟨bs, _, he, acts', rfl⟩

end

section

variable {ω τ κ ρ : Type*} [DecidableEq ω] [DecidableEq τ] {turn : κ → ω → Turn ω ρ}
  {may : List (Event τ κ ρ) → τ → κ → Bool} {word : ω} {s : Loops ω τ κ ρ}

/-- What the loops show is a state of the object. -/
theorem reachable_observed (h : (loops turn may word).Reachable s) :
    ∃ acts, (atomic (fun call w => (turn call w).result w) may word).Reachable (observed turn s acts) := by
  obtain ⟨a, ha, acts, rfl⟩ := (linearization turn may word).reachable h
  exact ⟨acts, ha⟩

/-- The answers seen so far are among those of a sequential use that leaves the
word as it is, and they are all of them once every thread has returned. -/
theorem returns_legal (h : (loops turn may word).Reachable s) :
    ∃ acts : List (τ × κ × ρ), Legal (fun call w => (turn call w).result w) word acts s.word ∧
      ∀ p : τ × κ × ρ → Bool, (returns s.history).countP p ≤ acts.countP p ∧
        ((∀ t, s.pc t = .idle) → (returns s.history).countP p = acts.countP p) := by
  obtain ⟨acts, ha⟩ := reachable_observed h
  obtain ⟨pending, he⟩ := explained ha
  refine ⟨acts, he.legal, fun p => ⟨countP_returns_le ha p, fun hidle => ?_⟩⟩
  have hnone : pending = [] := by
    apply List.eq_nil_iff_forall_not_mem.mpr
    intro e hmem
    have hphase := (he.answered e.1 e.2.1 e.2.2).mp hmem
    simp [observed, hidle e.1, view] at hphase
  have hperm := he.perm.countP_eq p
  rw [hnone, List.nil_append] at hperm
  exact hperm.symm

/-- What the loops go on to show the object goes on to do. -/
theorem exec_observed {s' : Loops ω τ κ ρ} {as : List (LoopAction τ κ)} (acts : List (τ × κ × ρ))
    (h : (loops turn may word).exec s as = some s') :
    ∃ bs acts', (atomic (fun call w => (turn call w).result w) may word).exec
      (observed turn s acts) bs = some (observed turn s' acts') := by
  induction as generalizing s acts with
  | nil =>
    cases h
    exact ⟨[], acts, rfl⟩
  | cons a as ih =>
    obtain ⟨s₁, hs, he⟩ := Option.bind_eq_some_iff.mp h
    obtain ⟨bs, acts₁, hb⟩ := observed_step turn may word acts hs
    obtain ⟨bs', acts', hb'⟩ := ih acts₁ he
    exact ⟨bs ++ bs', acts', by rw [System.exec_append, hb]; exact hb'⟩

end

end CasLoop
