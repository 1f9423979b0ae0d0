import Mathlib.Data.List.Basic

/-!
# Executable transition systems, their runs and their invariants

An action either fires in exactly one way or is not enabled, so a schedule is
a plain list of actions. A run keeps its whole history: properties of steps
(which action fired in which state) and of states are both read off it.
-/
namespace Transition

structure System (σ α : Type*) where
  initial : σ
  step : σ → α → Option σ

namespace System

variable {σ α : Type*} (S : System σ α)

/-- Fire the actions in order; none when one of them is not enabled. -/
def exec : σ → List α → Option σ
  | s, [] => some s
  | s, a :: as => (S.step s a).bind fun s' => exec s' as

@[simp] theorem exec_nil (s : σ) : S.exec s [] = some s := rfl
@[simp] theorem exec_cons (s : σ) (a : α) (as : List α) :
    S.exec s (a :: as) = (S.step s a).bind fun s' => S.exec s' as := rfl

theorem exec_append (s : σ) (as bs : List α) :
    S.exec s (as ++ bs) = (S.exec s as).bind fun s' => S.exec s' bs := by
  induction as generalizing s with
  | nil => rfl
  | cons a as ih =>
    cases hs : S.step s a with
    | none => simp [hs]
    | some s₁ => simp [hs, ih s₁]

/-- A run from the start state with the steps it took, the latest one first. -/
inductive Run : List (σ × α) → σ → Prop where
  | start : Run [] S.initial
  | fire {h : List (σ × α)} {s s' : σ} {a : α} :
      Run h s → S.step s a = some s' → Run ((s, a) :: h) s'

def Reachable (s : σ) : Prop := ∃ h, S.Run h s

/-- Every step of the history was taken in a state that meets the condition. -/
def Meets (C : σ → α → Prop) (h : List (σ × α)) : Prop := ∀ p ∈ h, C p.1 p.2

/-- Every state the run visits satisfies P, the first and the last included. -/
def Throughout (P : σ → Prop) (h : List (σ × α)) (s : σ) : Prop := P s ∧ ∀ p ∈ h, P p.1

@[simp] theorem meets_nil (C : σ → α → Prop) : Meets C [] := by simp [Meets]
@[simp] theorem meets_cons (C : σ → α → Prop) (s : σ) (a : α) (h : List (σ × α)) :
    Meets C ((s, a) :: h) ↔ C s a ∧ Meets C h := by simp [Meets]

@[simp] theorem throughout_nil (P : σ → Prop) (s : σ) : Throughout P ([] : List (σ × α)) s ↔ P s := by
  simp [Throughout]
@[simp] theorem throughout_cons (P : σ → Prop) (p : σ × α) (h : List (σ × α)) (s : σ) :
    Throughout P (p :: h) s ↔ P s ∧ Throughout P h p.1 := by simp [Throughout]

theorem Throughout.mono {P Q : σ → Prop} {h : List (σ × α)} {s : σ} (hp : Throughout P h s)
    (hpq : ∀ s, P s → Q s) : Throughout Q h s :=
  ⟨hpq s hp.1, fun p hm => hpq p.1 (hp.2 p hm)⟩

variable {S}

theorem Reachable.start : S.Reachable S.initial := ⟨[], .start⟩

theorem Reachable.fire {s s' : σ} {a : α} (h : S.Reachable s) (hs : S.step s a = some s') :
    S.Reachable s' := by
  obtain ⟨hist, r⟩ := h
  exact ⟨_, .fire r hs⟩

theorem Reachable.exec {s s' : σ} {as : List α} (h : S.Reachable s) (he : S.exec s as = some s') :
    S.Reachable s' := by
  induction as generalizing s with
  | nil => cases he; exact h
  | cons a as ih =>
    obtain ⟨s₁, hs, he⟩ := Option.bind_eq_some_iff.mp he
    exact ih (h.fire hs) he

/-- A schedule whose last state passes a test exhibits a reachable state that does. -/
theorem exists_of_exec {as : List α} {p : σ → Bool}
    (h : (S.exec S.initial as).any p = true) : ∃ s, S.Reachable s ∧ p s = true := by
  cases he : S.exec S.initial as with
  | none => simp [he] at h
  | some s => exact ⟨s, Reachable.start.exec he, by simpa [he] using h⟩

theorem Meets.mono {C D : σ → α → Prop} {h : List (σ × α)} (hm : Meets C h)
    (hcd : ∀ s a, C s a → D s a) : Meets D h := fun p hp => hcd p.1 p.2 (hm p hp)

/-- The same system under a scheduler that refuses the steps failing a test. -/
def restrict (S : System σ α) (c : σ → α → Bool) : System σ α where
  initial := S.initial
  step s a := if c s a then S.step s a else none

theorem Run.of_restrict {c : σ → α → Bool} {h : List (σ × α)} {s : σ}
    (r : (S.restrict c).Run h s) : S.Run h s ∧ Meets (fun s a => c s a = true) h := by
  induction r with
  | start => exact ⟨.start, meets_nil _⟩
  | @fire h s s' a r hf ih =>
    obtain ⟨hr, hm⟩ := ih
    simp only [restrict, Option.ite_none_right_eq_some] at hf
    exact ⟨.fire hr hf.2, (meets_cons _ _ _ _).mpr ⟨hf.1, hm⟩⟩

/-- A schedule exhibits a run whose steps all pass the test. -/
theorem exists_run_of_exec {c : σ → α → Bool} {as : List α} {p : σ → Bool}
    (h : ((S.restrict c).exec S.initial as).any p = true) :
    ∃ hist s, S.Run hist s ∧ Meets (fun s a => c s a = true) hist ∧ p s = true := by
  obtain ⟨s, ⟨hist, r⟩, hp⟩ := exists_of_exec (show
    ((S.restrict c).exec (S.restrict c).initial as).any p = true from h)
  exact ⟨hist, s, r.of_restrict.1, r.of_restrict.2, hp⟩

/-- The rule for conditional invariants: steps that meet C preserve I. -/
theorem Run.throughout_of_meets {I : σ → Prop} {C : σ → α → Prop}
    (h₀ : I S.initial) (hs : ∀ s a s', I s → C s a → S.step s a = some s' → I s')
    {h : List (σ × α)} {s : σ} (r : S.Run h s) (hc : Meets C h) : Throughout I h s := by
  induction r with
  | start => simpa using h₀
  | fire r hf ih =>
    obtain ⟨hc, hm⟩ := (meets_cons _ _ _ _).mp hc
    exact (throughout_cons _ _ _ _).mpr ⟨hs _ _ _ (ih hm).1 hc hf, ih hm⟩

/-- Ordinary invariants: the condition is vacuous. -/
theorem Run.throughout {I : σ → Prop} (h₀ : I S.initial)
    (hs : ∀ s a s', I s → S.step s a = some s' → I s')
    {h : List (σ × α)} {s : σ} (r : S.Run h s) : Throughout I h s :=
  r.throughout_of_meets (C := fun _ _ => True) h₀ (fun s a s' hi _ => hs s a s' hi)
    (fun _ _ => trivial)

theorem Reachable.invariant {I : σ → Prop} (h₀ : I S.initial)
    (hs : ∀ s a s', I s → S.step s a = some s' → I s') {s : σ} (h : S.Reachable s) : I s := by
  obtain ⟨hist, r⟩ := h
  exact (r.throughout h₀ hs).1

/-- Invariants relative to any state, not only the start: what one step
preserves, every continuation preserves. -/
theorem exec_invariant {I : σ → Prop} (hs : ∀ s a s', I s → S.step s a = some s' → I s')
    {s s' : σ} {as : List α} (h : I s) (he : S.exec s as = some s') : I s' := by
  induction as generalizing s with
  | nil => cases he; exact h
  | cons a as ih =>
    obtain ⟨s₁, hf, he⟩ := Option.bind_eq_some_iff.mp he
    exact ih (hs _ _ _ h hf) he

/-- The rule for exact conditions. When the condition keeps the invariant, the
invariant gives the property, and a step against the condition breaks the
property at once, a run has the property throughout exactly when all its
steps meet the condition. -/
theorem Run.throughout_iff_meets {I P : σ → Prop} {C : σ → α → Prop}
    (h₀ : I S.initial) (hs : ∀ s a s', I s → C s a → S.step s a = some s' → I s')
    (hp : ∀ s, I s → P s)
    (hn : ∀ s a s', I s → ¬ C s a → S.step s a = some s' → ¬ P s')
    {h : List (σ × α)} {s : σ} (r : S.Run h s) : Throughout P h s ↔ Meets C h := by
  refine ⟨fun ht => ?_, fun hm => (r.throughout_of_meets h₀ hs hm).mono hp⟩
  induction r with
  | start => simp
  | fire r hf ih =>
    obtain ⟨hlast, ht⟩ := (throughout_cons _ _ _ _).mp ht
    have hm := ih ht
    have hi := (r.throughout_of_meets h₀ hs hm).1
    refine (meets_cons _ _ _ _).mpr ⟨?_, hm⟩
    by_contra hc
    exact hn _ _ _ hi hc hf hlast

end System

/-- A forward simulation: each concrete step is matched by a finite, possibly
empty, list of abstract actions. -/
structure Simulation {σ α τ β : Type*} (C : System σ α) (A : System τ β) where
  rel : σ → τ → Prop
  start : rel C.initial A.initial
  step : ∀ {s t a s'}, rel s t → C.step s a = some s' →
    ∃ bs t', A.exec t bs = some t' ∧ rel s' t'

/-- Every reachable concrete state is related to a reachable abstract one. -/
theorem Simulation.reachable {σ α τ β : Type*} {C : System σ α} {A : System τ β}
    (sim : Simulation C A) {s : σ} (h : C.Reachable s) : ∃ t, A.Reachable t ∧ sim.rel s t := by
  refine System.Reachable.invariant (I := fun s => ∃ t, A.Reachable t ∧ sim.rel s t)
    ⟨_, .start, sim.start⟩ ?_ h
  intro s a s' hi hf
  obtain ⟨t, ht, hr⟩ := hi
  obtain ⟨bs, t', he, hr'⟩ := sim.step hr hf
  exact ⟨t', ht.exec he, hr'⟩

/-- A simulation in lockstep: a run is matched by one that takes the same actions. -/
theorem System.Run.lockstep {σ τ α : Type*} {C : System σ α} {A : System τ α} {rel : σ → τ → Prop}
    (h₀ : rel C.initial A.initial)
    (hs : ∀ s t a s', A.Reachable t → rel s t → C.step s a = some s' → ∃ t', A.step t a = some t' ∧ rel s' t')
    {h : List (σ × α)} {s : σ} (r : C.Run h s) :
    ∃ h' t, A.Run h' t ∧ rel s t ∧ h'.map Prod.snd = h.map Prod.snd := by
  induction r with
  | start => exact ⟨[], A.initial, .start, h₀, rfl⟩
  | @fire h s s' a _ hf ih =>
    obtain ⟨h', t, ht, hrel, hactions⟩ := ih
    obtain ⟨t', hf', hrel'⟩ := hs s t a s' ⟨h', ht⟩ hrel hf
    exact ⟨(t, a) :: h', t', ht.fire hf', hrel', by simp [hactions]⟩

end Transition
