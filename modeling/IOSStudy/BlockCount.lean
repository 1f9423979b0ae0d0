import IOSStudy.BlockFlags
import IOSStudy.Tally

/-!
# Threads that share a block

Any number of threads retain, try to retain and release one block through the
loops of runtime.cpp, in any interleaving of their reads and swaps.
-/
namespace BlockCount

open Transition CasLoop BlockFlags

section

variable {τ : Type*} [DecidableEq τ]

/-- The thread was told to deallocate. -/
def toldToDeallocate (e : τ × Call × Reply) : Bool :=
  e.2.1 == .decrShouldDeallocate && e.2.2 == .truth true

/-- The thread got a reference although it had none. -/
def gotReference (e : τ × Call × Reply) : Bool :=
  e.2.1 == .incrNotDeallocating && e.2.2 == .truth true

omit [DecidableEq τ] in
/-- One thread is told to deallocate, by the step that sets the mark. -/
theorem legal_told {flags w : Word} {acts : List (τ × Call × Reply)} (hfresh : ¬ Deallocating flags)
    (h : Legal apply flags acts w) :
    acts.countP toldToDeallocate = (if Deallocating w then 1 else 0) ∧ kind w = kind flags := by
  induction h with
  | nil => simp [hfresh]
  | @cons acts w t call _ ih =>
    obtain ⟨hcount, hkind⟩ := ih
    have heffect := apply_effect call w
    generalize (apply call w).1 = w' at heffect ⊢
    generalize (apply call w).2 = reply at heffect ⊢
    rw [List.countP_cons, hcount]
    cases heffect with
    | latchedIncr _ => exact ⟨by simp [toldToDeallocate], hkind⟩
    | incr _ _ _ hd hk => exact ⟨by simp [toldToDeallocate, hd], hk.trans hkind⟩
    | refused _ => exact ⟨by simp [toldToDeallocate], hkind⟩
    | latchedRetain _ _ => exact ⟨by simp [toldToDeallocate], hkind⟩
    | retained _ hd _ _ hd' hk => exact ⟨by simp [toldToDeallocate, hd, hd'], hk.trans hkind⟩
    | latchedDecr _ => exact ⟨by simp [toldToDeallocate], hkind⟩
    | underflow _ => exact ⟨by simp [toldToDeallocate], hkind⟩
    | last _ _ hd _ hd' hk => exact ⟨by simp [toldToDeallocate, hd, hd'], hk.trans hkind⟩
    | decr _ _ _ hd _ hk => exact ⟨by simp [toldToDeallocate, hd], hk.trans hkind⟩

/-- However the threads interleave and whatever they call, at most one of them is
told to deallocate, only when the mark is set, and the other bits stay. -/
theorem deallocated_once {may : List (Event τ Call Reply) → τ → Call → Bool} {flags : Word}
    {s : Loops Word τ Call Reply} (hfresh : ¬ Deallocating flags)
    (h : (loops turn may flags).Reachable s) :
    (returns s.history).countP toldToDeallocate ≤ (if Deallocating s.word then 1 else 0) ∧
      ((∀ t, s.pc t = .idle) →
        (returns s.history).countP toldToDeallocate = if Deallocating s.word then 1 else 0) ∧
      kind s.word = kind flags := by
  obtain ⟨acts, hlegal, hreturns⟩ := returns_legal h
  obtain ⟨hcount, hkind⟩ := legal_told hfresh hlegal
  obtain ⟨hle, heq⟩ := hreturns toldToDeallocate
  exact ⟨hcount ▸ hle, fun hidle => hcount ▸ heq hidle, hkind⟩

/-- Two threads release the two references there are; the second swap fails at first. -/
def releases : List (LoopAction Bool Call) :=
  [.call true .decrShouldDeallocate, .call false .decrShouldDeallocate, .read true, .read false, .decide true,
    .decide false, .read false, .decide false, .finish false, .finish true]

theorem deallocated_once_releases : ∃ s,
    (loops turn (fun _ (_ : Bool) _ => true) (blockNeedsFree ||| 4)).Reachable s ∧
    Deallocating s.word ∧ (returns s.history).countP toldToDeallocate ≤ (if Deallocating s.word then 1 else 0) ∧
    ((∀ t, s.pc t = .idle) →
      (returns s.history).countP toldToDeallocate = if Deallocating s.word then 1 else 0) ∧
    kind s.word = kind (blockNeedsFree ||| 4) := by
  let S := loops turn (fun _ (_ : Bool) _ => true) (blockNeedsFree ||| 4)
  obtain ⟨s, hs, hp⟩ := System.exists_of_exec (show (S.exec S.initial releases).any
    (fun s => decide (Deallocating s.word)) = true by decide)
  exact ⟨s, hs, of_decide_eq_true hp, deallocated_once (by decide) hs⟩

/-- A thread that begins when the mark is set gets no reference. -/
theorem refused_step {may : List (Event τ Call Reply) → τ → Call → Bool}
    {s s' : Atomic Word τ Call Reply} {t : τ} {n : Nat}
    (h : Deallocating s.word ∧ s.phase t ≠ .answered .incrNotDeallocating (.truth true) ∧
      (returns s.history).countP (fun e => e.1 == t && gotReference e) = n)
    (hs : Fires apply may s s') :
    Deallocating s'.word ∧ s'.phase t ≠ .answered .incrNotDeallocating (.truth true) ∧
      (returns s'.history).countP (fun e => e.1 == t && gotReference e) = n := by
  obtain ⟨hd, hphase, hcount⟩ := h
  cases hs with
  | call u call hu _ =>
    refine ⟨hd, ?_, hcount⟩
    by_cases hut : t = u
    · subst hut
      simp
    · simpa [hut] using hphase
  | act u call hu =>
    have heffect := apply_effect call s.word
    generalize (apply call s.word).1 = w' at heffect ⊢
    generalize (apply call s.word).2 = reply at heffect ⊢
    have hw : Deallocating w' ∧ (call, reply) ≠ (.incrNotDeallocating, .truth true) := by
      cases heffect with
      | latchedIncr _ => exact ⟨hd, by simp⟩
      | incr _ _ _ hd' _ => exact ⟨hd'.mpr hd, by simp⟩
      | refused _ => exact ⟨hd, by simp⟩
      | latchedRetain hd' _ => exact absurd hd hd'
      | retained _ hd' _ _ _ _ => exact absurd hd hd'
      | latchedDecr _ => exact ⟨hd, by simp⟩
      | underflow _ => exact ⟨hd, by simp⟩
      | last _ _ hd' _ _ _ => exact absurd hd hd'
      | decr _ _ _ hd' _ _ => exact ⟨hd'.mpr hd, by simp⟩
    refine ⟨hw.1, ?_, hcount⟩
    by_cases hut : t = u
    · subst hut
      simpa using hw.2
    · simpa [hut] using hphase
  | finish u call reply hu =>
    refine ⟨hd, ?_, ?_⟩
    · by_cases hut : t = u
      · subst hut
        simp
      · simpa [hut] using hphase
    · have hnot : (u == t && gotReference (u, call, reply)) = false := by
        by_cases hut : u = t
        · subst hut
          rw [hu] at hphase
          simpa [gotReference] using hphase
        · simp [hut]
      simp [returns, hnot, hcount]

/-- A block that is deallocating cannot be brought back: a thread outside the
loops gets no reference from then on. -/
theorem no_reference_after_mark {may : List (Event τ Call Reply) → τ → Call → Bool} {flags : Word}
    {s s' : Loops Word τ Call Reply} {t : τ} {as : List (LoopAction τ Call)}
    (hd : Deallocating s.word) (ht : s.pc t = .idle) (he : (loops turn may flags).exec s as = some s') :
    Deallocating s'.word ∧
      (returns s'.history).countP (fun e => e.1 == t && gotReference e) =
        (returns s.history).countP (fun e => e.1 == t && gotReference e) := by
  obtain ⟨bs, acts', hb⟩ := exec_observed [] he
  have hstart : Deallocating (observed turn s []).word ∧
      (observed turn s []).phase t ≠ .answered .incrNotDeallocating (.truth true) ∧
      (returns (observed turn s []).history).countP (fun e => e.1 == t && gotReference e) =
        (returns s.history).countP (fun e => e.1 == t && gotReference e) :=
    ⟨hd, by simp [observed, ht, view], rfl⟩
  have hend := System.exec_invariant
    (fun _ _ _ hi hs => refused_step hi (fires_of_step hs)) hstart hb
  exact ⟨hend.1, hend.2.2⟩

theorem no_reference_after_mark_releases :
    ∃ s s', Deallocating s.word ∧ s.pc true = .idle ∧
      (loops turn (fun _ (_ : Bool) _ => true) (blockNeedsFree ||| 4)).exec s
        [.call true .incrNotDeallocating, .read true, .decide true, .finish true] = some s' ∧
      Deallocating s'.word ∧
        (returns s'.history).countP (fun e => e.1 == true && gotReference e) =
          (returns s.history).countP (fun e => e.1 == true && gotReference e) := by
  let S := loops turn (fun _ (_ : Bool) _ => true) (blockNeedsFree ||| 4)
  obtain ⟨s, _, hp⟩ := System.exists_of_exec (show (S.exec S.initial releases).any
    (fun s => decide (Deallocating s.word) && (s.pc true == .idle &&
      (S.exec s [.call true .incrNotDeallocating, .read true, .decide true, .finish true]).isSome)) = true
    by decide)
  simp only [Bool.and_eq_true, decide_eq_true_eq, beq_iff_eq, Option.isSome_iff_exists] at hp
  obtain ⟨hd, hidle, s', he⟩ := hp
  exact ⟨s, s', hd, hidle, he, no_reference_after_mark hd hidle he⟩

/-- A block whose count has reached the mask keeps its flags word for ever. -/
theorem latched_forever {may : List (Event τ Call Reply) → τ → Call → Bool} {flags : Word}
    {s s' : Loops Word τ Call Reply} {as : List (LoopAction τ Call)} (hl : Latched s.word)
    (he : (loops turn may flags).exec s as = some s') : s'.word = s.word := by
  obtain ⟨bs, acts', hb⟩ := exec_observed [] he
  refine System.exec_invariant (I := fun a => a.word = s.word) ?_ (s := observed turn s []) rfl hb
  intro a b a' hi hs
  cases fires_of_step hs with
  | call _ _ _ _ => exact hi
  | finish _ _ _ _ => exact hi
  | act u call _ =>
    have heffect := apply_effect call a.word
    rw [← hi] at hl
    change (apply call a.word).1 = s.word
    generalize (apply call a.word).1 = w' at heffect ⊢
    generalize (apply call a.word).2 = reply at heffect
    cases heffect with
    | incr _ hl' _ _ _ => exact absurd hl hl'
    | retained _ _ hl' _ _ _ => exact absurd hl hl'
    | last _ hone _ _ _ _ =>
      rw [Latched, hone] at hl
      exact absurd hl (by decide)
    | decr _ hl' _ _ _ _ => exact absurd hl hl'
    | latchedIncr _ | refused _ | latchedRetain _ _ | latchedDecr _ | underflow _ => exact hi

theorem latched_forever_releases : ∃ s',
    (loops turn (fun _ (_ : Bool) _ => true) (blockNeedsFree ||| blockRefcountMask)).exec
      ⟨blockNeedsFree ||| blockRefcountMask, fun _ => .idle, []⟩
      [.call true .decrShouldDeallocate, .read true, .decide true, .finish true] = some s' ∧
    s'.word = blockNeedsFree ||| blockRefcountMask := by
  let S := loops turn (fun _ (_ : Bool) _ => true) (blockNeedsFree ||| blockRefcountMask)
  obtain ⟨s', he⟩ := Option.isSome_iff_exists.mp (show (S.exec
    ⟨blockNeedsFree ||| blockRefcountMask, fun _ => .idle, []⟩
    [.call true .decrShouldDeallocate, .read true, .decide true, .finish true]).isSome = true by decide)
  exact ⟨s', he, latched_forever (by decide) he⟩

/-- The references clients hold: one that retains lends the call one for its
time, one that releases gives one up when it calls. -/
def held (n : Nat) : List (Event τ Call Reply) → Nat
  | [] => n
  | .called _ .incr :: history => held n history - 1
  | .called _ .decrShouldDeallocate :: history => held n history - 1
  | .called _ .incrNotDeallocating :: history => held n history
  | .returned _ .incr _ :: history => held n history + 2
  | .returned _ .incrNotDeallocating (.truth true) :: history => held n history + 1
  | .returned _ _ _ :: history => held n history

/-- To retain or release one has to hold a reference. -/
def mayCall (n : Nat) (history : List (Event τ Call Reply)) (_ : τ) : Call → Bool
  | .incrNotDeallocating => true
  | _ => decide (0 < held n history)

/-- The references that are with a thread inside a call. -/
def weight : Phase Call Reply → Nat
  | .waiting .incr => 1
  | .waiting .decrShouldDeallocate => 1
  | .answered .incr _ => 2
  | .answered .incrNotDeallocating (.truth true) => 1
  | _ => 0

/-- How a call that takes effect moves the references between the thread's call
and its answer. -/
theorem accounts_apply {w : Word} {call : Call} {n : Nat} (h : Accounts w n)
    (hw : weight (.waiting call) ≤ n) :
    ∃ n', Accounts (apply call w).1 n' ∧
      n' + weight (.waiting call) = n + weight (.answered call (apply call w).2) := by
  cases call with
  | incr =>
    simp only [weight] at hw
    exact ⟨n + 1, h.incr (h.not_deallocating hw), by simp [weight]⟩
  | decrShouldDeallocate =>
    simp only [weight] at hw
    obtain ⟨n, rfl⟩ := Nat.exists_eq_add_of_le' hw
    exact ⟨n, h.decr.1, by simp [weight]⟩
  | incrNotDeallocating =>
    cases h.incrNotDeallocating with
    | inl hrefused => exact ⟨n, by rw [hrefused.2.2]; exact h, by simp [hrefused.2.2, weight]⟩
    | inr hgot => exact ⟨n + 1, hgot.1, by simp [hgot.2.1, weight]⟩

/-- The references held outside and inside the calls are those the count counts. -/
def Balanced (n : Nat) (s : Atomic Word τ Call Reply) : Prop :=
  ∃ inside, Tally.Total (weight ∘ s.phase) inside ∧ Accounts s.word (held n s.history + inside)

theorem balanced_step {n : Nat} {s s' : Atomic Word τ Call Reply} (h : Balanced n s)
    (hs : Fires apply (mayCall n) s s') : Balanced n s' := by
  obtain ⟨inside, htotal, haccounts⟩ := h
  cases hs with
  | call t call ht hmay =>
    have hidle : (weight ∘ s.phase) t = 0 := by simp [ht, weight]
    refine ⟨inside + weight (.waiting call), ?_, ?_⟩
    · rw [Function.comp_update]
      exact htotal.update t _ (by omega)
    · have hsame : held n (.called t call :: s.history) + (inside + weight (.waiting call)) =
          held n s.history + inside := by
        cases call with
        | incr =>
          have hpos : 0 < held n s.history := by simpa [mayCall] using hmay
          simp only [held, weight]
          omega
        | incrNotDeallocating => simp [held, weight]
        | decrShouldDeallocate =>
          have hpos : 0 < held n s.history := by simpa [mayCall] using hmay
          simp only [held, weight]
          omega
      rw [hsame]
      exact haccounts
  | act t call ht =>
    have hweight : (weight ∘ s.phase) t = weight (.waiting call) := by simp [ht]
    have hle := htotal.le t
    rw [hweight] at hle
    obtain ⟨references, hacc, hmove⟩ :=
      accounts_apply haccounts (hle.trans (Nat.le_add_left _ _))
    refine ⟨references - held n s.history, ?_, ?_⟩
    · rw [Function.comp_update]
      exact htotal.update t _ (by omega)
    · have hsame : held n s.history + (references - held n s.history) = references := by omega
      change Accounts _ (held n s.history + (references - held n s.history))
      rw [hsame]
      exact hacc
  | finish t call reply ht =>
    have hweight : (weight ∘ s.phase) t = weight (.answered call reply) := by simp [ht]
    have hle := htotal.le t
    rw [hweight] at hle
    refine ⟨inside - weight (.answered call reply), ?_, ?_⟩
    · rw [Function.comp_update]
      have hidle : weight (.idle : Phase Call Reply) = 0 := rfl
      exact htotal.update t _ (by omega)
    · have hreturn : held n (.returned t call reply :: s.history) =
          held n s.history + weight (.answered call reply) := by
        cases call with
        | incr => simp [held, weight]
        | decrShouldDeallocate => simp [held, weight]
        | incrNotDeallocating =>
          cases reply with
          | value w => simp [held, weight]
          | truth b => cases b <;> simp [held, weight]
      change Accounts _ (held n (.returned t call reply :: s.history) + _)
      have hsame : held n (.returned t call reply :: s.history) +
          (inside - weight (.answered call reply)) = held n s.history + inside := by omega
      rw [hsame]
      exact haccounts

theorem reachable_balanced {flags : Word} {s : Atomic Word τ Call Reply} (hcount : refcount flags ≠ 0)
    (hfresh : ¬ Deallocating flags)
    (h : (atomic apply (mayCall (refcount flags)) flags).Reachable s) : Balanced (refcount flags) s := by
  refine h.invariant (I := Balanced (refcount flags)) ?_ ?_
  · refine ⟨0, Tally.Total.zero fun t => rfl, .inr ⟨rfl, ?_⟩⟩
    simp [atomic, held, hcount, hfresh]
  · intro s a s' hi hs
    exact balanced_step hi (fires_of_step hs)

/-- Threads that retain and release only with a reference in hand: the mark is
set when the last reference is gone, no thread is then about to touch the word
to retain or release, and a count that has latched keeps the block for ever. -/
theorem counts_references {flags : Word} {s : Loops Word τ Call Reply} (hcount : refcount flags ≠ 0)
    (hfresh : ¬ Deallocating flags)
    (h : (loops turn (mayCall (refcount flags)) flags).Reachable s) :
    (Deallocating s.word → held (refcount flags) s.history = 0 ∧
      ∀ t call, call ≠ .incrNotDeallocating → s.pc t ≠ .reading call ∧
        ∀ old new reply, s.pc t = .deciding call old → turn call old ≠ .swap new reply) ∧
    ((∀ t, s.pc t = .idle) → ¬ Latched s.word →
      refcount s.word = held (refcount flags) s.history ∧
        (Deallocating s.word ↔ held (refcount flags) s.history = 0)) := by
  obtain ⟨acts, ha⟩ := reachable_observed h
  obtain ⟨inside, htotal, haccounts⟩ := reachable_balanced hcount hfresh ha
  change Accounts s.word (held (refcount flags) s.history + inside) at haccounts
  refine ⟨fun hd => ?_, fun hidle hl => ?_⟩
  · have hnone : held (refcount flags) s.history + inside = 0 := by
      by_contra hsome
      exact haccounts.not_deallocating (Nat.pos_of_ne_zero hsome) hd
    refine ⟨by omega, fun t call hcall => ?_⟩
    have hlight : weight (view turn (s.pc t)) = 0 := by
      have hle := htotal.le t
      change weight (view turn (s.pc t)) ≤ inside at hle
      omega
    refine ⟨fun hpc => ?_, fun old new reply hpc hturn => ?_⟩
    · rw [hpc] at hlight
      cases call <;> simp_all [view, weight]
    · rw [hpc] at hlight
      cases call <;> simp_all [view, weight]
  · have hzero : inside = 0 := by
      refine htotal.unique (Tally.Total.zero fun t => ?_)
      simp [observed, hidle t, view, weight]
    subst hzero
    cases haccounts with
    | inl hlatched => exact absurd hlatched.1 hl
    | inr hexact => simpa using hexact

theorem counts_references_releases :
    ∃ s, (loops turn (mayCall (refcount (blockNeedsFree ||| 4))) (blockNeedsFree ||| 4)).Reachable s ∧
      Deallocating s.word ∧ held (refcount (blockNeedsFree ||| 4)) s.history = 0 ∧
      ∀ (t : Bool) call, call ≠ .incrNotDeallocating → s.pc t ≠ .reading call ∧
        ∀ old new reply, s.pc t = .deciding call old → turn call old ≠ .swap new reply := by
  let S := loops turn (mayCall (τ := Bool) (refcount (blockNeedsFree ||| 4))) (blockNeedsFree ||| 4)
  obtain ⟨s, hs, hp⟩ := System.exists_of_exec (show (S.exec S.initial (releases.take 8)).any
    (fun s => decide (Deallocating s.word)) = true by decide)
  have hd := of_decide_eq_true hp
  obtain ⟨hheld, hnone⟩ := (counts_references (by decide) (by decide) hs).1 hd
  exact ⟨s, hs, hd, hheld, hnone⟩

end

end BlockCount
