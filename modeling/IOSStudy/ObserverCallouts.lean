import IOSStudy.ObserverModes

/-!
# Callouts to observers

A call holds the observers that it has collected, each once and in their order.
As long as no observer is added to a loop while another one holds it, the flag of
an observer tells whether it is in a callout, so that a callout is never entered
while it is running, and one that does not repeat is called out to once.
-/
namespace RunLoopObservers

open Transition SortedInsertion
open TimerArray (RunLoopRef)

section

variable {s s' : State} {a : Action}

/-- The observer that a call is calling out to, and those that it still has collected. -/
def DoObservers.held (call : DoObservers) : List ObserverRef := call.firing.toList ++ call.collectedObservers

/-- What a step leaves alone of the observers that there are. -/
structure Kept (s s' : State) : Prop where
  count : s.count ≤ s'.count
  order : ∀ o < s.count, (s'.observer o).order = (s.observer o).order
  activities : ∀ o < s.count, (s'.observer o).activities = (s.observer o).activities

theorem Quiet.kept {may : RunLoopRef → ObserverRef → Prop} (h : Quiet may s s') : Kept s s' :=
  ⟨h.count.ge, fun o _ => h.order o, fun o _ => h.activities o⟩

theorem kept_updateObserver {rlo : ObserverRef} {t : Observer} (h : rlo < s.count →
    t.order = (s.observer rlo).order ∧ t.activities = (s.observer rlo).activities) :
    Kept s (s.updateObserver rlo t) := by
  refine ⟨Nat.le_refl _, ?_, ?_⟩ <;> intro o ho <;> by_cases horlo : o = rlo
  · rw [horlo, State.updateObserver_self]
    exact (h (horlo ▸ ho)).1
  · rw [State.updateObserver_of_ne _ _ horlo]
  · rw [horlo, State.updateObserver_self]
    exact (h (horlo ▸ ho)).2
  · rw [State.updateObserver_of_ne _ _ horlo]

theorem Kept.trans {s₁ s₂ s₃ : State} (h : Kept s₁ s₂) (h' : Kept s₂ s₃) : Kept s₁ s₃ := by
  have hlt : ∀ o < s₁.count, o < s₂.count := fun o ho => Nat.lt_of_lt_of_le ho h.count
  exact ⟨h.count.trans h'.count, fun o ho => (h'.order o (hlt o ho)).trans (h.order o ho),
    fun o ho => (h'.activities o (hlt o ho)).trans (h.activities o ho)⟩

theorem kept_setFiring (s : State) (rlo : ObserverRef) (firing : Bool) :
    Kept s (s.updateObserver rlo { s.observer rlo with firing := firing }) :=
  kept_updateObserver fun _ => ⟨rfl, rfl⟩

/-- Until the flag of the observer is reset. -/
theorem returned_quiet (s : State) (rlo : ObserverRef) :
    Quiet (fun _ _ => False) s (if (s.observer rlo).repeats then s else invalidate s rlo) := by
  split
  · exact .refl s
  · exact invalidate_quiet s rlo

theorem Moves.kept (h : Moves s a s') : Kept s s' := by
  cases h with
  | create activities repeats order =>
    have hk : Kept s (s.updateObserver s.count (observerCreate activities repeats order)) :=
      kept_updateObserver fun hlt => absurd hlt (Nat.lt_irrefl _)
    exact ⟨Nat.le_succ _, hk.order, hk.activities⟩
  | changes hchanges => exact hchanges.quiet.kept
  | invalidate rlo => exact (invalidate_quiet s rlo).kept
  | collect _ _ _ => exact ⟨Nat.le_refl _, fun _ _ => rfl, fun _ _ => rfl⟩
  | @callout rl activity rlo rest calls _ _ =>
    have hk := kept_setFiring s rlo true
    exact ⟨hk.count, hk.order, hk.activities⟩
  | skip _ => exact ⟨Nat.le_refl _, fun _ _ => rfl, fun _ _ => rfl⟩
  | @returned rl activity rlo rest calls _ =>
    have hk := (returned_quiet s rlo).kept.trans (kept_setFiring _ rlo false)
    exact ⟨hk.count, hk.order, hk.activities⟩
  | @finish rl _ calls _ => exact ⟨Nat.le_refl _, fun _ _ => rfl, fun _ _ => rfl⟩

/-- What a step does to the calls: the latest call of a loop is a new one, it
gives up an observer or not, or it is gone. -/
inductive Stack (s s' : State) : Prop
  | same (hcalls : s'.calls = s.calls)
  | push {rl : RunLoopRef} {rlm : String} {call : DoObservers}
      (hcalls : s'.calls = Function.update s.calls rl (call :: s.calls rl)) (hobserver : s'.observer = s.observer)
      (hheld : call.held.Sublist (s.mode (rl, rlm)).observers)
      (hwanted : ∀ o ∈ call.held, (s.observer o).activities &&& call.activity ≠ 0 ∧ (s.observer o).firing = false)
  | top {rl : RunLoopRef} {top : DoObservers} {calls : List DoObservers} (rest : Option DoObservers)
      (htop : s.calls rl = top :: calls) (hcalls : s'.calls = Function.update s.calls rl (rest.toList ++ calls))
      (hrest : ∀ call ∈ rest, call.activity = top.activity ∧ call.held.Sublist top.held)

theorem Moves.stack (h : Moves s a s') : Stack s s' := by
  cases h with
  | create _ _ _ => exact .same rfl
  | changes hchanges => exact .same hchanges.quiet.calls
  | invalidate rlo => exact .same (invalidate_quiet s rlo).calls
  | collect rl rlm activity =>
    refine .push rfl rfl List.filter_sublist fun o ho => ?_
    have hwanted := List.of_mem_filter ho
    simp only [Bool.and_eq_true, bne_iff_ne, Bool.not_eq_true'] at hwanted
    exact ⟨hwanted.1.1, hwanted.2⟩
  | @callout rl activity rlo rest calls hcalls _ =>
    exact .top (some ⟨activity, rest, some rlo⟩) hcalls rfl (by simp [DoObservers.held])
  | @skip rl activity rlo rest calls hcalls =>
    exact .top (some ⟨activity, rest, none⟩) hcalls rfl (by simp [DoObservers.held])
  | @returned rl activity rlo rest calls hcalls =>
    refine .top (some ⟨activity, rest, none⟩) hcalls ?_ (by simp [DoObservers.held])
    rw [← (returned_quiet s rlo).calls]
    rfl
  | finish hcalls => exact .top none hcalls rfl (by simp)

/-- A call after a step is one from before it, with an observer less or not, or a new one. -/
theorem Stack.mem (h : Stack s s') {rl : RunLoopRef} {call : DoObservers} (hcall : call ∈ s'.calls rl) :
    (∃ old ∈ s.calls rl, call.activity = old.activity ∧ call.held.Sublist old.held) ∨
      s'.observer = s.observer ∧ ∃ rlm, call.held.Sublist (s.mode (rl, rlm)).observers ∧
        ∀ o ∈ call.held, (s.observer o).activities &&& call.activity ≠ 0 := by
  cases h with
  | same hcalls => exact .inl ⟨call, hcalls ▸ hcall, rfl, .refl _⟩
  | @push rl' rlm new hcalls hobserver hheld hwanted =>
    rw [hcalls] at hcall
    by_cases hrl : rl = rl'
    · subst hrl
      rw [Function.update_self] at hcall
      cases List.mem_cons.mp hcall with
      | inl he =>
        subst he
        exact .inr ⟨hobserver, rlm, hheld, fun o ho => (hwanted o ho).1⟩
      | inr hmem => exact .inl ⟨call, hmem, rfl, .refl _⟩
    · rw [Function.update_of_ne hrl] at hcall
      exact .inl ⟨call, hcall, rfl, .refl _⟩
  | @top rl' top calls rest htop hcalls hrest =>
    left
    rw [hcalls] at hcall
    by_cases hrl : rl = rl'
    · subst hrl
      rw [Function.update_self] at hcall
      rw [htop]
      cases List.mem_append.mp hcall with
      | inl hmem => exact ⟨top, List.mem_cons_self, hrest call (Option.mem_toList.mp hmem)⟩
      | inr hmem => exact ⟨call, List.mem_cons_of_mem _ hmem, rfl, .refl _⟩
    · rw [Function.update_of_ne hrl] at hcall
      exact ⟨call, hcall, rfl, .refl _⟩

/-- What holds of the calls. -/
structure Passes (s : State) : Prop where
  sorted : ∀ rl, ∀ call ∈ s.calls rl, Sorted (fun o => (s.observer o).order) call.held
  nodup : ∀ rl, ∀ call ∈ s.calls rl, call.held.Nodup
  wanted : ∀ rl, ∀ call ∈ s.calls rl, ∀ o ∈ call.held, (s.observer o).activities &&& call.activity ≠ 0
  created : ∀ rl, ∀ call ∈ s.calls rl, ∀ o ∈ call.held, o < s.count

theorem passes_moves (hconsistent : Consistent s) (h : Passes s) (hmoves : Moves s a s') : Passes s' := by
  have hkept := hmoves.kept
  suffices hold : ∀ rl, ∀ call ∈ s'.calls rl, Sorted (fun o => (s.observer o).order) call.held ∧ call.held.Nodup ∧
      (∀ o ∈ call.held, (s.observer o).activities &&& call.activity ≠ 0) ∧ ∀ o ∈ call.held, o < s.count by
    refine ⟨fun rl call hcall => ?_, fun rl call hcall => (hold rl call hcall).2.1, fun rl call hcall o ho => ?_,
      fun rl call hcall o ho => ?_⟩ <;> obtain ⟨hsorted, _, hwanted, hcreated⟩ := hold rl call hcall
    · exact hsorted.congr fun o ho => hkept.order o (hcreated o ho)
    · rw [hkept.activities o (hcreated o ho)]
      exact hwanted o ho
    · exact Nat.lt_of_lt_of_le (hcreated o ho) hkept.count
  intro rl call hcall
  cases hmoves.stack.mem hcall with
  | inl hold =>
    obtain ⟨old, hmem, hactivity, hsub⟩ := hold
    rw [hactivity]
    exact ⟨(h.sorted rl old hmem).sublist hsub, (h.nodup rl old hmem).sublist hsub,
      fun o ho => h.wanted rl old hmem o (hsub.mem ho), fun o ho => h.created rl old hmem o (hsub.mem ho)⟩
  | inr hnew =>
    obtain ⟨-, rlm, hsub, hwanted⟩ := hnew
    have hregistered := hconsistent.registered
    exact ⟨(hregistered.sorted (rl, rlm)).sublist hsub, (hregistered.nodup (rl, rlm)).sublist hsub, hwanted,
      fun o ho => hconsistent.member_count (hsub.mem ho)⟩

theorem passes_initial : Passes initial := by
  refine ⟨?_, ?_, ?_, ?_⟩ <;> intro rl call hcall <;> exact absurd hcall List.not_mem_nil

theorem reachable_passes (h : observers.Reachable s) : Passes s := by
  refine (h.invariant (I := fun s => Consistent s ∧ Passes s) ⟨consistent_initial, passes_initial⟩ ?_).2
  intro s a s' hi hstep
  exact ⟨consistent_step hi.1 hstep, passes_moves hi.1 hi.2 (moves_of_step hi.1 hstep)⟩

/-- A call has collected each observer once, in their order, and only those that
want to know of its activity. -/
theorem collected_in_order (h : observers.Reachable s) {rl : RunLoopRef} {call : DoObservers}
    (hcall : call ∈ s.calls rl) :
    Sorted (fun o => (s.observer o).order) (call.firing.toList ++ call.collectedObservers) ∧
      (call.firing.toList ++ call.collectedObservers).Nodup ∧
      ∀ o ∈ call.firing.toList ++ call.collectedObservers, (s.observer o).activities &&& call.activity ≠ 0 := by
  have hpasses := reachable_passes h
  exact ⟨hpasses.sorted rl call hcall, hpasses.nodup rl call hcall, hpasses.wanted rl call hcall⟩

theorem collected_in_order_two : ∃ s : State, observers.Reachable s ∧ s.calls 0 = [⟨1, [0], some 1⟩] ∧
    (s.observer 1).order ≤ (s.observer 0).order := by
  obtain ⟨s, hs, hp⟩ := System.exists_of_exec (show (observers.exec observers.initial twoObservers).any
    (fun s => s.calls 0 == [⟨1, [0], some 1⟩]) = true by decide)
  have hcalls : s.calls 0 = [⟨1, [0], some 1⟩] := by simpa using hp
  have hcall : (⟨1, [0], some 1⟩ : DoObservers) ∈ s.calls 0 := by simp [hcalls]
  exact ⟨s, hs, hcalls, by simpa [Sorted] using (collected_in_order hs hcall).1⟩

end

/-- The callouts that are running in the calls of a loop. -/
def running (calls : List DoObservers) : List ObserverRef := calls.filterMap DoObservers.firing

def Holds (s : State) (rl : RunLoopRef) (o : ObserverRef) : Prop := ∃ call ∈ s.calls rl, o ∈ call.held

/-- An observer is added to no other loop than one that holds it. -/
def Stays (s : State) (a : Action) : Prop := ∀ rl rlo, mayAdd s a rl rlo → ∀ rl', Holds s rl' rlo → rl' = rl

/-- What the latest call of a loop holds is in no callout of the calls around it. -/
structure Nested (s : State) : Prop where
  firing : ∀ o, (s.observer o).firing = true ↔ ∃ rl, o ∈ running (s.calls rl)
  layered : ∀ rl, (s.calls rl).Pairwise fun new old => ∀ o ∈ old.firing, o ∉ new.held
  apart : ∀ rl rl' o, Holds s rl o → Holds s rl' o → rl = rl'
  onLoop : ∀ rl rl' o, Holds s rl o → (s.observer o).runLoop = some rl' → rl' = rl

section

variable {s s' : State} {a : Action} {rlo : ObserverRef}

theorem running_update {calls : RunLoopRef → List DoObservers} {rl : RunLoopRef} {calls' : List DoObservers}
    (rl' : RunLoopRef) : running (Function.update calls rl calls' rl') =
      if rl' = rl then running calls' else running (calls rl') := by
  by_cases hrl : rl' = rl
  · subst hrl
    rw [Function.update_self, if_pos rfl]
  · rw [Function.update_of_ne hrl, if_neg hrl]

theorem mem_running {calls : List DoObservers} {o : ObserverRef} :
    o ∈ running calls ↔ ∃ call ∈ calls, call.firing = some o := List.mem_filterMap

theorem held_of_firing {call : DoObservers} {o : ObserverRef} (h : call.firing = some o) : o ∈ call.held := by
  simp [DoObservers.held, h]

theorem holds_of_running {rl : RunLoopRef} {o : ObserverRef} (h : o ∈ running (s.calls rl)) : Holds s rl o := by
  obtain ⟨call, hmem, hfiring⟩ := mem_running.mp h
  exact ⟨call, hmem, held_of_firing hfiring⟩

/-- What the latest call of a loop holds is in a callout of that call only. -/
theorem Nested.top_only (h : Nested s) {rl : RunLoopRef} {top : DoObservers} {calls : List DoObservers}
    (htop : s.calls rl = top :: calls) {o : ObserverRef} (ho : o ∈ top.held) :
    o ∉ running calls ∧ ∀ rl', rl' ≠ rl → o ∉ running (s.calls rl') := by
  constructor
  · intro hrunning
    obtain ⟨call, hmem, hfiring⟩ := mem_running.mp hrunning
    have hlayered := h.layered rl
    rw [htop] at hlayered
    exact List.rel_of_pairwise_cons hlayered hmem o hfiring ho
  · intro rl' hrl hrunning
    refine hrl (h.apart rl' rl o (holds_of_running hrunning) ⟨top, ?_, ho⟩)
    rw [htop]
    exact List.mem_cons_self

/-- An observer that is about to be called out to is not in a callout. -/
theorem Nested.idle (h : Nested s) {rl : RunLoopRef} {activity : Activity} {rest : List ObserverRef}
    {calls : List DoObservers} (hcalls : s.calls rl = ⟨activity, rlo :: rest, none⟩ :: calls) :
    (s.observer rlo).firing = false := by
  obtain ⟨hcall, hother⟩ := h.top_only hcalls List.mem_cons_self
  by_contra hfiring
  obtain ⟨rl', hrunning⟩ := (h.firing rlo).mp (by simpa using hfiring)
  by_cases hrl : rl' = rl
  · subst hrl
    rw [hcalls] at hrunning
    exact hcall hrunning
  · exact hother rl' hrl hrunning

theorem mem_running_callout {rl : RunLoopRef} {activity : Activity} {rest : List ObserverRef}
    {calls : List DoObservers} (hcalls : s.calls rl = ⟨activity, rlo :: rest, none⟩ :: calls) {rl' : RunLoopRef}
    {o : ObserverRef} : o ∈ running (Function.update s.calls rl (⟨activity, rest, some rlo⟩ :: calls) rl') ↔
      rl' = rl ∧ o = rlo ∨ o ∈ running (s.calls rl') := by
  rw [running_update]
  split
  · next hrl =>
    subst hrl
    rw [hcalls]
    simp [running]
  · next hrl => simp [hrl]

theorem Nested.mem_running_returned (h : Nested s) {rl : RunLoopRef} {activity : Activity}
    {rest : List ObserverRef} {calls : List DoObservers}
    (hcalls : s.calls rl = ⟨activity, rest, some rlo⟩ :: calls) {rl' : RunLoopRef} {o : ObserverRef} :
    o ∈ running (Function.update s.calls rl (⟨activity, rest, none⟩ :: calls) rl') ↔
      o ≠ rlo ∧ o ∈ running (s.calls rl') := by
  obtain ⟨hcall, hother⟩ := h.top_only hcalls (held_of_firing rfl)
  rw [running_update]
  split
  · next hrl =>
    subst hrl
    rw [hcalls]
    have hne : o ∈ running calls → o ≠ rlo := fun hrunning he => hcall (he ▸ hrunning)
    simp only [running, List.filterMap_cons, List.mem_cons] at hne ⊢
    tauto
  · next hrl =>
    have hne : o ∈ running (s.calls rl') → o ≠ rlo := fun hrunning he => hother rl' hrl (he ▸ hrunning)
    tauto

theorem Stack.layered (hstack : Stack s s') (h : Nested s) (rl : RunLoopRef) :
    (s'.calls rl).Pairwise fun new old => ∀ o ∈ old.firing, o ∉ new.held := by
  cases hstack with
  | same hcalls =>
    rw [hcalls]
    exact h.layered rl
  | @push rl' rlm call hcalls _ _ hwanted =>
    rw [hcalls]
    by_cases hrl : rl = rl'
    · subst hrl
      rw [Function.update_self]
      refine List.pairwise_cons.mpr ⟨fun old hold o hfiring ho => ?_, h.layered rl⟩
      have hrunning : o ∈ running (s.calls rl) := mem_running.mpr ⟨old, hold, hfiring⟩
      have hidle := (hwanted o ho).2
      rw [(h.firing o).mpr ⟨rl, hrunning⟩] at hidle
      cases hidle
    · rw [Function.update_of_ne hrl]
      exact h.layered rl
  | @top rl' top calls rest htop hcalls hrest =>
    rw [hcalls]
    by_cases hrl : rl = rl'
    · subst hrl
      rw [Function.update_self]
      have hlayered := h.layered rl
      rw [htop] at hlayered
      obtain ⟨hnew, hold⟩ := List.pairwise_cons.mp hlayered
      cases rest with
      | none => exact hold
      | some call =>
        refine List.pairwise_cons.mpr ⟨fun old hmem o hfiring ho => ?_, hold⟩
        exact hnew old hmem o hfiring ((hrest call rfl).2.mem ho)
    · rw [Function.update_of_ne hrl]
      exact h.layered rl

/-- What a loop holds after a step it held before, or the observer is on that loop. -/
theorem Stack.holds (hstack : Stack s s') (hc : Consistent s) {rl : RunLoopRef} {o : ObserverRef}
    (ho : Holds s' rl o) :
    Holds s rl o ∨ s'.observer = s.observer ∧ (s.observer o).runLoop = some rl := by
  obtain ⟨call, hcall, hheld⟩ := ho
  cases hstack.mem hcall with
  | inl hold =>
    obtain ⟨old, hmem, _, hsub⟩ := hold
    exact .inl ⟨old, hmem, hsub.mem hheld⟩
  | inr hnew =>
    obtain ⟨hobserver, rlm, hsub, _⟩ := hnew
    exact .inr ⟨hobserver, (hc.registered.member (rl, rlm) o (hsub.mem hheld)).1⟩

theorem Stack.apart (hstack : Stack s s') (hc : Consistent s) (h : Nested s) {rl rl' : RunLoopRef}
    {o : ObserverRef} (ho : Holds s' rl o) (ho' : Holds s' rl' o) : rl = rl' := by
  rcases hstack.holds hc ho with hold | ⟨_, hloop⟩ <;> rcases hstack.holds hc ho' with hold' | ⟨_, hloop'⟩
  · exact h.apart rl rl' o hold hold'
  · exact (h.onLoop rl rl' o hold hloop').symm
  · exact h.onLoop rl' rl o hold' hloop
  · exact Option.some.inj (hloop.symm.trans hloop')

theorem setFiring_observer (s : State) (rlo : ObserverRef) (firing : Bool) (o : ObserverRef) :
    (s.updateObserver rlo { s.observer rlo with firing := firing }).observer o =
      { s.observer o with firing := if o = rlo then firing else (s.observer o).firing } := by
  by_cases ho : o = rlo
  · subst ho
    rw [State.updateObserver_self, if_pos rfl]
  · rw [State.updateObserver_of_ne _ _ ho, if_neg ho]

theorem Moves.runLoop (h : Moves s a s') {o : ObserverRef} {rl : RunLoopRef}
    (ho : (s'.observer o).runLoop = some rl) : (s.observer o).runLoop = some rl ∨ mayAdd s a rl o := by
  cases h with
  | create activities repeats order =>
    dsimp only at ho
    by_cases hnew : o = s.count
    · rw [hnew, State.updateObserver_self] at ho
      cases ho
    · rw [State.updateObserver_of_ne _ _ hnew] at ho
      exact .inl ho
  | changes hchanges => exact hchanges.quiet.runLoop o rl ho
  | invalidate rlo => exact ((invalidate_quiet s rlo).runLoop o rl ho).imp_right False.elim
  | collect _ _ _ => exact .inl ho
  | @callout rl' activity rlo rest calls _ _ =>
    dsimp only [State.setCalls] at ho
    rw [setFiring_observer] at ho
    exact .inl ho
  | skip _ => exact .inl ho
  | @returned rl' activity rlo rest calls _ =>
    rw [endDoObserver] at ho
    dsimp only [State.setCalls] at ho
    rw [setFiring_observer] at ho
    exact ((returned_quiet s rlo).runLoop o rl ho).imp_right False.elim
  | finish _ => exact .inl ho

theorem firing_step (hcreated : ∀ rl o, Holds s rl o → o < s.count) (h : Nested s) (hmoves : Moves s a s')
    (o : ObserverRef) : (s'.observer o).firing = true ↔ ∃ rl, o ∈ running (s'.calls rl) := by
  have hsame : (s'.observer o).firing = (s.observer o).firing →
      (∀ rl, running (s'.calls rl) = running (s.calls rl)) →
      ((s'.observer o).firing = true ↔ ∃ rl, o ∈ running (s'.calls rl)) := by
    intro hfiring hrunning
    rw [hfiring, h.firing o]
    simp only [hrunning]
  -- A latest call that is in no callout comes or goes, or gives up an observer.
  have hpass : ∀ {rl : RunLoopRef} {calls : List DoObservers}, running calls = running (s.calls rl) →
      ∀ rl', running (Function.update s.calls rl calls rl') = running (s.calls rl') := by
    intro rl calls hrunning rl'
    rw [running_update]
    split
    · next hrl => rw [hrl, hrunning]
    · rfl
  cases hmoves with
  | create activities repeats order =>
    refine hsame ?_ fun _ => rfl
    dsimp only
    by_cases hnew : o = s.count
    · subst hnew
      rw [State.updateObserver_self]
      by_contra hfiring
      obtain ⟨rl, hrunning⟩ := (h.firing s.count).mp (by simpa [observerCreate] using Ne.symm hfiring)
      exact Nat.lt_irrefl _ (hcreated rl s.count (holds_of_running hrunning))
    · rw [State.updateObserver_of_ne _ _ hnew]
  | changes hchanges => exact hsame (hchanges.quiet.firing o) fun rl => by rw [hchanges.quiet.calls]
  | invalidate rlo =>
    have hquiet := invalidate_quiet s rlo
    exact hsame (hquiet.firing o) fun rl => by rw [hquiet.calls]
  | collect rl rlm activity => exact hsame rfl (hpass rfl)
  | @callout rl activity rlo rest calls hcalls _ =>
    dsimp only [State.setCalls, State.updateObserver_calls]
    simp only [mem_running_callout hcalls, setFiring_observer]
    by_cases ho : o = rlo
    · simp [ho]
    · simp [ho, h.firing o]
  | @skip rl activity rlo rest calls hcalls =>
    refine hsame rfl (hpass ?_)
    rw [hcalls]
    rfl
  | @returned rl activity rlo rest calls hcalls =>
    have hquiet := returned_quiet s rlo
    rw [endDoObserver]
    dsimp only [State.setCalls, State.updateObserver_calls]
    rw [setFiring_observer, hquiet.calls]
    dsimp only
    rw [hquiet.firing o]
    simp only [h.mem_running_returned hcalls]
    by_cases ho : o = rlo
    · simp [ho]
    · simp [ho, h.firing o]
  | @finish rl activity calls hcalls =>
    refine hsame rfl (hpass ?_)
    rw [hcalls]
    rfl

theorem nested_step (hc : Consistent s) (hpasses : Passes s) (h : Nested s) (hstays : Stays s a)
    (hmoves : Moves s a s') : Nested s' := by
  have hcreated : ∀ rl o, Holds s rl o → o < s.count := by
    rintro rl o ⟨call, hmem, ho⟩
    exact hpasses.created rl call hmem o ho
  refine ⟨firing_step hcreated h hmoves, hmoves.stack.layered h, fun rl rl' o => hmoves.stack.apart hc h,
    fun rl rl' o ho hloop => ?_⟩
  cases hmoves.stack.holds hc ho with
  | inl hold =>
    cases hmoves.runLoop hloop with
    | inl hbefore => exact h.onLoop rl rl' o hold hbefore
    | inr hmay => exact (hstays rl' o hmay rl hold).symm
  | inr hnew =>
    obtain ⟨hobserver, hbefore⟩ := hnew
    rw [hobserver] at hloop
    exact Option.some.inj (hloop.symm.trans hbefore)

theorem nested_initial : Nested initial := by
  have hnone : ∀ rl o, ¬ Holds initial rl o := by
    rintro rl o ⟨call, hmem, _⟩
    exact List.not_mem_nil hmem
  refine ⟨fun o => ⟨nofun, ?_⟩, fun rl => List.Pairwise.nil, fun rl _ o ho => absurd ho (hnone rl o),
    fun rl _ o ho => absurd ho (hnone rl o)⟩
  rintro ⟨rl, hrunning⟩
  exact absurd (holds_of_running hrunning) (hnone rl o)

def calloutsOf (callouts : List Callout) (rlo : ObserverRef) : List Callout :=
  callouts.filter fun c => c.rlo == rlo

/-- An observer that does not repeat was not called out to, or is in the callout, or invalid. -/
structure Once (s : State) : Prop where
  created : ∀ c ∈ s.callouts, c.rlo < s.count
  once : ∀ o, (s.observer o).repeats = false → calloutsOf s.callouts o = [] ∨
    (calloutsOf s.callouts o).length = 1 ∧ ((s.observer o).valid = true → (s.observer o).firing = true)

theorem calloutsOf_cons (callouts : List Callout) (c : Callout) (o : ObserverRef) :
    calloutsOf (c :: callouts) o = if c.rlo = o then c :: calloutsOf callouts o else calloutsOf callouts o := by
  rw [calloutsOf]
  split
  · next he => exact List.filter_cons_of_pos (by simpa using he)
  · next hne => exact List.filter_cons_of_neg (by simpa using hne)

theorem invalidate_invalid (s : State) (rlo : ObserverRef) : ((invalidate s rlo).observer rlo).valid = false := by
  by_cases hvalid : (s.observer rlo).valid = true
  · have hchanges : Changes (fun _ _ => False) _ (invalidate s rlo) := invalidate_changes hvalid
    rw [← Bool.not_eq_true]
    intro hstill
    have hflag := hchanges.quiet.valid rlo hstill
    rw [State.updateObserver_self] at hflag
    cases hflag
  · rw [invalidate, if_neg hvalid]
    simpa using hvalid

/-- No callout begins. -/
theorem Once.congr (h : Once s) (hcallouts : s'.callouts = s.callouts) (hcount : s'.count = s.count)
    (hrepeats : ∀ o, (s'.observer o).repeats = (s.observer o).repeats)
    (hlive : ∀ o, (s.observer o).repeats = false → (s'.observer o).valid = true → (s.observer o).valid = true ∧
      ((s.observer o).firing = true → (s'.observer o).firing = true)) : Once s' := by
  refine ⟨fun c hc => ?_, fun o ho => ?_⟩
  · rw [hcallouts] at hc
    rw [hcount]
    exact h.created c hc
  · rw [hrepeats o] at ho
    rw [hcallouts]
    refine (h.once o ho).imp_right fun hone => ⟨hone.1, fun hvalid => ?_⟩
    obtain ⟨hbefore, hfiring⟩ := hlive o ho hvalid
    exact hfiring (hone.2 hbefore)

theorem Once.quiet {may : RunLoopRef → ObserverRef → Prop} (h : Once s) (hq : Quiet may s s') : Once s' :=
  h.congr hq.callouts hq.count hq.repeats fun o _ hvalid => ⟨hq.valid o hvalid, fun hf => (hq.firing o).trans hf⟩

theorem Once.callout (hc : Consistent s) (h : Once s) (hvalid : (s.observer rlo).valid = true)
    (hidle : (s.observer rlo).firing = false) (activity : Activity) (calls : RunLoopRef → List DoObservers) :
    Once { s.updateObserver rlo { s.observer rlo with firing := true } with
      calls := calls, callouts := ⟨rlo, activity⟩ :: s.callouts } := by
  refine ⟨fun c hmem => ?_, fun o ho => ?_⟩
  · cases List.mem_cons.mp hmem with
    | inl he =>
      rw [he]
      by_contra hlarge
      rw [hc.fresh rlo (Nat.le_of_not_lt hlarge)] at hvalid
      cases hvalid
    | inr hold => exact h.created c hold
  · dsimp only at ho ⊢
    rw [setFiring_observer] at ho ⊢
    dsimp only at ho ⊢
    rw [calloutsOf_cons]
    by_cases horlo : o = rlo
    · subst horlo
      rw [if_pos rfl, if_pos rfl]
      cases h.once o ho with
      | inl hnone => exact .inr ⟨by rw [hnone]; rfl, fun _ => rfl⟩
      | inr hone =>
        rw [hone.2 hvalid] at hidle
        cases hidle
    · rw [if_neg horlo, if_neg (Ne.symm horlo)]
      exact h.once o ho

theorem Once.returned (h : Once s) (rl : RunLoopRef) (activity : Activity) (calls : List DoObservers)
    (rlo : ObserverRef) (rest : List ObserverRef) : Once (endDoObserver s rl activity calls rlo rest) := by
  have hquiet := returned_quiet s rlo
  rw [endDoObserver]
  refine h.congr hquiet.callouts hquiet.count (fun o => ?_) fun o ho hvalid => ?_
  · dsimp only [State.setCalls]
    rw [setFiring_observer]
    exact hquiet.repeats o
  · dsimp only [State.setCalls] at hvalid ⊢
    rw [setFiring_observer] at hvalid ⊢
    dsimp only at hvalid ⊢
    refine ⟨hquiet.valid o hvalid, fun hfiring => ?_⟩
    by_cases horlo : o = rlo
    · -- The observer does not repeat, so it was invalidated.
      subst horlo
      rw [ho, if_neg (by decide), invalidate_invalid] at hvalid
      cases hvalid
    · rw [if_neg horlo, hquiet.firing o]
      exact hfiring

end

/-- An observer that is collected by one loop and moved to another one is in two
callouts at once. -/
example : (observers.exec observers.initial [.observerCreate 1 true 0, .addObserver 0 0 "kCFRunLoopDefaultMode",
    .doObservers 0 "kCFRunLoopDefaultMode" 1, .removeObserver 0 0 "kCFRunLoopDefaultMode",
    .addObserver 1 0 "kCFRunLoopDefaultMode", .doObservers 1 "kCFRunLoopDefaultMode" 1, .doObserver 1,
    .doObserver 0]).any (fun s => running (s.calls 0) == [0] && running (s.calls 1) == [0]) = true := by decide

end RunLoopObservers
