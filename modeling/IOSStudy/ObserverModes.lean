import Mathlib.Logic.Relation
import IOSStudy.RunLoopObservers
import IOSStudy.Tally

/-!
# Every mode has its observers in order

Whatever is added, removed or invalidated, the observers of a mode are sorted by
their order, the mask of the mode leaves none of their activities out, and an
observer counts the modes that hold it.
-/
namespace RunLoopObservers

open Transition SortedInsertion Tally
open TimerArray (RunLoopRef)
open BlockQueue (kCFRunLoopCommonModes)

/-- One change to the modes of the loops. An observer is only added to a loop
where it may be. -/
inductive Change (may : RunLoopRef → ObserverRef → Prop) (s : State) : State → Prop
  | findMode (rl : RunLoopRef) {modeName : String} (hname : modeName ≠ kCFRunLoopCommonModes) :
      Change may s (findMode s rl modeName)
  | insert {rl : RunLoopRef} {rlo : ObserverRef} {modeName : String} (hmay : may rl rlo)
      (hvalid : (s.observer rlo).valid = true) (hloop : (s.observer rlo).otherLoop rl = false)
      (hmode : modeName ∈ s.modes rl) (hnew : rlo ∉ (s.mode (rl, modeName)).observers) :
      Change may s (insertObserver s rl rlo modeName)
  | erase {rl : RunLoopRef} {rlo : ObserverRef} {modeName : String}
      (hold : rlo ∈ (s.mode (rl, modeName)).observers) : Change may s (eraseObserver s rl rlo modeName)
  | items (rl : RunLoopRef) (items : List ObserverRef) : Change may s (s.setItems rl items)
  | commonMode (rl : RunLoopRef) {modeName : String} (hname : modeName ≠ kCFRunLoopCommonModes) :
      Change may s { s with commonModes := Function.update s.commonModes rl (modeName :: s.commonModes rl) }

abbrev Changes (may : RunLoopRef → ObserverRef → Prop) : State → State → Prop :=
  Relation.ReflTransGen (Change may)

section

variable {may : RunLoopRef → ObserverRef → Prop} {s s' : State} {rlo : ObserverRef}

@[simp] theorem findMode_observer (s : State) (rl : RunLoopRef) (modeName : String) :
    (findMode s rl modeName).observer = s.observer := by
  rw [findMode]
  split <;> rfl

@[simp] theorem findMode_mode (s : State) (rl : RunLoopRef) (modeName : String) :
    (findMode s rl modeName).mode = s.mode := by
  rw [findMode]
  split <;> rfl

theorem mem_findMode (s : State) (rl : RunLoopRef) (modeName : String) :
    modeName ∈ (findMode s rl modeName).modes rl := by
  rw [findMode]
  split
  · next hmem => exact hmem
  · simp

theorem foldl_changes {α : Type*} {f : State → α → State} {l : List α}
    (hf : ∀ x ∈ l, ∀ s, Changes may s (f s x)) (s : State) : Changes may s (l.foldl f s) := by
  induction l generalizing s with
  | nil => exact .refl
  | cons x l ih =>
    obtain ⟨hx, hl⟩ := List.forall_mem_cons.mp hf
    exact (hx s).trans (ih hl (f s x))

theorem addObserverToMode_changes (s : State) {rl : RunLoopRef} {modeName : String} (hmay : may rl rlo)
    (hname : modeName ≠ kCFRunLoopCommonModes) : Changes may s (addObserverToMode s rl rlo modeName) := by
  rw [addObserverToMode]
  split
  · exact .refl
  · next hadd =>
    simp only [Bool.or_eq_true, not_or, Bool.not_eq_true, Bool.not_eq_false'] at hadd
    have hfind : Changes may s (findMode s rl modeName) := .single (.findMode rl hname)
    dsimp only
    split
    · exact hfind
    · next hnew =>
      refine hfind.tail (.insert hmay ?_ ?_ (mem_findMode s rl modeName) hnew)
      · rw [findMode_observer]
        exact hadd.1
      · rw [findMode_observer]
        exact hadd.2

theorem addObserver_changes {rl : RunLoopRef} (hnamed : kCFRunLoopCommonModes ∉ s.commonModes rl)
    (hmay : may rl rlo) (modeName : String) : Changes may s (addObserver s rl rlo modeName) := by
  rw [addObserver]
  split
  · exact .refl
  · split
    · refine .head (.items rl _) (foldl_changes (fun m hm s => ?_) _)
      exact addObserverToMode_changes s hmay (ne_of_mem_of_not_mem hm hnamed)
    · next hname => exact addObserverToMode_changes s hmay hname

theorem removeObserverFromMode_changes (s : State) (rl : RunLoopRef) (rlo : ObserverRef) (modeName : String) :
    Changes may s (removeObserverFromMode s rl rlo modeName) := by
  rw [removeObserverFromMode]
  split
  · next hold => exact .single (.erase hold)
  · exact .refl

theorem removeObserver_changes (s : State) (rl : RunLoopRef) (rlo : ObserverRef) (modeName : String) :
    Changes may s (removeObserver s rl rlo modeName) := by
  rw [removeObserver]
  split
  · split
    · exact .head (.items rl _) (foldl_changes (fun m _ s => removeObserverFromMode_changes s rl rlo m) _)
    · exact .refl
  · exact removeObserverFromMode_changes s rl rlo modeName

theorem addCommonMode_changes {rl : RunLoopRef} (hmay : ∀ o ∈ s.commonModeItems rl, may rl o) {modeName : String}
    (hname : modeName ≠ kCFRunLoopCommonModes) : Changes may s (addCommonMode s rl modeName) := by
  rw [addCommonMode]
  split
  · exact .refl
  · exact .head (.commonMode rl hname)
      (foldl_changes (fun o ho s => addObserverToMode_changes s (hmay o ho) hname) _)

theorem invalidate_changes (hvalid : (s.observer rlo).valid = true) :
    Changes may (s.updateObserver rlo { s.observer rlo with valid := false }) (invalidate s rlo) := by
  rw [invalidate, if_pos hvalid]
  dsimp only
  split
  · exact .refl
  · next rl _ =>
    exact (foldl_changes (fun m _ s => removeObserver_changes s rl rlo m) _).trans
      (removeObserver_changes _ rl rlo _)

/-- What a change to the modes leaves alone. -/
structure Quiet (may : RunLoopRef → ObserverRef → Prop) (s s' : State) : Prop where
  count : s'.count = s.count
  calls : s'.calls = s.calls
  callouts : s'.callouts = s.callouts
  order : ∀ o, (s'.observer o).order = (s.observer o).order
  activities : ∀ o, (s'.observer o).activities = (s.observer o).activities
  repeats : ∀ o, (s'.observer o).repeats = (s.observer o).repeats
  valid : ∀ o, (s'.observer o).valid = true → (s.observer o).valid = true
  firing : ∀ o, (s'.observer o).firing = (s.observer o).firing
  runLoop : ∀ o rl, (s'.observer o).runLoop = some rl → (s.observer o).runLoop = some rl ∨ may rl o

theorem Quiet.refl (s : State) : Quiet may s s :=
  ⟨rfl, rfl, rfl, fun _ => rfl, fun _ => rfl, fun _ => rfl, fun _ => id, fun _ => rfl, fun _ _ => .inl⟩

theorem Quiet.trans {s₁ s₂ s₃ : State} (h : Quiet may s₁ s₂) (h' : Quiet may s₂ s₃) : Quiet may s₁ s₃ where
  count := h'.count.trans h.count
  calls := h'.calls.trans h.calls
  callouts := h'.callouts.trans h.callouts
  order o := (h'.order o).trans (h.order o)
  activities o := (h'.activities o).trans (h.activities o)
  repeats o := (h'.repeats o).trans (h.repeats o)
  valid o ho := h.valid o (h'.valid o ho)
  firing o := (h'.firing o).trans (h.firing o)
  runLoop o rl ho := (h'.runLoop o rl ho).elim (h.runLoop o rl) .inr

theorem quiet_updateObserver {t : Observer} (horder : t.order = (s.observer rlo).order)
    (hactivities : t.activities = (s.observer rlo).activities)
    (hrepeats : t.repeats = (s.observer rlo).repeats) (hvalid : t.valid = true → (s.observer rlo).valid = true)
    (hfiring : t.firing = (s.observer rlo).firing)
    (hloop : ∀ rl, t.runLoop = some rl → (s.observer rlo).runLoop = some rl ∨ may rl rlo) :
    Quiet may s (s.updateObserver rlo t) := by
  refine ⟨rfl, rfl, rfl, ?_, ?_, ?_, ?_, ?_, ?_⟩ <;> intro o <;> by_cases ho : o = rlo <;>
    simp only [State.updateObserver, ho, Function.update_self, ne_eq, not_false_eq_true, Function.update_of_ne]
  · exact horder
  · exact hactivities
  · exact hrepeats
  · exact hvalid
  · exact id
  · exact hfiring
  · exact hloop
  · exact fun _ => .inl

theorem change_quiet (h : Change may s s') : Quiet may s s' := by
  cases h with
  | findMode rl _ =>
    rw [findMode]
    split
    · exact .refl s
    · exact ⟨rfl, rfl, rfl, fun _ => rfl, fun _ => rfl, fun _ => rfl, fun _ => id, fun _ => rfl, fun _ _ => .inl⟩
  | @insert rl rlo modeName hmay _ _ _ _ =>
    have hq : Quiet may s (s.updateObserver rlo ((s.observer rlo).schedule rl)) := by
      refine quiet_updateObserver rfl rfl rfl id rfl fun rl' hrl => ?_
      rw [Observer.schedule] at hrl
      dsimp only at hrl
      split at hrl
      · cases hrl
        exact .inr hmay
      · exact .inl hrl
    exact ⟨hq.count, hq.calls, hq.callouts, hq.order, hq.activities, hq.repeats, hq.valid, hq.firing, hq.runLoop⟩
  | @erase rl rlo modeName _ =>
    have hq : Quiet may s (s.updateObserver rlo (s.observer rlo).cancel) := by
      refine quiet_updateObserver rfl rfl rfl id rfl fun rl' hrl => ?_
      rw [Observer.cancel] at hrl
      dsimp only at hrl
      split at hrl
      · cases hrl
      · exact .inl hrl
    exact ⟨hq.count, hq.calls, hq.callouts, hq.order, hq.activities, hq.repeats, hq.valid, hq.firing, hq.runLoop⟩
  | items _ _ =>
    exact ⟨rfl, rfl, rfl, fun _ => rfl, fun _ => rfl, fun _ => rfl, fun _ => id, fun _ => rfl, fun _ _ => .inl⟩
  | commonMode _ _ =>
    exact ⟨rfl, rfl, rfl, fun _ => rfl, fun _ => rfl, fun _ => rfl, fun _ => id, fun _ => rfl, fun _ _ => .inl⟩

theorem Changes.quiet (h : Changes may s s') : Quiet may s s' := by
  induction h with
  | refl => exact .refl s
  | tail _ hc ih => exact ih.trans (change_quiet hc)

theorem invalidate_quiet (s : State) (rlo : ObserverRef) : Quiet (fun _ _ => False) s (invalidate s rlo) := by
  by_cases hvalid : (s.observer rlo).valid = true
  · have hflag : Quiet (fun _ _ => False) s (s.updateObserver rlo { s.observer rlo with valid := false }) :=
      quiet_updateObserver rfl rfl rfl nofun rfl fun _ => .inl
    exact hflag.trans (invalidate_changes hvalid).quiet
  · rw [invalidate, if_neg hvalid]
    exact .refl s

end

/-- 1 for each mode that holds the observer. -/
def holding (s : State) (o : ObserverRef) (key : RunLoopRef × String) : Nat :=
  if o ∈ (s.mode key).observers then 1 else 0

/-- What holds of the modes and their observers between any two changes. -/
structure Registered (s : State) : Prop where
  member : ∀ key, ∀ o ∈ (s.mode key).observers, (s.observer o).runLoop = some key.1 ∧ key.2 ∈ s.modes key.1
  nodup : ∀ key, (s.mode key).observers.Nodup
  sorted : ∀ key, Sorted (fun o => (s.observer o).order) (s.mode key).observers
  mask : ∀ key, ∀ o ∈ (s.mode key).observers,
    (s.observer o).activities &&& (s.mode key).observerMask = (s.observer o).activities
  loop : ∀ o, (s.observer o).runLoop = none ↔ (s.observer o).rlCount = 0
  total : ∀ o, Total (holding s o) (s.observer o).rlCount
  named : ∀ rl, kCFRunLoopCommonModes ∉ s.commonModes rl ∧ kCFRunLoopCommonModes ∉ s.modes rl

section

variable {may : RunLoopRef → ObserverRef → Prop} {s s' : State} {rlo : ObserverRef}

theorem mem_updateMode {key key' : RunLoopRef × String} {x : Mode} {o : ObserverRef} :
    o ∈ (Function.update s.mode key x key').observers ↔
      if key' = key then o ∈ x.observers else o ∈ (s.mode key').observers := by
  by_cases hk : key' = key
  · subst hk
    rw [Function.update_self, if_pos rfl]
  · rw [Function.update_of_ne hk, if_neg hk]

/-- A mode gains or loses an observer. -/
theorem Registered.change (h : Registered s) {key : RunLoopRef × String} {x : Mode} {t : Observer}
    (horder : t.order = (s.observer rlo).order) (hactivities : t.activities = (s.observer rlo).activities)
    (hmem : ∀ o, o ≠ rlo → (o ∈ x.observers ↔ o ∈ (s.mode key).observers)) (hnodup : x.observers.Nodup)
    (hsorted : Sorted (fun o => (s.observer o).order) x.observers)
    (hmask : ∀ o ∈ x.observers, (s.observer o).activities &&& x.observerMask = (s.observer o).activities)
    (hloop : t.runLoop = none ↔ t.rlCount = 0)
    (htotal : Total (Function.update (holding s rlo) key (if rlo ∈ x.observers then 1 else 0)) t.rlCount)
    (hmember : ∀ key', (if key' = key then rlo ∈ x.observers else rlo ∈ (s.mode key').observers) →
      t.runLoop = some key'.1 ∧ key'.2 ∈ s.modes key'.1) :
    Registered ((s.updateMode key x).updateObserver rlo t) := by
  have hstill : ∀ o, (Function.update s.observer rlo t o).order = (s.observer o).order ∧
      (Function.update s.observer rlo t o).activities = (s.observer o).activities := by
    intro o
    by_cases ho : o = rlo
    · subst ho
      rw [Function.update_self]
      exact ⟨horder, hactivities⟩
    · rw [Function.update_of_ne ho]
      exact ⟨rfl, rfl⟩
  refine ⟨fun key' o ho => ?_, fun key' => ?_, fun key' => ?_, fun key' o ho => ?_, fun o => ?_, fun o => ?_,
    h.named⟩ <;> simp only [State.updateMode, State.updateObserver] at *
  · rw [mem_updateMode] at ho
    by_cases horlo : o = rlo
    · subst horlo
      rw [Function.update_self]
      exact hmember key' ho
    · rw [Function.update_of_ne horlo]
      split at ho
      · next hk =>
        rw [hk]
        exact h.member key o ((hmem o horlo).mp ho)
      · exact h.member key' o ho
  · by_cases hk : key' = key
    · rw [hk, Function.update_self]
      exact hnodup
    · rw [Function.update_of_ne hk]
      exact h.nodup key'
  · refine Sorted.congr ?_ fun o _ => (hstill o).1
    by_cases hk : key' = key
    · rw [hk, Function.update_self]
      exact hsorted
    · rw [Function.update_of_ne hk]
      exact h.sorted key'
  · rw [(hstill o).2]
    by_cases hk : key' = key
    · rw [hk, Function.update_self] at ho ⊢
      exact hmask o ho
    · rw [Function.update_of_ne hk] at ho ⊢
      exact h.mask key' o ho
  · by_cases ho : o = rlo
    · subst ho
      rw [Function.update_self]
      exact hloop
    · rw [Function.update_of_ne ho]
      exact h.loop o
  · by_cases ho : o = rlo
    · subst ho
      rw [Function.update_self]
      convert htotal using 1
      funext key'
      simp only [holding, Function.update_apply]
      split <;> rfl
    · rw [Function.update_of_ne ho]
      convert h.total o using 1
      funext key'
      simp only [holding, mem_updateMode, hmem o ho]
      split
      · next hk => rw [hk]
      · rfl

theorem runLoop_schedule (h : Registered s) {rl : RunLoopRef} (hloop : (s.observer rlo).otherLoop rl = false) :
    ((s.observer rlo).schedule rl).runLoop = some rl := by
  rw [Observer.schedule]
  dsimp only
  split
  · rfl
  · next hcount =>
    cases hrl : (s.observer rlo).runLoop with
    | none => exact absurd ((h.loop rlo).mp hrl) hcount
    | some rl' => simpa [Observer.otherLoop, hrl] using hloop

theorem insertObserver_eq (h : Registered s) (rl : RunLoopRef) (rlo : ObserverRef) (modeName : String) :
    insertObserver s rl rlo modeName = (s.updateMode (rl, modeName)
      ⟨insertSorted (fun o => (s.observer o).order) rlo (s.mode (rl, modeName)).observers,
        (s.mode (rl, modeName)).observerMask ||| (s.observer rlo).activities⟩).updateObserver rlo
          ((s.observer rlo).schedule rl) := by
  have hidx := ((h.sorted (rl, modeName)).boundary (s.observer rlo).order).searchBack
  rw [insertObserver, hidx, insertIdx_takeWhile, insertSorted_eq]

theorem and_or_of_and {a b m : Activity} (h : a &&& m = a ∨ a = b) : a &&& (m ||| b) = a := by
  ext i hi
  rw [BitVec.getElem_and, BitVec.getElem_or]
  cases h with
  | inl hand =>
    have hbit : (a &&& m)[i] = a[i] := by rw [hand]
    rw [BitVec.getElem_and] at hbit
    grind
  | inr he =>
    subst he
    grind

theorem Registered.insert (h : Registered s) {rl : RunLoopRef} {modeName : String}
    (hloop : (s.observer rlo).otherLoop rl = false) (hmode : modeName ∈ s.modes rl)
    (hnew : rlo ∉ (s.mode (rl, modeName)).observers) : Registered (insertObserver s rl rlo modeName) := by
  have hrl := runLoop_schedule h hloop
  have hon : ∀ key, rlo ∈ (s.mode key).observers → rl = key.1 := by
    intro key hkey
    rw [Observer.otherLoop, (h.member key rlo hkey).1] at hloop
    have hsame : key.1 = rl := by simpa using hloop
    exact hsame.symm
  rw [insertObserver_eq h]
  refine h.change rfl rfl (fun o ho => ?_) ?_ ((h.sorted _).insertSorted rlo) (fun o ho => ?_) ?_ ?_ ?_
  · rw [mem_insertSorted, or_iff_right ho]
  · exact (insertSorted_perm rlo _).nodup_iff.mpr (List.nodup_cons.mpr ⟨hnew, h.nodup _⟩)
  · cases mem_insertSorted.mp ho with
    | inl he =>
      rw [he]
      exact and_or_of_and (.inr rfl)
    | inr hold => exact and_or_of_and (.inl (h.mask _ o hold))
  · rw [hrl]
    simp [Observer.schedule]
  · refine (h.total rlo).update _ _ ?_
    simp [holding, hnew, mem_insertSorted, Observer.schedule]
  · intro key' hkey'
    rw [hrl]
    split at hkey'
    · next hk =>
      rw [hk]
      exact ⟨rfl, hmode⟩
    · exact ⟨by rw [hon key' hkey'], (h.member key' rlo hkey').2⟩

theorem Registered.erase (h : Registered s) {rl : RunLoopRef} {modeName : String}
    (hold : rlo ∈ (s.mode (rl, modeName)).observers) : Registered (eraseObserver s rl rlo modeName) := by
  have hnodup := h.nodup (rl, modeName)
  have htotal : Total (Function.update (holding s rlo) (rl, modeName) 0) ((s.observer rlo).rlCount - 1) := by
    have hone := (h.total rlo).le (rl, modeName)
    refine (h.total rlo).update _ _ ?_
    simp only [holding, if_pos hold] at hone ⊢
    omega
  rw [eraseObserver]
  refine h.change rfl rfl (fun o ho => ?_) (hnodup.erase rlo) ((h.sorted _).erase rlo) (fun o ho => ?_) ?_ ?_ ?_
  · exact List.mem_erase_of_ne ho
  · exact h.mask _ o (List.mem_of_mem_erase ho)
  · rw [Observer.cancel]
    dsimp only
    split
    · next hnone => simp [hnone]
    · next hsome =>
      rw [(h.member _ rlo hold).1]
      simp [hsome]
  · rw [if_neg hnodup.not_mem_erase]
    exact htotal
  · -- A mode that still holds the observer is counted, so that it is not the last one.
    intro key' hkey'
    have hkey : key' ≠ (rl, modeName) ∧ rlo ∈ (s.mode key').observers := by
      split at hkey'
      · exact absurd hkey' hnodup.not_mem_erase
      · next hk => exact ⟨hk, hkey'⟩
    have hone := htotal.le key'
    rw [Function.update_of_ne hkey.1, holding, if_pos hkey.2] at hone
    have hnot : (s.observer rlo).rlCount - 1 ≠ 0 := by omega
    rw [Observer.cancel]
    dsimp only
    rw [if_neg hnot]
    exact h.member key' rlo hkey.2

/-- An observer changes, but not where it is in a mode. -/
theorem Registered.retouch (h : Registered s) {t : Observer}
    (hkeep : ∀ key, rlo ∈ (s.mode key).observers →
      t.order = (s.observer rlo).order ∧ t.activities = (s.observer rlo).activities)
    (hloop : t.runLoop = (s.observer rlo).runLoop) (hcount : t.rlCount = (s.observer rlo).rlCount) :
    Registered (s.updateObserver rlo t) := by
  have hstill : ∀ key, ∀ o ∈ (s.mode key).observers,
      (Function.update s.observer rlo t o).order = (s.observer o).order ∧
        (Function.update s.observer rlo t o).activities = (s.observer o).activities := by
    intro key o hmem
    by_cases ho : o = rlo
    · subst ho
      rw [Function.update_self]
      exact hkeep key hmem
    · rw [Function.update_of_ne ho]
      exact ⟨rfl, rfl⟩
  have hscheduled : ∀ o, (Function.update s.observer rlo t o).runLoop = (s.observer o).runLoop ∧
      (Function.update s.observer rlo t o).rlCount = (s.observer o).rlCount := by
    intro o
    by_cases ho : o = rlo
    · subst ho
      rw [Function.update_self]
      exact ⟨hloop, hcount⟩
    · rw [Function.update_of_ne ho]
      exact ⟨rfl, rfl⟩
  refine ⟨fun key o ho => ?_, h.nodup, fun key => ?_, fun key o ho => ?_, fun o => ?_, fun o => ?_, h.named⟩ <;>
    simp only [State.updateObserver] at *
  · rw [(hscheduled o).1]
    exact h.member key o ho
  · exact (h.sorted key).congr fun o ho => (hstill key o ho).1
  · rw [(hstill key o ho).2]
    exact h.mask key o ho
  · rw [(hscheduled o).1, (hscheduled o).2]
    exact h.loop o
  · rw [(hscheduled o).2]
    exact h.total o

theorem registered_change (h : Registered s) (hc : Change may s s') : Registered s' := by
  cases hc with
  | @findMode rl modeName hname =>
    rw [findMode]
    split
    · exact h
    · refine ⟨fun key o ho => ?_, h.nodup, h.sorted, h.mask, h.loop, h.total, fun rl' => ⟨(h.named rl').1, ?_⟩⟩
      · obtain ⟨hloop, hmem⟩ := h.member key o ho
        refine ⟨hloop, ?_⟩
        dsimp only
        by_cases hrl : key.1 = rl
        · rw [← hrl, Function.update_self]
          exact List.mem_cons_of_mem _ hmem
        · rw [Function.update_of_ne hrl]
          exact hmem
      · dsimp only
        by_cases hrl : rl' = rl
        · subst hrl
          rw [Function.update_self, List.mem_cons, not_or]
          exact ⟨Ne.symm hname, (h.named rl').2⟩
        · rw [Function.update_of_ne hrl]
          exact (h.named rl').2
  | insert _ _ hloop hmode hnew => exact h.insert hloop hmode hnew
  | erase hold => exact h.erase hold
  | items _ _ => exact ⟨h.member, h.nodup, h.sorted, h.mask, h.loop, h.total, h.named⟩
  | @commonMode rl modeName hname =>
    refine ⟨h.member, h.nodup, h.sorted, h.mask, h.loop, h.total, fun rl' => ⟨?_, (h.named rl').2⟩⟩
    dsimp only
    by_cases hrl : rl' = rl
    · subst hrl
      rw [Function.update_self, List.mem_cons, not_or]
      exact ⟨Ne.symm hname, (h.named rl').1⟩
    · rw [Function.update_of_ne hrl]
      exact (h.named rl').1

theorem Changes.registered (hc : Changes may s s') (h : Registered s) : Registered s' := by
  induction hc with
  | refl => exact h
  | tail _ hc ih => exact registered_change ih hc

/-- Those of the observers that are not valid are in no mode. -/
def ValidModes (p : ObserverRef → Prop) (s : State) : Prop :=
  ∀ o, p o → (s.observer o).valid = false → (s.observer o).rlCount = 0

theorem change_valid {p : ObserverRef → Prop} (h : ValidModes p s) (hc : Change may s s') : ValidModes p s' := by
  cases hc with
  | findMode _ _ =>
    intro o
    rw [findMode_observer]
    exact h o
  | @insert rl rlo modeName _ hvalid _ _ _ =>
    intro o hp ho
    simp only [insertObserver, State.updateObserver] at ho ⊢
    by_cases horlo : o = rlo
    · subst horlo
      rw [Function.update_self, Observer.schedule, hvalid] at ho
      cases ho
    · rw [Function.update_of_ne horlo] at ho ⊢
      exact h o hp ho
  | @erase rl rlo modeName _ =>
    intro o hp ho
    simp only [eraseObserver, State.updateObserver] at ho ⊢
    by_cases horlo : o = rlo
    · subst horlo
      rw [Function.update_self] at ho ⊢
      have hzero := h o hp ho
      simp [Observer.cancel, hzero]
    · rw [Function.update_of_ne horlo] at ho ⊢
      exact h o hp ho
  | items _ _ => exact h
  | commonMode _ _ => exact h

theorem Changes.valid {p : ObserverRef → Prop} (hc : Changes may s s') (h : ValidModes p s) : ValidModes p s' := by
  induction hc with
  | refl => exact h
  | tail _ hc ih => exact change_valid ih hc

/-- Where nothing may be added modes only lose observers. -/
theorem change_shrinks (hc : Change (fun _ _ => False) s s') {key : RunLoopRef × String} {o : ObserverRef}
    (ho : o ∈ (s'.mode key).observers) : o ∈ (s.mode key).observers := by
  cases hc with
  | findMode _ _ => rwa [findMode_mode] at ho
  | insert hmay _ _ _ _ => exact hmay.elim
  | @erase rl rlo modeName _ =>
    simp only [eraseObserver, State.updateObserver, State.updateMode] at ho
    rw [mem_updateMode] at ho
    split at ho
    · next hk =>
      rw [hk]
      exact List.mem_of_mem_erase ho
    · exact ho
  | items _ _ => exact ho
  | commonMode _ _ => exact ho

theorem Changes.shrinks (hc : Changes (fun _ _ => False) s s') {key : RunLoopRef × String} {o : ObserverRef}
    (ho : o ∈ (s'.mode key).observers) : o ∈ (s.mode key).observers := by
  induction hc with
  | refl => exact ho
  | tail _ hc ih => exact ih (change_shrinks hc ho)

theorem removeObserver_shrinks {rl : RunLoopRef} {modeName : String} {key : RunLoopRef × String} {o : ObserverRef}
    (ho : o ∈ ((removeObserver s rl rlo modeName).mode key).observers) : o ∈ (s.mode key).observers :=
  Changes.shrinks (removeObserver_changes s rl rlo modeName) ho

theorem removeObserver_gone (h : Registered s) (rl : RunLoopRef) (rlo : ObserverRef) {modeName : String}
    (hname : modeName ≠ kCFRunLoopCommonModes) :
    rlo ∉ ((removeObserver s rl rlo modeName).mode (rl, modeName)).observers := by
  rw [removeObserver, if_neg hname, removeObserverFromMode]
  split
  · simp only [eraseObserver, State.updateObserver, State.updateMode, Function.update_self]
    exact (h.nodup (rl, modeName)).not_mem_erase
  · next hnot => exact hnot

/-- The observer is removed from several modes of its loop. -/
theorem foldl_removeObserver_gone (h : Registered s) (rl : RunLoopRef) (rlo : ObserverRef) {ms : List String}
    (hnamed : kCFRunLoopCommonModes ∉ ms) : ∀ m ∈ ms,
      rlo ∉ ((ms.foldl (fun s modeName => removeObserver s rl rlo modeName) s).mode (rl, m)).observers := by
  induction ms generalizing s with
  | nil => exact fun m hm => by cases hm
  | cons m ms ih =>
    simp only [List.mem_cons, not_or] at hnamed
    have hstep : Changes (fun _ _ => False) s (removeObserver s rl rlo m) := removeObserver_changes s rl rlo m
    rintro m' hm'
    cases List.mem_cons.mp hm' with
    | inl he =>
      subst he
      have hrest : Changes (fun _ _ => False) (removeObserver s rl rlo m') _ :=
        foldl_changes (l := ms) (fun m _ s => removeObserver_changes s rl rlo m) _
      exact fun hmem => removeObserver_gone h rl rlo (Ne.symm hnamed.1) (hrest.shrinks hmem)
    | inr hmem => exact ih (hstep.registered h) hnamed.2 m' hmem

theorem invalidate_eq {rl : RunLoopRef} (hvalid : (s.observer rlo).valid = true)
    (hloop : (s.observer rlo).runLoop = some rl) : invalidate s rlo =
      removeObserver ((s.modes rl).foldl (fun s modeName => removeObserver s rl rlo modeName)
        (s.updateObserver rlo { s.observer rlo with valid := false })) rl rlo kCFRunLoopCommonModes := by
  rw [invalidate, if_pos hvalid]
  dsimp only
  split
  · next hnone => cases hnone.symm.trans hloop
  · next rl' hsome =>
    cases hsome.symm.trans hloop
    rfl

theorem invalidate_rlCount (h : Registered s) (hvalid : (s.observer rlo).valid = true) :
    ((invalidate s rlo).observer rlo).rlCount = 0 := by
  have hchanges : Changes (fun _ _ => False) _ (invalidate s rlo) := invalidate_changes hvalid
  have h₀ : Registered (s.updateObserver rlo { s.observer rlo with valid := false }) :=
    h.retouch (fun _ _ => ⟨rfl, rfl⟩) rfl rfl
  suffices hgone : ∀ key, rlo ∉ ((invalidate s rlo).mode key).observers by
    refine ((hchanges.registered h₀).total rlo).unique (Total.zero fun key => ?_)
    exact if_neg (hgone key)
  intro key hkey
  obtain ⟨hloop, hname⟩ := h.member key rlo (hchanges.shrinks hkey)
  rw [invalidate_eq hvalid hloop] at hkey
  exact foldl_removeObserver_gone h₀ key.1 rlo (h.named key.1).2 key.2 hname (removeObserver_shrinks hkey)

/-- What holds between any two steps. -/
structure Consistent (s : State) : Prop where
  registered : Registered s
  valid : ValidModes (fun _ => True) s
  fresh : ∀ o, s.count ≤ o → (s.observer o).valid = false

theorem Consistent.member_valid (h : Consistent s) {key : RunLoopRef × String} {o : ObserverRef}
    (ho : o ∈ (s.mode key).observers) : (s.observer o).valid = true := by
  by_contra hinvalid
  have hzero := h.valid o trivial (by simpa using hinvalid)
  have hone := (h.registered.total o).le key
  rw [holding, if_pos ho] at hone
  omega

theorem Consistent.member_count (h : Consistent s) {key : RunLoopRef × String} {o : ObserverRef}
    (ho : o ∈ (s.mode key).observers) : o < s.count := by
  by_contra hlarge
  have hinvalid := h.fresh o (Nat.le_of_not_lt hlarge)
  rw [h.member_valid ho] at hinvalid
  cases hinvalid

theorem Quiet.fresh (hq : Quiet may s s') (h : ∀ o, s.count ≤ o → (s.observer o).valid = false) :
    ∀ o, s'.count ≤ o → (s'.observer o).valid = false := by
  intro o ho
  rw [hq.count] at ho
  by_contra hvalid
  have hold := hq.valid o (by simpa using hvalid)
  rw [h o ho] at hold
  cases hold

theorem Changes.consistent (hc : Changes may s s') (h : Consistent s) : Consistent s' :=
  ⟨hc.registered h.registered, hc.valid h.valid, hc.quiet.fresh h.fresh⟩

theorem Consistent.setFiring (h : Consistent s) (rlo : ObserverRef) (firing : Bool) :
    Consistent (s.updateObserver rlo { s.observer rlo with firing := firing }) := by
  refine ⟨h.registered.retouch (fun _ _ => ⟨rfl, rfl⟩) rfl rfl, fun o _ ho => ?_, fun o ho => ?_⟩ <;>
    by_cases horlo : o = rlo
  · subst horlo
    rw [State.updateObserver_self] at ho ⊢
    exact h.valid o trivial ho
  · rw [State.updateObserver_of_ne _ _ horlo] at ho ⊢
    exact h.valid o trivial ho
  · subst horlo
    rw [State.updateObserver_self]
    exact h.fresh o ho
  · rw [State.updateObserver_of_ne _ _ horlo]
    exact h.fresh o ho

theorem Consistent.invalidate (h : Consistent s) (rlo : ObserverRef) : Consistent (invalidate s rlo) := by
  by_cases hvalid : (s.observer rlo).valid = true
  · have hchanges : Changes (fun _ _ => False) _ (RunLoopObservers.invalidate s rlo) := invalidate_changes hvalid
    have hothers : ValidModes (· ≠ rlo) (s.updateObserver rlo { s.observer rlo with valid := false }) := by
      intro o horlo ho
      rw [State.updateObserver_of_ne _ _ horlo] at ho ⊢
      exact h.valid o trivial ho
    refine ⟨hchanges.registered (h.registered.retouch (fun _ _ => ⟨rfl, rfl⟩) rfl rfl), fun o _ ho => ?_,
      (invalidate_quiet s rlo).fresh h.fresh⟩
    by_cases horlo : o = rlo
    · rw [horlo]
      exact invalidate_rlCount h.registered hvalid
    · exact hchanges.valid hothers o horlo ho
  · rw [RunLoopObservers.invalidate, if_neg hvalid]
    exact h

theorem Consistent.create (h : Consistent s) (activities : Activity) (repeats : Bool) (order : Int) :
    Consistent
      { s.updateObserver s.count (observerCreate activities repeats order) with count := s.count + 1 } := by
  have hzero : (s.observer s.count).rlCount = 0 := h.valid s.count trivial (h.fresh s.count (Nat.le_refl _))
  have hregistered : Registered (s.updateObserver s.count (observerCreate activities repeats order)) := by
    refine h.registered.retouch (fun key hkey => ?_) ((h.registered.loop s.count).mpr hzero).symm hzero.symm
    exact absurd (h.member_count hkey) (Nat.lt_irrefl _)
  refine ⟨⟨hregistered.member, hregistered.nodup, hregistered.sorted, hregistered.mask, hregistered.loop,
    hregistered.total, hregistered.named⟩, fun o _ ho => ?_, fun o ho => ?_⟩ <;> dsimp only at *
  · by_cases hnew : o = s.count
    · rw [hnew, State.updateObserver_self]
      rfl
    · rw [State.updateObserver_of_ne _ _ hnew] at ho ⊢
      exact h.valid o trivial ho
  · have hold : o ≠ s.count := by omega
    rw [State.updateObserver_of_ne _ _ hold]
    exact h.fresh o (by omega)

end

/-- The observers that an action may add, and to which loop. -/
def mayAdd (s : State) : Action → RunLoopRef → ObserverRef → Prop
  | .addObserver rl rlo _ => fun rl' o => rl' = rl ∧ o = rlo
  | .addCommonMode rl _ => fun rl' o => rl' = rl ∧ o ∈ s.commonModeItems rl
  | _ => fun _ _ => False

/-- What a step does. -/
inductive Moves (s : State) (a : Action) : State → Prop
  | create (activities : Activity) (repeats : Bool) (order : Int) : Moves s a
      { s.updateObserver s.count (observerCreate activities repeats order) with count := s.count + 1 }
  | changes {s' : State} : Changes (mayAdd s a) s s' → Moves s a s'
  | invalidate (rlo : ObserverRef) : Moves s a (invalidate s rlo)
  | collect (rl : RunLoopRef) (rlm : String) (activity : Activity) : Moves s a (beginDoObservers s rl rlm activity)
  | callout {rl : RunLoopRef} {activity : Activity} {rlo : ObserverRef} {rest : List ObserverRef}
      {calls : List DoObservers} (hcalls : s.calls rl = ⟨activity, rlo :: rest, none⟩ :: calls)
      (hvalid : (s.observer rlo).valid = true) :
      Moves s a { (s.updateObserver rlo { s.observer rlo with firing := true }).setCalls rl
        (⟨activity, rest, some rlo⟩ :: calls) with callouts := ⟨rlo, activity⟩ :: s.callouts }
  | skip {rl : RunLoopRef} {activity : Activity} {rlo : ObserverRef} {rest : List ObserverRef}
      {calls : List DoObservers} (hcalls : s.calls rl = ⟨activity, rlo :: rest, none⟩ :: calls) :
      Moves s a (s.setCalls rl (⟨activity, rest, none⟩ :: calls))
  | returned {rl : RunLoopRef} {activity : Activity} {rlo : ObserverRef} {rest : List ObserverRef}
      {calls : List DoObservers} (hcalls : s.calls rl = ⟨activity, rest, some rlo⟩ :: calls) :
      Moves s a (endDoObserver s rl activity calls rlo rest)
  | finish {rl : RunLoopRef} {activity : Activity} {calls : List DoObservers}
      (hcalls : s.calls rl = ⟨activity, [], none⟩ :: calls) : Moves s a (s.setCalls rl calls)

section

variable {s s' : State} {a : Action}

theorem moves_of_step (h : Consistent s) (hstep : observers.step s a = some s') : Moves s a s' := by
  cases a with
  | observerCreate activities repeats order =>
    cases hstep
    exact .create activities repeats order
  | findMode rl modeName =>
    obtain ⟨hname, he⟩ := Option.ite_none_left_eq_some.mp hstep
    cases he
    exact .changes (.single (.findMode rl hname))
  | addObserver rl rlo modeName =>
    cases hstep
    exact .changes (addObserver_changes (h.registered.named rl).1 ⟨rfl, rfl⟩ modeName)
  | removeObserver rl rlo modeName =>
    cases hstep
    exact .changes (removeObserver_changes s rl rlo modeName)
  | addCommonMode rl modeName =>
    obtain ⟨hname, he⟩ := Option.ite_none_left_eq_some.mp hstep
    cases he
    exact .changes (addCommonMode_changes (fun o ho => ⟨rfl, ho⟩) hname)
  | invalidate rlo =>
    cases hstep
    exact .invalidate rlo
  | doObservers rl rlm activity =>
    obtain ⟨_, he⟩ := Option.ite_none_right_eq_some.mp hstep
    cases he
    exact .collect rl rlm activity
  | doObserver rl =>
    simp only [observers, step] at hstep
    split at hstep
    · next hcalls =>
      cases hstep
      rw [beginDoObserver]
      split
      · next hvalid => exact .callout hcalls hvalid
      · exact .skip hcalls
    · cases hstep
  | returned rl =>
    simp only [observers, step] at hstep
    split at hstep
    · next hcalls =>
      cases hstep
      exact .returned hcalls
    · cases hstep
  | finish rl =>
    simp only [observers, step] at hstep
    split at hstep
    · next hcalls =>
      cases hstep
      exact .finish hcalls
    · cases hstep

/-- A step only changes the calls and callouts of a consistent state. -/
theorem Consistent.setCalls (h : Consistent s) (rl : RunLoopRef) (calls : List DoObservers)
    (callouts : List Callout) : Consistent { s.setCalls rl calls with callouts := callouts } :=
  ⟨⟨h.registered.member, h.registered.nodup, h.registered.sorted, h.registered.mask, h.registered.loop,
    h.registered.total, h.registered.named⟩, h.valid, h.fresh⟩

theorem consistent_step (h : Consistent s) (hstep : observers.step s a = some s') : Consistent s' := by
  cases moves_of_step h hstep with
  | create activities repeats order => exact h.create activities repeats order
  | changes hchanges => exact hchanges.consistent h
  | invalidate rlo => exact h.invalidate rlo
  | collect rl rlm activity => exact h.setCalls rl _ s.callouts
  | @callout rl activity rlo rest calls _ _ => exact (h.setFiring rlo true).setCalls rl _ _
  | @skip rl activity rlo rest calls _ => exact h.setCalls rl _ s.callouts
  | @returned rl activity rlo rest calls _ =>
    have hs : Consistent (if (s.observer rlo).repeats then s else invalidate s rlo) := by
      split
      · exact h
      · exact h.invalidate rlo
    rw [endDoObserver]
    exact (hs.setFiring rlo false).setCalls rl _ _
  | @finish rl _ calls _ => exact h.setCalls rl calls s.callouts

theorem consistent_initial : Consistent initial := by
  refine ⟨⟨nofun, fun _ => List.nodup_nil, fun _ => List.Pairwise.nil, nofun, fun _ => ?_,
    fun _ => Total.zero fun _ => rfl, fun _ => ?_⟩, fun _ _ _ => rfl, fun _ _ => rfl⟩
  · exact ⟨fun _ => rfl, fun _ => rfl⟩
  · have hname : kCFRunLoopCommonModes ∉ ["kCFRunLoopDefaultMode"] := by decide
    exact ⟨hname, hname⟩

/-- Two observers of the default mode, the second one comes first and is called out to. -/
def twoObservers : List Action :=
  [.observerCreate 3 true 5, .observerCreate 1 false 2, .addObserver 0 0 kCFRunLoopCommonModes,
    .addObserver 0 1 "kCFRunLoopDefaultMode", .addCommonMode 0 "tracking",
    .doObservers 0 "kCFRunLoopDefaultMode" 1, .doObserver 0]

end

end RunLoopObservers
