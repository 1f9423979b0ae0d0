import IOSStudy.TimerDeadlines

/-!
# Callouts to timers

The flag of a timer tells whether it is in a callout, so that a callout is never
entered while it is running, by a nested pass or by another loop. A timer that
does not repeat is called out to once. One that repeats, and is not set to other
dates, stays on the grid of its interval and leaves out what it missed.
-/
namespace RunLoopTimers

open Transition SortedInsertion TimerArray
open BlockQueue (kCFRunLoopCommonModes)

/-- The callouts that are running in the passes of a loop. -/
def running (calls : List DoTimers) : List (TimerRef × Nat) := calls.filterMap DoTimers.firing

/-- What happens to a timer that is not the one a step is about. -/
structure Untouched (t t' : Timer) : Prop where
  fireTSR : t'.fireTSR = t.fireTSR
  firing : t'.firing = t.firing
  repeats : t'.repeats = t.repeats
  interval : t'.interval = t.interval
  valid : t'.valid = true → t.valid = true

/-- What happens to the timers when a callout to one returns. -/
structure Returned (s s' : State) (rlt : TimerRef) (old : Nat) : Prop where
  firing : (s'.timer rlt).firing = false
  repeats : (s'.timer rlt).repeats = (s.timer rlt).repeats
  interval : (s'.timer rlt).interval = (s.timer rlt).interval
  valid : (s'.timer rlt).valid = true → (s.timer rlt).valid = true ∧ (s.timer rlt).repeats = true
  fireTSR : (s'.timer rlt).valid = true → s'.halted = false →
    old < (s.timer rlt).fireTSR ∧ (s'.timer rlt).fireTSR = (s.timer rlt).fireTSR ∨
      (s.timer rlt).fireTSR ≤ old ∧ ¬ ((s.timer rlt).interval = 0 ∧ old < llongMax) ∧
        (s'.timer rlt).fireTSR = nextFireTSR (s.timer rlt).interval s.now old
  others : ∀ t, t ≠ rlt → Untouched (s.timer t) (s'.timer t)

theorem Untouched.refl (t : Timer) : Untouched t t := ⟨rfl, rfl, rfl, rfl, id⟩

theorem Quiet.untouched {s s' : State} (h : Quiet s s') (t : TimerRef) : Untouched (s.timer t) (s'.timer t) :=
  ⟨h.fireTSR t, h.firing t, h.repeats t, h.interval t, h.valid t⟩

/-- What a step does to the callouts. -/
inductive Moves (s : State) : Action → State → Prop
  | tick (d : Nat) : s.now + d < llongMax → Moves s (.tick d) { s with now := s.now + d }
  | timerCreate (delay : Nat) (interval : Option Nat) : Moves s (.timerCreate delay interval)
      { s.updateTimer s.count (timerCreate s.now delay interval) with count := s.count + 1 }
  | quiet {a : Action} {s' : State} : Quiet s s' → Moves s a s'
  | setNextFireDate (rlt : TimerRef) (delay : Nat) : Moves s (.setNextFireDate rlt delay)
      (setFireTSR s rlt (s.now + timeIntervalToTSR delay))
  | pass {a : Action} (rl : RunLoopRef) (calls : List DoTimers) :
      running calls = running (s.calls rl) → Moves s a (s.setCalls rl calls)
  | callout {a : Action} {s' : State} (rl : RunLoopRef) (rlt : TimerRef) {calls : List DoTimers} :
      (s.timer rlt).valid = true → (s.timer rlt).fireTSR ≤ s.now → (s.timer rlt).firing = false →
      running calls = (rlt, (s.timer rlt).fireTSR) :: running (s.calls rl) →
      s'.timer = Function.update s.timer rlt { s.timer rlt with firing := true } →
      s'.calls = Function.update s.calls rl calls →
      s'.callouts = ⟨rlt, (s.timer rlt).fireTSR, s.now⟩ :: s.callouts →
      s'.now = s.now → s'.count = s.count → s'.halted = s.halted → Moves s a s'
  | returned {a : Action} {s' : State} (rl : RunLoopRef) (rlt : TimerRef) (old : Nat) {calls : List DoTimers} :
      running (s.calls rl) = (rlt, old) :: running calls →
      s'.calls = Function.update s.calls rl calls →
      s'.callouts = s.callouts → s'.now = s.now → s'.count = s.count →
      Returned s s' rlt old → Moves s a s'

section

variable {s s' : State}

theorem returned_of {s₁ : State} (hquiet : Quiet s s₁) {rlt : TimerRef} {old n : Nat}
    (hrepeats : (s₁.timer rlt).valid = true → (s.timer rlt).repeats = true)
    (htimer : s'.timer = Function.update s₁.timer rlt { s₁.timer rlt with firing := false, fireTSR := n })
    (hn : (s₁.timer rlt).valid = true → s'.halted = false →
      old < (s.timer rlt).fireTSR ∧ n = (s.timer rlt).fireTSR ∨
        (s.timer rlt).fireTSR ≤ old ∧ ¬ ((s.timer rlt).interval = 0 ∧ old < llongMax) ∧
          n = nextFireTSR (s.timer rlt).interval s.now old) : Returned s s' rlt old := by
  have hself : s'.timer rlt = { s₁.timer rlt with firing := false, fireTSR := n } := by
    rw [htimer, Function.update_self]
  refine ⟨?_, ?_, ?_, fun hvalid => ?_, fun hvalid hhalted => ?_, fun t ht => ?_⟩
  · rw [hself]
  · rw [hself]
    exact hquiet.repeats rlt
  · rw [hself]
    exact hquiet.interval rlt
  · rw [hself] at hvalid
    exact ⟨hquiet.valid rlt hvalid, hrepeats hvalid⟩
  · rw [hself] at hvalid ⊢
    exact hn hvalid hhalted
  · rw [htimer, Function.update_of_ne ht]
    exact hquiet.untouched t

theorem endDoTimer_moves (h : Consistent s) {rl : RunLoopRef} {rlm : String} {due : List TimerRef} {rlt : TimerRef}
    {old : Nat} {calls : List DoTimers} (hcalls : s.calls rl = ⟨rlm, due, some (rlt, old)⟩ :: calls) (a : Action) :
    Moves s a (endDoTimer s rl ⟨rlm, due, some (rlt, old)⟩ calls rlt old) := by
  have hs : Quiet s (if (s.timer rlt).repeats then s else invalidate s rlt) ∧
      (((if (s.timer rlt).repeats then s else invalidate s rlt).timer rlt).valid = true →
        (s.timer rlt).repeats = true) := by
    split
    · next hrepeats => exact ⟨.refl s, fun _ => hrepeats⟩
    · refine ⟨invalidate_quiet h.scheduled rlt, fun hvalid => ?_⟩
      rw [(invalidate_gone h.scheduled h.valid rlt).1] at hvalid
      cases hvalid
  have hunset := unsetFiring_consistent h rl ⟨rlm, due, some (rlt, old)⟩ calls rlt
  have hrunning : running (s.calls rl) = (rlt, old) :: running (⟨rlm, due, none⟩ :: calls) := by
    rw [hcalls]
    rfl
  rw [endDoTimer]
  rw [unsetFiring] at hunset ⊢
  generalize (if (s.timer rlt).repeats then s else invalidate s rlt) = s₁ at hs hunset
  obtain ⟨hquiet, hrepeats⟩ := hs
  have hcalls₁ := hquiet.calls
  have hfire := hquiet.fireTSR rlt
  have hinterval := hquiet.interval rlt
  generalize hs₂ : (s₁.updateTimer rlt { s₁.timer rlt with firing := false }).setCalls rl
    (⟨rlm, due, none⟩ :: calls) = s₂ at hunset
  have htimer₂ : s₂.timer = Function.update s₁.timer rlt
      { s₁.timer rlt with firing := false, fireTSR := (s₁.timer rlt).fireTSR } := by
    rw [← hs₂]
    rfl
  have hself₂ : s₂.timer rlt = { s₁.timer rlt with firing := false } := by rw [htimer₂, Function.update_self]
  have hcalls₂ : s₂.calls = Function.update s.calls rl (⟨rlm, due, none⟩ :: calls) := by
    rw [← hs₂, ← hcalls₁]
    rfl
  have hcallouts₂ : s₂.callouts = s.callouts := by rw [← hs₂]; exact hquiet.callouts
  have hnow₂ : s₂.now = s.now := by rw [← hs₂]; exact hquiet.now
  have hcount₂ : s₂.count = s.count := by rw [← hs₂]; exact hquiet.count
  split
  · next hvalid =>
    split
    · next hlater =>
      rw [hself₂] at hlater
      refine .returned rl rlt old hrunning hcalls₂ hcallouts₂ hnow₂ hcount₂
          (returned_of hquiet hrepeats htimer₂ ?_)
      exact fun _ _ => .inl ⟨by rw [← hfire]; exact hlater, hfire⟩
    · next hearlier =>
      rw [hself₂] at hearlier
      split
      · next hzero =>
        refine .returned rl rlt old hrunning hcalls₂ hcallouts₂ hnow₂ hcount₂
          (returned_of hquiet hrepeats htimer₂ ?_)
        intro _ hhalted
        cases hhalted
      · next hinterval' =>
        rw [hself₂] at hinterval'
        have hset := setFireTSR_eq (hunset.scheduled.timers rlt) (nextFireTSR (s₂.timer rlt).interval s₂.now old)
        refine .returned rl rlt old hrunning ?_ ?_ ?_ ?_
          (returned_of (n := nextFireTSR (s₂.timer rlt).interval s₂.now old)
          hquiet hrepeats ?_ ?_)
        · rw [hset, ← hcalls₂]
        · rw [hset, ← hcallouts₂]
        · rw [hset, ← hnow₂]
        · rw [hset, ← hcount₂]
        · rw [hset, hself₂, htimer₂, Function.update_idem]
        · intro _ _
          rw [hself₂, hnow₂, ← hfire, ← hinterval]
          exact .inr ⟨Nat.le_of_not_lt hearlier, hinterval', rfl⟩
  · next hinvalid =>
    refine .returned rl rlt old hrunning hcalls₂ hcallouts₂ hnow₂ hcount₂
          (returned_of hquiet hrepeats htimer₂ ?_)
    intro hvalid
    rw [hself₂] at hinvalid
    exact absurd hvalid hinvalid

theorem moves_of_step {a : Action} (h : Consistent s) (hs : step s a = some s') : Moves s a s' := by
  cases a with
  | tick d =>
    obtain ⟨hnow, he⟩ := Option.ite_none_right_eq_some.mp hs
    cases he
    exact .tick d hnow
  | timerCreate delay interval =>
    cases hs
    exact .timerCreate delay interval
  | addTimer rl rlt modeName =>
    cases hs
    exact .quiet (addTimer_quiet h.scheduled rl rlt modeName)
  | removeTimer rl rlt modeName =>
    cases hs
    exact .quiet (removeTimer_quiet h.scheduled rl rlt modeName)
  | addCommonMode rl modeName =>
    obtain ⟨hname, he⟩ := Option.ite_none_left_eq_some.mp hs
    cases he
    exact .quiet (addCommonMode_quiet h.scheduled rl hname)
  | setNextFireDate rlt delay =>
    cases hs
    rw [setNextFireDate]
    split
    · exact .setNextFireDate rlt delay
    · exact .quiet (.refl s)
  | setTolerance rlt tolerance =>
    cases hs
    exact .quiet (quiet_updateTimer rfl rfl rfl rfl id)
  | invalidate rlt =>
    cases hs
    exact .quiet (invalidate_quiet h.scheduled rlt)
  | doTimers rl rlm =>
    obtain ⟨_, he⟩ := Option.ite_none_right_eq_some.mp hs
    cases he
    exact .pass rl _ rfl
  | doTimer rl =>
    simp only [step] at hs
    split at hs
    · next rlm rlt rest calls hcalls =>
      cases hs
      rw [beginDoTimer]
      split
      · next hdue =>
        obtain ⟨hvalid, hfire, hfiring, _⟩ := hdue
        refine .callout rl rlt hvalid hfire hfiring ?_ rfl rfl rfl rfl rfl rfl
        rw [hcalls]
        rfl
      · refine .pass rl _ ?_
        rw [hcalls]
        rfl
    · cases hs
  | returned rl =>
    simp only [step] at hs
    split at hs
    · next hcalls =>
      cases hs
      exact endDoTimer_moves h hcalls _
    · cases hs
  | finish rl =>
    simp only [step] at hs
    split at hs
    · next hcalls =>
      cases hs
      refine .pass rl _ ?_
      rw [hcalls]
      rfl
    · cases hs

/-- The flags tell the callouts that are running, and no timer is in two. -/
structure Nested (s : State) : Prop where
  firing : ∀ t, (s.timer t).firing = true ↔ ∃ rl, t ∈ (running (s.calls rl)).map Prod.fst
  nodup : ∀ rl, ((running (s.calls rl)).map Prod.fst).Nodup
  apart : ∀ rl rl' t, t ∈ (running (s.calls rl)).map Prod.fst → t ∈ (running (s.calls rl')).map Prod.fst → rl = rl'
  created : ∀ rl, ∀ t ∈ (running (s.calls rl)).map Prod.fst, t < s.count

theorem Nested.congr (h : Nested s) (hcalls : ∀ rl, running (s'.calls rl) = running (s.calls rl))
    (hfiring : ∀ t, (s'.timer t).firing = (s.timer t).firing) (hcount : s.count ≤ s'.count) : Nested s' := by
  refine ⟨fun t => ?_, fun rl => ?_, fun rl rl' t => ?_, fun rl t ht => ?_⟩
  · simp only [hfiring, hcalls]
    exact h.firing t
  · rw [hcalls]
    exact h.nodup rl
  · rw [hcalls, hcalls]
    exact h.apart rl rl' t
  · rw [hcalls] at ht
    exact Nat.lt_of_lt_of_le (h.created rl t ht) hcount

theorem running_update {calls : RunLoopRef → List DoTimers} {rl : RunLoopRef} {calls' : List DoTimers}
    (rl' : RunLoopRef) : running (Function.update calls rl calls' rl') =
      if rl' = rl then running calls' else running (calls rl') := by
  by_cases hrl : rl' = rl
  · subst hrl
    rw [Function.update_self, if_pos rfl]
  · rw [Function.update_of_ne hrl, if_neg hrl]

theorem setFireTSR_fields (h : Scheduled s) (rlt : TimerRef) (n : Nat) :
    (setFireTSR s rlt n).calls = s.calls ∧ (setFireTSR s rlt n).callouts = s.callouts ∧
      (setFireTSR s rlt n).now = s.now ∧ (setFireTSR s rlt n).count = s.count ∧
      (setFireTSR s rlt n).halted = s.halted := by
  rw [setFireTSR_eq (h.timers rlt)]
  exact ⟨rfl, rfl, rfl, rfl, rfl⟩

theorem nested_step {a : Action} (hc : Consistent s) (h : Nested s) (hs : Moves s a s') : Nested s' := by
  cases hs with
  | tick d _ => exact h.congr (fun _ => rfl) (fun _ => rfl) (Nat.le_refl _)
  | timerCreate delay interval =>
    refine h.congr (fun _ => rfl) (fun t => ?_) (Nat.le_succ _)
    simp only [State.updateTimer]
    by_cases ht : t = s.count
    · subst ht
      have hidle : ¬ (s.timer s.count).firing = true := by
        rw [h.firing]
        rintro ⟨rl, hmem⟩
        exact Nat.lt_irrefl _ (h.created rl _ hmem)
      rw [Function.update_self]
      simpa [timerCreate] using hidle
    · rw [Function.update_of_ne ht]
  | quiet hq => exact h.congr (fun _ => by rw [hq.calls]) hq.firing (Nat.le_of_eq hq.count.symm)
  | setNextFireDate rlt delay =>
    obtain ⟨hcalls, _, _, hcount, _⟩ := setFireTSR_fields hc.scheduled rlt (s.now + timeIntervalToTSR delay)
    refine h.congr (fun _ => by rw [hcalls]) (fun t => ?_) (Nat.le_of_eq hcount.symm)
    rw [setFireTSR_timer hc.scheduled]
    by_cases ht : t = rlt
    · subst ht
      rw [Function.update_self]
    · rw [Function.update_of_ne ht]
  | pass rl calls hsame =>
    refine h.congr (fun rl' => ?_) (fun _ => rfl) (Nat.le_refl _)
    simp only [State.setCalls, running_update]
    split
    · next hrl => rw [hsame, hrl]
    · rfl
  | @callout _ _ rl rlt calls hvalid _ hidle hcalls htimer hcalls' _ _ hcount _ =>
    have hnot : ∀ rl, rlt ∉ (running (s.calls rl)).map Prod.fst := by
      intro rl' hmem
      rw [(h.firing rlt).mpr ⟨rl', hmem⟩] at hidle
      cases hidle
    have hmem : ∀ rl' t, t ∈ (running (s'.calls rl')).map Prod.fst ↔
        t ∈ (running (s.calls rl')).map Prod.fst ∨ rl' = rl ∧ t = rlt := by
      intro rl' t
      rw [hcalls', running_update]
      split
      · next hrl =>
        subst hrl
        rw [hcalls, List.map_cons, List.mem_cons]
        tauto
      · next hrl => simp [hrl]
    refine ⟨fun t => ?_, fun rl' => ?_, fun rl' rl'' t => ?_, fun rl' t => ?_⟩
    · simp only [hmem]
      rw [htimer]
      by_cases ht : t = rlt
      · subst ht
        rw [Function.update_self]
        exact ⟨fun _ => ⟨rl, .inr ⟨rfl, rfl⟩⟩, fun _ => rfl⟩
      · rw [Function.update_of_ne ht, h.firing t]
        simp [ht]
    · rw [hcalls', running_update]
      split
      · next hrl =>
        subst hrl
        rw [hcalls, List.map_cons]
        exact List.nodup_cons.mpr ⟨hnot rl', h.nodup rl'⟩
      · exact h.nodup rl'
    · rw [hmem, hmem]
      rintro (hold | ⟨rfl, rfl⟩) (hold' | ⟨rfl, ht⟩)
      · exact h.apart rl' rl'' t hold hold'
      · rw [ht] at hold
        exact absurd hold (hnot rl')
      · exact absurd hold' (hnot rl'')
      · rfl
    · rw [hmem, hcount]
      rintro (hold | ⟨_, rfl⟩)
      · exact h.created rl' t hold
      · by_contra hlt
        rw [hc.fresh t (Nat.le_of_not_lt hlt)] at hvalid
        cases hvalid
  | @returned _ _ rl rlt old calls hcalls hcalls' _ _ hcount hreturned =>
    have hnodup := h.nodup rl
    rw [hcalls, List.map_cons, List.nodup_cons] at hnodup
    have hmem : ∀ rl' t, t ∈ (running (s'.calls rl')).map Prod.fst ↔
        t ∈ (running (s.calls rl')).map Prod.fst ∧ t ≠ rlt := by
      intro rl' t
      rw [hcalls', running_update]
      split
      · next hrl =>
        subst hrl
        rw [hcalls, List.map_cons, List.mem_cons]
        constructor
        · intro ht
          exact ⟨.inr ht, ne_of_mem_of_not_mem ht hnodup.1⟩
        · rintro ⟨he | ht, hne⟩
          · exact absurd he hne
          · exact ht
      · next hrl =>
        refine ⟨fun ht => ⟨ht, ?_⟩, fun ht => ht.1⟩
        rintro rfl
        refine hrl (h.apart rl' rl t ht ?_)
        rw [hcalls]
        exact List.mem_cons_self
    refine ⟨fun t => ?_, fun rl' => ?_, fun rl' rl'' t => ?_, fun rl' t => ?_⟩
    · simp only [hmem]
      by_cases ht : t = rlt
      · subst ht
        simp [hreturned.firing]
      · rw [(hreturned.others t ht).firing, h.firing t]
        simp [ht]
    · rw [hcalls', running_update]
      split
      · exact hnodup.2
      · exact h.nodup rl'
    · rw [hmem, hmem]
      exact fun ht ht' => h.apart rl' rl'' t ht.1 ht'.1
    · rw [hmem, hcount]
      exact fun ht => h.created rl' t ht.1

theorem nested_initial : Nested initial := by
  refine ⟨fun t => ?_, fun _ => List.nodup_nil, fun rl rl' t ht => ?_, fun rl t ht => ?_⟩
  · simp [initial, running]
  · cases ht
  · cases ht

theorem reachable_nested (h : timers.Reachable s) : Nested s := by
  have hinv := h.invariant (I := fun s => Consistent s ∧ Nested s) ⟨consistent_initial, nested_initial⟩
    fun _ _ _ hi hs => ⟨consistent_step hi.1 (timers_step hs).2,
      nested_step hi.1 hi.2 (moves_of_step hi.1 (timers_step hs).2)⟩
  exact hinv.2

def calloutsOf (s : State) (rlt : TimerRef) : List Callout := s.callouts.filter fun c => c.rlt == rlt

theorem mem_calloutsOf {rlt : TimerRef} {c : Callout} : c ∈ calloutsOf s rlt ↔ c ∈ s.callouts ∧ c.rlt = rlt := by
  simp [calloutsOf]

theorem calloutsOf_congr (h : s'.callouts = s.callouts) (rlt : TimerRef) :
    calloutsOf s' rlt = calloutsOf s rlt := by
  rw [calloutsOf, h]
  rfl

theorem calloutsOf_cons {c : Callout} (h : s'.callouts = c :: s.callouts) (rlt : TimerRef) :
    calloutsOf s' rlt = if c.rlt = rlt then c :: calloutsOf s rlt else calloutsOf s rlt := by
  rw [calloutsOf, h]
  split
  · next he => exact List.filter_cons_of_pos (by simpa using he)
  · next hne => exact List.filter_cons_of_neg (by simpa using hne)

/-- A timer that does not repeat was not called out to, or is in the callout, or invalid. -/
structure Once (s : State) : Prop where
  created : ∀ t, s.count ≤ t → calloutsOf s t = []
  once : ∀ t, (s.timer t).repeats = false → calloutsOf s t = [] ∨
    (calloutsOf s t).length = 1 ∧ ((s.timer t).firing = true ∨ (s.timer t).valid = false)
  due : ∀ c ∈ s.callouts, c.fireTSR ≤ c.now ∧ c.now ≤ s.now

theorem Once.congr (h : Once s) (hcallouts : s'.callouts = s.callouts) (hcount : s'.count = s.count)
    (hnow : s'.now = s.now) (htimer : ∀ t, Untouched (s.timer t) (s'.timer t) ∨
      (s.timer t).repeats = (s'.timer t).repeats ∧ ((s'.timer t).valid = true → (s.timer t).repeats = true)) :
    Once s' := by
  refine ⟨fun t ht => ?_, fun t ht => ?_, ?_⟩
  · rw [calloutsOf_congr hcallouts]
    exact h.created t (hcount ▸ ht)
  · rw [calloutsOf_congr hcallouts]
    rcases htimer t with htouch | ⟨hrepeats, hvalid⟩
    · refine (h.once t (htouch.repeats ▸ ht)).imp id fun hone => ⟨hone.1, ?_⟩
      rw [htouch.firing]
      refine hone.2.imp id fun hinvalid => ?_
      rw [← Bool.not_eq_true] at hinvalid ⊢
      exact fun hv => hinvalid (htouch.valid hv)
    · refine (h.once t (hrepeats.trans ht)).imp id fun hone => ⟨hone.1, .inr ?_⟩
      rw [← Bool.not_eq_true]
      intro hv
      rw [hrepeats, ht] at hvalid
      cases hvalid hv
  · rw [hcallouts, hnow]
    exact h.due

end

/-- The next date is in the future and a whole number of intervals after the old one. -/
theorem advance_spec {interval now : Nat} (hinterval : 0 < interval) (fuel next : Nat)
    (hfuel : now < next + fuel) :
    now < advance interval now fuel next ∧ ∃ k, advance interval now fuel next = next + k * interval := by
  induction fuel generalizing next with
  | zero => exact ⟨by simpa [advance] using hfuel, 0, by simp [advance]⟩
  | succ fuel ih =>
    rw [advance]
    split
    · obtain ⟨hlt, k, hk⟩ := ih (next + interval) (by omega)
      exact ⟨hlt, k + 1, by rw [hk, Nat.succ_mul]; omega⟩
    · next hle => exact ⟨Nat.lt_of_not_le hle, 0, by simp⟩

theorem nextFireTSR_spec (old : Nat) {interval now : Nat} (hinterval : 0 < interval) (hnow : now < llongMax) :
    now < nextFireTSR interval now old ∧
      (nextFireTSR interval now old = llongMax ∨ ∃ k, nextFireTSR interval now old = old + k * interval) := by
  rw [nextFireTSR]
  split
  · exact ⟨hnow, .inl rfl⟩
  · have hfuel : now < old + (now + 1 - old) := by omega
    obtain ⟨hlt, hgrid⟩ := advance_spec hinterval (now + 1 - old) old hfuel
    exact ⟨hlt, .inr hgrid⟩

section

variable {s s' : State} {rlt : TimerRef}

/-- The callouts to a timer whose fire date nobody sets: each is for a date on
the grid of the interval, after the callout before it. -/
structure OnGrid (s : State) (rlt : TimerRef) : Prop where
  old : ∀ rl, ∀ p ∈ running (s.calls rl), p.1 = rlt → p.2 = (s.timer rlt).fireTSR
  due : (s.timer rlt).firing = true → (s.timer rlt).fireTSR ≤ s.now
  spaced : (calloutsOf s rlt).Pairwise fun c d =>
    d.now < c.fireTSR ∧ (s.timer rlt).interval ∣ c.fireTSR - d.fireTSR
  next : s.halted = false → (s.timer rlt).valid = true ∨ (s.timer rlt).firing = true → ∀ c ∈ calloutsOf s rlt,
    (c.now < (s.timer rlt).fireTSR ∨ (s.timer rlt).firing = true ∧ c.fireTSR = (s.timer rlt).fireTSR) ∧
      ((s.timer rlt).fireTSR = llongMax ∨ (s.timer rlt).interval ∣ (s.timer rlt).fireTSR - c.fireTSR)

/-- The step is not about the timer. -/
theorem OnGrid.untouched (h : OnGrid s rlt) (ht : Untouched (s.timer rlt) (s'.timer rlt))
    (hcallouts : calloutsOf s' rlt = calloutsOf s rlt) (hnow : s.now ≤ s'.now)
    (hhalted : s'.halted = false → s.halted = false)
    (hcalls : ∀ rl, ∀ p ∈ running (s'.calls rl), p.1 = rlt → p ∈ running (s.calls rl)) : OnGrid s' rlt := by
  refine ⟨fun rl p hp hprlt => ?_, fun hf => ?_, ?_, fun hrun hlive c hmem => ?_⟩
  · rw [ht.fireTSR]
    exact h.old rl p (hcalls rl p hp hprlt) hprlt
  · rw [ht.fireTSR]
    exact (h.due (ht.firing ▸ hf)).trans hnow
  · rw [hcallouts, ht.interval]
    exact h.spaced
  · rw [hcallouts] at hmem
    rw [ht.fireTSR, ht.firing, ht.interval]
    exact h.next (hhalted hrun) (hlive.imp ht.valid fun hf => ht.firing ▸ hf) c hmem

/-- A callout to the timer begins. -/
theorem OnGrid.callout (h : OnGrid s rlt) (hnested : Nested s) (hhalted : s.halted = false)
    (hnow : s.now < llongMax) {rl : RunLoopRef} {calls : List DoTimers} (hvalid : (s.timer rlt).valid = true)
    (hfire : (s.timer rlt).fireTSR ≤ s.now) (hidle : (s.timer rlt).firing = false)
    (hrunning : running calls = (rlt, (s.timer rlt).fireTSR) :: running (s.calls rl))
    (htimer : s'.timer rlt = { s.timer rlt with firing := true })
    (hcalls : s'.calls = Function.update s.calls rl calls)
    (hcallouts : s'.callouts = ⟨rlt, (s.timer rlt).fireTSR, s.now⟩ :: s.callouts) (hnow' : s'.now = s.now) :
    OnGrid s' rlt := by
  have hlist := calloutsOf_cons hcallouts rlt
  rw [if_pos rfl] at hlist
  have hnot : ∀ rl', ∀ p ∈ running (s.calls rl'), p.1 ≠ rlt := by
    intro rl' p hp he
    rw [(hnested.firing rlt).mpr ⟨rl', List.mem_map.mpr ⟨p, hp, he⟩⟩] at hidle
    cases hidle
  have hbefore : ∀ c ∈ calloutsOf s rlt, c.now < (s.timer rlt).fireTSR ∧
      (s.timer rlt).interval ∣ (s.timer rlt).fireTSR - c.fireTSR := by
    intro c hmem
    obtain ⟨hlt, hgrid⟩ := h.next hhalted (.inl hvalid) c hmem
    rw [hidle] at hlt
    exact ⟨hlt.resolve_right (by simp), hgrid.resolve_left (by omega)⟩
  refine ⟨fun rl' p hp hprlt => ?_, fun _ => ?_, ?_, fun _ _ c hmem => ?_⟩ <;> rw [htimer]
  · rw [hcalls, running_update] at hp
    split at hp
    · rw [hrunning] at hp
      cases List.mem_cons.mp hp with
      | inl he => rw [he]
      | inr hold => exact absurd hprlt (hnot rl p hold)
    · exact absurd hprlt (hnot rl' p hp)
  · rw [hnow']
    exact hfire
  · rw [hlist]
    exact List.pairwise_cons.mpr ⟨hbefore, h.spaced⟩
  · rw [hlist] at hmem
    cases List.mem_cons.mp hmem with
    | inl he =>
      rw [he]
      exact ⟨.inr ⟨rfl, rfl⟩, .inr (by simp)⟩
    | inr hold => exact ⟨.inl (hbefore c hold).1, .inr (hbefore c hold).2⟩

/-- A callout to the timer returns. -/
theorem OnGrid.returned (h : OnGrid s rlt) (hnested : Nested s) (honce : Once s) (hhalted : s.halted = false)
    (hnow : s.now < llongMax) {rl : RunLoopRef} {old : Nat} {calls : List DoTimers}
    (hrunning : running (s.calls rl) = (rlt, old) :: running calls)
    (hcalls : s'.calls = Function.update s.calls rl calls) (hcallouts : s'.callouts = s.callouts)
    (hreturned : Returned s s' rlt old) : OnGrid s' rlt := by
  have hold : old = (s.timer rlt).fireTSR := h.old rl (rlt, old) (by rw [hrunning]; exact List.mem_cons_self) rfl
  have hfiring : (s.timer rlt).firing = true :=
    (hnested.firing rlt).mpr ⟨rl, by rw [hrunning]; exact List.mem_cons_self⟩
  have hdue := h.due hfiring
  have hlist := calloutsOf_congr hcallouts rlt
  have hafter : ∀ rl', ∀ p ∈ running (s'.calls rl'), p.1 ≠ rlt := by
    intro rl' p hp he
    have hnodup := hnested.nodup rl
    rw [hrunning, List.map_cons, List.nodup_cons] at hnodup
    rw [hcalls, running_update] at hp
    split at hp
    · exact hnodup.1 (List.mem_map.mpr ⟨p, hp, he⟩)
    · next hrl =>
      refine hrl (hnested.apart rl' rl rlt (List.mem_map.mpr ⟨p, hp, he⟩) ?_)
      rw [hrunning]
      exact List.mem_cons_self
  refine ⟨fun rl' p hp hprlt => absurd hprlt (hafter rl' p hp), fun hf => ?_, ?_, fun hrun hlive c hmem => ?_⟩
  · rw [hreturned.firing] at hf
    cases hf
  · rw [hlist, hreturned.interval]
    exact h.spaced
  · rw [hreturned.firing] at hlive ⊢
    have hvalid := hlive.resolve_right (by simp)
    rw [hlist] at hmem
    rcases hreturned.fireTSR hvalid hrun with ⟨hlater, _⟩ | ⟨_, hzero, hnext⟩
    · omega
    · have hinterval : 0 < (s.timer rlt).interval := by omega
      obtain ⟨hlt, hgrid⟩ := nextFireTSR_spec old hinterval hnow
      obtain ⟨hcfire, hcnow⟩ := honce.due c (mem_calloutsOf.mp hmem).1
      obtain ⟨hle, hbefore⟩ := h.next hhalted (.inr hfiring) c hmem
      rw [hnext, hreturned.interval]
      refine ⟨.inl (by omega), hgrid.imp id ?_⟩
      rintro ⟨k, hk⟩
      have hdvd := hbefore.resolve_left (by omega)
      rw [← hold] at hdvd hle
      rw [hk, Nat.sub_add_comm (by omega)]
      exact Nat.dvd_add hdvd (Nat.dvd_mul_left _ _)

end

/-- The flag of a timer tells whether a callout to it is running, and no timer
is in two callouts, on one loop or on two. -/
theorem not_reentered {s : State} (h : timers.Reachable s) :
    (∀ t, (s.timer t).firing = true ↔ ∃ rl, t ∈ (running (s.calls rl)).map Prod.fst) ∧
      (∀ rl, ((running (s.calls rl)).map Prod.fst).Nodup) ∧
      ∀ rl rl' t, t ∈ (running (s.calls rl)).map Prod.fst → t ∈ (running (s.calls rl')).map Prod.fst →
        rl = rl' := by
  obtain ⟨hfiring, hnodup, hapart, _⟩ := reachable_nested h
  exact ⟨hfiring, hnodup, hapart⟩

theorem not_reentered_two : ∃ s : State, timers.Reachable s ∧ running (s.calls 0) = [(1, 3)] ∧
    (s.timer 1).firing = true := by
  obtain ⟨s, hs, hp⟩ := System.exists_of_exec (show (timers.exec timers.initial (twoTimers.take 8)).any
    (fun s => running (s.calls 0) == [(1, 3)]) = true by decide)
  have hrunning : running (s.calls 0) = [(1, 3)] := by simpa using hp
  exact ⟨s, hs, hrunning, ((not_reentered hs).1 1).mpr ⟨0, by simp [hrunning]⟩⟩

end RunLoopTimers
