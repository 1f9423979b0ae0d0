import IOSStudy.TimerSchedule

/-!
# Runs of the timers

The order of the timers holds over whole runs. The deadlines do too, unless a
timer that is in several modes is set to a later date in its callout: then only
the mode it was called out in is armed after the callout.
-/
namespace RunLoopTimers

open Transition SortedInsertion TimerArray
open BlockQueue (kCFRunLoopCommonModes)

/-- What stays when timers are added, removed or invalidated. -/
structure Quiet (s s' : State) : Prop where
  now : s'.now = s.now
  count : s'.count = s.count
  calls : s'.calls = s.calls
  callouts : s'.callouts = s.callouts
  halted : s'.halted = s.halted
  fireTSR : ∀ t, (s'.timer t).fireTSR = (s.timer t).fireTSR
  firing : ∀ t, (s'.timer t).firing = (s.timer t).firing
  repeats : ∀ t, (s'.timer t).repeats = (s.timer t).repeats
  interval : ∀ t, (s'.timer t).interval = (s.timer t).interval
  valid : ∀ t, (s'.timer t).valid = true → (s.timer t).valid = true

theorem Quiet.refl (s : State) : Quiet s s :=
  ⟨rfl, rfl, rfl, rfl, rfl, fun _ => rfl, fun _ => rfl, fun _ => rfl, fun _ => rfl, fun _ => id⟩

theorem Quiet.trans {s₁ s₂ s₃ : State} (h : Quiet s₁ s₂) (h' : Quiet s₂ s₃) : Quiet s₁ s₃ where
  now := h'.now.trans h.now
  count := h'.count.trans h.count
  calls := h'.calls.trans h.calls
  callouts := h'.callouts.trans h.callouts
  halted := h'.halted.trans h.halted
  fireTSR t := (h'.fireTSR t).trans (h.fireTSR t)
  firing t := (h'.firing t).trans (h.firing t)
  repeats t := (h'.repeats t).trans (h.repeats t)
  interval t := (h'.interval t).trans (h.interval t)
  valid t ht := h.valid t (h'.valid t ht)

section

variable {s : State} {rlt : TimerRef}

theorem quiet_updateTimer {t : Timer} (hfire : t.fireTSR = (s.timer rlt).fireTSR)
    (hfiring : t.firing = (s.timer rlt).firing) (hrepeats : t.repeats = (s.timer rlt).repeats)
    (hinterval : t.interval = (s.timer rlt).interval) (hvalid : t.valid = true → (s.timer rlt).valid = true) :
    Quiet s (s.updateTimer rlt t) := by
  refine ⟨rfl, rfl, rfl, rfl, rfl, ?_, ?_, ?_, ?_, ?_⟩ <;> intro u <;> by_cases hu : u = rlt <;>
    simp only [State.updateTimer, hu, Function.update_self, ne_eq, not_false_eq_true, Function.update_of_ne]
  · exact hfire
  · exact hfiring
  · exact hrepeats
  · exact hinterval
  · exact hvalid
  · exact id

theorem quiet_setItems (s : State) (rl : RunLoopRef) (items : List TimerRef) : Quiet s (s.setItems rl items) :=
  ⟨rfl, rfl, rfl, rfl, rfl, fun _ => rfl, fun _ => rfl, fun _ => rfl, fun _ => rfl, fun _ => id⟩

theorem quiet_updateMode (s : State) (key : RunLoopRef × String) (x : Mode) : Quiet s (s.updateMode key x) :=
  ⟨rfl, rfl, rfl, rfl, rfl, fun _ => rfl, fun _ => rfl, fun _ => rfl, fun _ => rfl, fun _ => id⟩

theorem addTimerToMode_quiet (s : State) (rl : RunLoopRef) (rlt : TimerRef) (modeName : String) :
    Quiet s (addTimerToMode s rl rlt modeName) := by
  rcases addTimerToMode_cases s rl rlt modeName with hsame | ⟨_, _, _, t, ht, hadd⟩
  · rw [hsame]
    exact .refl s
  · rw [hadd]
    refine Quiet.trans (quiet_updateTimer ?_ ?_ ?_ ?_ ?_) (quiet_updateMode _ _ _) <;> rw [ht]
    exact id

theorem removeTimerFromMode_quiet (s : State) (rl : RunLoopRef) (rlt : TimerRef) (modeName : String) :
    Quiet s (removeTimerFromMode s rl rlt modeName) := by
  rcases removeTimerFromMode_cases s rl rlt modeName with ⟨_, hsame⟩ | ⟨_, t, ht, hremove⟩
  · rw [hsame]
    exact .refl s
  · rw [hremove]
    refine Quiet.trans (quiet_updateTimer ?_ ?_ ?_ ?_ ?_) (quiet_updateMode _ _ _) <;> rw [ht]
    exact id

theorem addTimer_quiet (h : Scheduled s) (rl : RunLoopRef) (rlt : TimerRef) (modeName : String) :
    Quiet s (addTimer s rl rlt modeName) :=
  (addTimer_keeps (Quiet s) h (.refl s) (fun _ _ _ hq => hq.trans (quiet_setItems _ _ _))
    (fun _ _ _ _ hq => hq.trans (addTimerToMode_quiet _ _ _ _)) rl modeName).2

theorem removeTimer_quiet (h : Scheduled s) (rl : RunLoopRef) (rlt : TimerRef) (modeName : String) :
    Quiet s (removeTimer s rl rlt modeName) :=
  (removeTimer_keeps (Quiet s) h (.refl s) (fun _ _ hq => hq.trans (quiet_setItems _ _ _))
    (fun _ _ _ _ hq => hq.trans (removeTimerFromMode_quiet _ _ _ _)) rl modeName).2

theorem addCommonMode_quiet (h : Scheduled s) (rl : RunLoopRef) {modeName : String}
    (hname : modeName ≠ kCFRunLoopCommonModes) : Quiet s (addCommonMode s rl modeName) :=
  (addCommonMode_keeps (Quiet s) h (.refl s) (fun _ _ hq => hq.trans ⟨rfl, rfl, rfl, rfl, rfl, fun _ => rfl,
    fun _ => rfl, fun _ => rfl, fun _ => rfl, fun _ => id⟩)
    (fun _ _ _ _ _ hq => hq.trans (addTimerToMode_quiet _ _ _ _)) rl hname).2

theorem invalidate_quiet (h : Scheduled s) (rlt : TimerRef) : Quiet s (invalidate s rlt) :=
  (invalidate_keeps (Quiet s) h (.refl s) (quiet_updateTimer rfl rfl rfl rfl nofun)
    (fun _ _ hq => hq.trans (quiet_setItems _ _ _))
    fun _ _ _ _ hq => hq.trans (removeTimerFromMode_quiet _ _ _ _)).2

/-- An invalid timer is in no mode. -/
def ValidModes (s : State) : Prop := ∀ t, (s.timer t).valid = false → (s.timer t).rlModes = []

theorem addTimerToMode_valid (h : ValidModes s) (rl : RunLoopRef) (rlt : TimerRef) (modeName : String) :
    ValidModes (addTimerToMode s rl rlt modeName) := by
  rcases addTimerToMode_cases s rl rlt modeName with hsame | ⟨hvalid, _, _, t, ht, hadd⟩
  · rw [hsame]
    exact h
  · rw [hadd]
    intro u hu
    simp only [State.updateMode, State.updateTimer] at hu ⊢
    by_cases hut : u = rlt
    · subst hut
      rw [Function.update_self, ht, hvalid] at hu
      cases hu
    · rw [Function.update_of_ne hut] at hu ⊢
      exact h u hu

theorem removeTimerFromMode_valid (h : ValidModes s) (rl : RunLoopRef) (rlt : TimerRef) (modeName : String) :
    ValidModes (removeTimerFromMode s rl rlt modeName) := by
  rcases removeTimerFromMode_cases s rl rlt modeName with ⟨_, hsame⟩ | ⟨_, t, ht, hremove⟩
  · rw [hsame]
    exact h
  · rw [hremove]
    intro u hu
    simp only [State.updateMode, State.updateTimer] at hu ⊢
    by_cases hut : u = rlt
    · subst hut
      rw [Function.update_self, ht] at hu ⊢
      rw [h u hu]
      rfl
    · rw [Function.update_of_ne hut] at hu ⊢
      exact h u hu

theorem removeTimerFromMode_other (s : State) (rl : RunLoopRef) (modeName : String) {u : TimerRef} (hu : u ≠ rlt) :
    (removeTimerFromMode s rl rlt modeName).timer u = s.timer u := by
  rcases removeTimerFromMode_cases s rl rlt modeName with ⟨_, hsame⟩ | ⟨_, t, _, hremove⟩
  · rw [hsame]
  · rw [hremove]
    simp [State.updateMode, State.updateTimer, hu]

/-- The timer is on the loop, if it is in a mode at all. -/
def OnLoop (rl : RunLoopRef) (t : Timer) : Prop := t.runLoop = some rl ∨ t.rlModes = []

theorem removeTimerFromMode_rlModes (h : Scheduled s) {rl : RunLoopRef} (hloop : OnLoop rl (s.timer rlt))
    (modeName : String) : OnLoop rl ((removeTimerFromMode s rl rlt modeName).timer rlt) ∧
      ((removeTimerFromMode s rl rlt modeName).timer rlt).rlModes = (s.timer rlt).rlModes.erase modeName := by
  rcases removeTimerFromMode_cases s rl rlt modeName with ⟨hnot, hsame⟩ | ⟨_, t, ht, hremove⟩
  · rw [hsame]
    refine ⟨hloop, (List.erase_of_not_mem fun hmem => ?_).symm⟩
    cases hloop with
    | inl hrl => exact hnot (((h.placed (rl, modeName)).mem rlt).mpr ⟨hrl, hmem⟩)
    | inr hempty =>
      rw [hempty] at hmem
      cases hmem
  · rw [hremove]
    simp only [State.updateMode, State.updateTimer, Function.update_self, ht, OnLoop, and_true]
    split
    · next hempty => exact .inr hempty
    · exact hloop.imp id fun hempty => by rw [hempty]; rfl

theorem removeTimer_named {modeName : String} (hname : modeName ≠ kCFRunLoopCommonModes) (s : State)
    (rl : RunLoopRef) (rlt : TimerRef) :
    removeTimer s rl rlt modeName = removeTimerFromMode s rl rlt modeName := by
  rw [removeTimer, if_neg hname]

theorem removeTimer_rlModes (h : Scheduled s) {rl : RunLoopRef} (ms : List String)
    (hloop : OnLoop rl (s.timer rlt)) (hms : ∀ m ∈ (s.timer rlt).rlModes, m ∈ ms)
    (hnamed : kCFRunLoopCommonModes ∉ ms) :
    ((ms.foldl (fun s modeName => removeTimer s rl rlt modeName) s).timer rlt).rlModes = [] := by
  induction ms generalizing s with
  | nil => exact List.eq_nil_iff_forall_not_mem.mpr fun m hm => by cases hms m hm
  | cons m ms ih =>
    simp only [List.mem_cons, not_or] at hnamed
    rw [List.foldl_cons, removeTimer_named (Ne.symm hnamed.1)]
    obtain ⟨hloop', hmodes⟩ := removeTimerFromMode_rlModes h hloop m
    refine ih (removeTimerFromMode_scheduled h rl rlt m) hloop' (fun m' hm' => ?_) hnamed.2
    rw [hmodes, (h.timers rlt).rlModes.mem_erase_iff] at hm'
    cases List.mem_cons.mp (hms m' hm'.2) with
    | inl he => exact absurd he hm'.1
    | inr hmem => exact hmem

theorem invalidate_other (h : Scheduled s) {u : TimerRef} (hu : u ≠ rlt) :
    (invalidate s rlt).timer u = s.timer u := by
  refine (invalidate_keeps (fun s' => s'.timer u = s.timer u) h rfl ?_ (fun _ _ hs => hs) ?_).2
  · simp [State.updateTimer, hu]
  · intro s' rl modeName _ hs
    rw [removeTimerFromMode_other s' rl modeName hu, hs]

theorem foldl_removeTimer (h : Scheduled s) (rl : RunLoopRef) (rlt : TimerRef) (ms : List String) :
    Scheduled (ms.foldl (fun s modeName => removeTimer s rl rlt modeName) s) ∧
      Quiet s (ms.foldl (fun s modeName => removeTimer s rl rlt modeName) s) := by
  refine List.foldlRecOn (motive := fun s' => Scheduled s' ∧ Quiet s s') _ _ ⟨h, .refl s⟩ fun s' hs m _ => ?_
  exact removeTimer_keeps (Quiet s) hs.1 hs.2 (fun _ _ hq => hq.trans (quiet_setItems _ _ _))
    (fun _ _ _ _ hq => hq.trans (removeTimerFromMode_quiet _ _ _ _)) rl m

/-- An invalidated timer leaves all its modes. -/
theorem invalidate_gone (h : Scheduled s) (hv : ValidModes s) (rlt : TimerRef) :
    ((invalidate s rlt).timer rlt).valid = false ∧ ((invalidate s rlt).timer rlt).rlModes = [] := by
  have hs : Scheduled (s.updateTimer rlt { s.timer rlt with valid := false }) := h.retimer rfl rfl rfl rfl
  have hold := h.timers rlt
  rw [invalidate]
  dsimp only
  split
  · split
    · next hloop =>
      simp only [State.updateTimer, Function.update_self, true_and]
      exact hold.runLoop.mp hloop
    · next rl hloop =>
      obtain ⟨hfold, hquiet⟩ := foldl_removeTimer hs rl rlt (s.timer rlt).rlModes
      have hon : OnLoop rl ((s.updateTimer rlt { s.timer rlt with valid := false }).timer rlt) :=
        .inl (by simpa [State.updateTimer] using hloop)
      have hempty := removeTimer_rlModes hs (s.timer rlt).rlModes hon (by simp [State.updateTimer]) hold.named
      refine ⟨?_, (removeTimer_keeps (fun s' => (s'.timer rlt).rlModes = []) hfold hempty (fun _ _ hs => hs)
        (fun s' rl' m hs' hs'' => ?_) rl _).2⟩
      · rw [← Bool.not_eq_true]
        intro hvalid
        have hback := hquiet.valid rlt ((removeTimer_quiet hfold rl rlt _).valid rlt hvalid)
        simp [State.updateTimer] at hback
      · have hon : OnLoop rl' (s'.timer rlt) := .inr hs''
        rw [(removeTimerFromMode_rlModes hs' hon m).2, hs'']
        rfl
  · next hinvalid => exact ⟨by simpa using hinvalid, hv rlt (by simpa using hinvalid)⟩

theorem invalidate_valid (h : Scheduled s) (hv : ValidModes s) (rlt : TimerRef) :
    ValidModes (invalidate s rlt) := by
  intro u hu
  by_cases hut : u = rlt
  · subst hut
    exact (invalidate_gone h hv u).2
  · rw [invalidate_other h hut] at hu ⊢
    exact hv u hu

theorem advance_le (interval now fuel next : Nat) :
    advance interval now fuel next ≤ max next (now + interval) := by
  induction fuel generalizing next with
  | zero => exact le_max_left _ _
  | succ fuel ih =>
    rw [advance]
    split
    · next hle =>
      have hnext := ih (next + interval)
      omega
    · exact le_max_left _ _

theorem nextFireTSR_le {interval now old : Nat} (hinterval : interval ≤ timerIntervalLimit)
    (hnow : now < llongMax) : nextFireTSR interval now old ≤ uint64Max := by
  have hlimits : llongMax + timerIntervalLimit ≤ uint64Max := by decide
  rw [nextFireTSR]
  split
  · omega
  · have hle := advance_le interval now (now + 1 - old) old
    omega

theorem timeIntervalToTSR_le (ti : Nat) : timeIntervalToTSR ti ≤ timerIntervalLimit := by
  rw [timeIntervalToTSR]
  split <;> omega

/-- What holds of the timers in every state of a run. -/
structure Consistent (s : State) : Prop where
  scheduled : Scheduled s
  valid : ValidModes s
  fresh : ∀ t, s.count ≤ t → (s.timer t).valid = false

theorem Consistent.quiet {s' : State} (h : Consistent s) (hq : Quiet s s') (hs : Scheduled s')
    (hv : ValidModes s') : Consistent s' := by
  refine ⟨hs, hv, fun t ht => ?_⟩
  rw [hq.count] at ht
  have hold := h.fresh t ht
  rw [← Bool.not_eq_true] at hold ⊢
  exact fun hvalid => hold (hq.valid t hvalid)

theorem Consistent.frame {s' : State} (h : Consistent s) (htimer : s'.timer = s.timer) (hmode : s'.mode = s.mode)
    (hcommon : s'.commonModes = s.commonModes) (hnow : s'.now = s.now) (hcount : s'.count = s.count) :
    Consistent s' := by
  refine ⟨h.scheduled.frame htimer hmode hcommon hnow, ?_, ?_⟩
  · rw [ValidModes, htimer]
    exact h.valid
  · rw [hcount, htimer]
    exact h.fresh

theorem Consistent.retimer (h : Consistent s) {t : Timer} (hfire : t.fireTSR = (s.timer rlt).fireTSR)
    (hloop : t.runLoop = (s.timer rlt).runLoop) (hmodes : t.rlModes = (s.timer rlt).rlModes)
    (hinterval : t.interval = (s.timer rlt).interval) (hvalid : t.valid = (s.timer rlt).valid) :
    Consistent (s.updateTimer rlt t) := by
  refine ⟨h.scheduled.retimer hfire hloop hmodes hinterval, fun u hu => ?_, fun u hu => ?_⟩ <;>
    simp only [State.updateTimer] at hu ⊢ <;> by_cases hut : u = rlt
  · subst hut
    rw [Function.update_self] at hu ⊢
    rw [hmodes]
    exact h.valid u (hvalid ▸ hu)
  · rw [Function.update_of_ne hut] at hu ⊢
    exact h.valid u hu
  · subst hut
    rw [Function.update_self, hvalid]
    exact h.fresh u hu
  · rw [Function.update_of_ne hut]
    exact h.fresh u hu

theorem Consistent.arm (h : Consistent s) {key : RunLoopRef × String} {x : Mode}
    (hx : x.timers = (s.mode key).timers) : Consistent (s.updateMode key (x.armNextTimer s.timer)) := by
  refine ⟨⟨fun key' => ?_, h.scheduled.timers, h.scheduled.named, h.scheduled.now⟩, h.valid, h.fresh⟩
  by_cases hk : key' = key
  · subst hk
    have hold := h.scheduled.placed key'
    simp only [State.updateMode, Function.update_self]
    constructor
    · rw [armNextTimer_timers, hx]
      exact hold.mem
    · rw [armNextTimer_timers, hx]
      exact hold.nodup
    · rw [armNextTimer_timers, hx]
      exact hold.sorted
  · simp only [State.updateMode, Function.update_of_ne hk]
    exact h.scheduled.placed key'

theorem setFireTSR_timer (h : Scheduled s) (rlt : TimerRef) (n : Nat) : (setFireTSR s rlt n).timer =
    Function.update s.timer rlt { s.timer rlt with fireTSR := n } := by
  rw [setFireTSR_eq (h.timers rlt)]

theorem setFireTSR_consistent (h : Consistent s) (rlt : TimerRef) {n : Nat} (hn : n ≤ uint64Max) :
    Consistent (setFireTSR s rlt n) := by
  refine ⟨setFireTSR_scheduled h.scheduled rlt hn, fun u hu => ?_, fun u hu => ?_⟩ <;>
    rw [setFireTSR_timer h.scheduled] at * <;> by_cases hut : u = rlt
  · subst hut
    rw [Function.update_self] at hu ⊢
    exact h.valid u hu
  · rw [Function.update_of_ne hut] at hu ⊢
    exact h.valid u hu
  · subst hut
    rw [Function.update_self]
    rw [setFireTSR_eq (h.scheduled.timers u)] at hu
    exact h.fresh u hu
  · rw [Function.update_of_ne hut]
    rw [setFireTSR_eq (h.scheduled.timers rlt)] at hu
    exact h.fresh u hu

theorem timerCreate_consistent (h : Consistent s) (delay : Nat) (interval : Option Nat) :
    Consistent { s.updateTimer s.count (timerCreate s.now delay interval) with count := s.count + 1 } := by
  have hempty : (s.timer s.count).rlModes = [] := h.valid s.count (h.fresh s.count (Nat.le_refl _))
  have hnot : ∀ key, ¬ Member key (s.timer s.count) := by
    rintro key ⟨_, hmem⟩
    rw [hempty] at hmem
    cases hmem
  have hnow := h.scheduled.now
  have hlimits : llongMax + timerIntervalLimit ≤ uint64Max := by decide
  refine ⟨⟨fun key => ?_, fun u => ?_, h.scheduled.named, hnow⟩, fun u hu => ?_, fun u hu => ?_⟩
  · have hold := h.scheduled.placed key
    have habsent : s.count ∉ (s.mode key).timers := fun hmem => hnot key ((hold.mem _).mp hmem)
    refine hold.congr (fun u => ?_) fun u hu => ?_
    · by_cases hut : u = s.count
      · subst hut
        simpa [State.updateTimer, timerCreate, Member] using hnot key
      · simp [State.updateTimer, hut]
    · simp [State.updateTimer, ne_of_mem_of_not_mem hu habsent]
  · by_cases hut : u = s.count
    · subst hut
      simp only [State.updateTimer, Function.update_self]
      refine ⟨List.nodup_nil, List.not_mem_nil, by simp [timerCreate], ?_, timeIntervalToTSR_le _⟩
      have hdelay := timeIntervalToTSR_le delay
      simp only [timerCreate]
      omega
    · simpa [State.updateTimer, hut] using h.scheduled.timers u
  · simp only [State.updateTimer] at hu ⊢
    by_cases hut : u = s.count
    · subst hut
      simp [timerCreate]
    · rw [Function.update_of_ne hut] at hu ⊢
      exact h.valid u hu
  · simp only [State.updateTimer] at hu ⊢
    have hut : u ≠ s.count := by omega
    rw [Function.update_of_ne hut]
    exact h.fresh u (by omega)

theorem setFiring_consistent (h : Consistent s) (rl : RunLoopRef) (rlm : String) (rlt : TimerRef) :
    Consistent (setFiring s rl rlm rlt) := by
  have hs : Consistent (s.updateTimer rlt { s.timer rlt with firing := true }) := h.retimer rfl rfl rfl rfl rfl
  exact hs.arm rfl

theorem invalidate_consistent (h : Consistent s) (rlt : TimerRef) : Consistent (invalidate s rlt) := by
  refine h.quiet (invalidate_quiet h.scheduled rlt) ?_ (invalidate_valid h.scheduled h.valid rlt)
  exact (invalidate_keeps (fun _ => True) h.scheduled trivial trivial (fun _ _ _ => trivial)
    fun _ _ _ _ _ => trivial).1

theorem unsetFiring_consistent (h : Consistent s) (rl : RunLoopRef) (call : DoTimers) (calls : List DoTimers)
    (rlt : TimerRef) : Consistent (unsetFiring s rl call calls rlt) := by
  have hs : Consistent (if (s.timer rlt).repeats then s else invalidate s rlt) := by
    split
    · exact h
    · exact invalidate_consistent h rlt
  rw [unsetFiring]
  generalize (if (s.timer rlt).repeats then s else invalidate s rlt) = s' at hs
  have hunset : Consistent (s'.updateTimer rlt { s'.timer rlt with firing := false }) :=
    hs.retimer rfl rfl rfl rfl rfl
  exact hunset.frame rfl rfl rfl rfl rfl

theorem endDoTimer_consistent (h : Consistent s) (rl : RunLoopRef) (call : DoTimers) (calls : List DoTimers)
    (rlt : TimerRef) (oldFireTSR : Nat) : Consistent (endDoTimer s rl call calls rlt oldFireTSR) := by
  have hunset := unsetFiring_consistent h rl call calls rlt
  rw [endDoTimer]
  generalize unsetFiring s rl call calls rlt = s' at hunset
  split
  · split
    · exact hunset.arm rfl
    · split
      · exact hunset.frame rfl rfl rfl rfl rfl
      · exact setFireTSR_consistent hunset rlt
          (nextFireTSR_le (hunset.scheduled.timers rlt).interval hunset.scheduled.now)
  · exact hunset

theorem beginDoTimer_consistent (h : Consistent s) (rl : RunLoopRef) (call : DoTimers) (calls : List DoTimers)
    (rlt : TimerRef) (rest : List TimerRef) : Consistent (beginDoTimer s rl call calls rlt rest) := by
  rw [beginDoTimer]
  split
  · exact (setFiring_consistent h rl call.rlm rlt).frame rfl rfl rfl rfl rfl
  · exact h.frame rfl rfl rfl rfl rfl

theorem consistent_step {s' : State} {a : Action} (h : Consistent s) (hs : step s a = some s') :
    Consistent s' := by
  cases a with
  | tick d =>
    obtain ⟨hnow, he⟩ := Option.ite_none_right_eq_some.mp hs
    cases he
    refine ⟨⟨h.scheduled.placed, h.scheduled.timers, h.scheduled.named, hnow⟩, h.valid, h.fresh⟩
  | timerCreate delay interval =>
    cases hs
    exact timerCreate_consistent h delay interval
  | addTimer rl rlt modeName =>
    cases hs
    have hkeep := addTimer_keeps ValidModes h.scheduled h.valid (fun _ _ _ hv => hv)
      (fun _ _ _ _ hv => addTimerToMode_valid hv _ rlt _) rl modeName
    exact h.quiet (addTimer_quiet h.scheduled rl rlt modeName) hkeep.1 hkeep.2
  | removeTimer rl rlt modeName =>
    cases hs
    have hkeep := removeTimer_keeps ValidModes h.scheduled h.valid (fun _ _ hv => hv)
      (fun _ _ _ _ hv => removeTimerFromMode_valid hv _ rlt _) rl modeName
    exact h.quiet (removeTimer_quiet h.scheduled rl rlt modeName) hkeep.1 hkeep.2
  | addCommonMode rl modeName =>
    obtain ⟨hname, he⟩ := Option.ite_none_left_eq_some.mp hs
    cases he
    have hkeep := addCommonMode_keeps ValidModes h.scheduled h.valid (fun _ _ hv => hv)
      (fun _ _ _ _ _ hv => addTimerToMode_valid hv _ _ _) rl hname
    exact h.quiet (addCommonMode_quiet h.scheduled rl hname) hkeep.1 hkeep.2
  | setNextFireDate rlt delay =>
    cases hs
    rw [setNextFireDate]
    split
    · apply setFireTSR_consistent h
      have hnow := h.scheduled.now
      have hlimits : llongMax + timerIntervalLimit ≤ uint64Max := by decide
      have hdelay := timeIntervalToTSR_le delay
      omega
    · exact h
  | setTolerance rlt tolerance =>
    cases hs
    exact h.retimer rfl rfl rfl rfl rfl
  | invalidate rlt =>
    cases hs
    exact invalidate_consistent h rlt
  | doTimers rl rlm =>
    obtain ⟨_, he⟩ := Option.ite_none_right_eq_some.mp hs
    cases he
    exact h.frame rfl rfl rfl rfl rfl
  | doTimer rl =>
    simp only [step] at hs
    split at hs
    · cases hs
      exact beginDoTimer_consistent h rl _ _ _ _
    · cases hs
  | returned rl =>
    simp only [step] at hs
    split at hs
    · cases hs
      exact endDoTimer_consistent h rl _ _ _ _
    · cases hs
  | finish rl =>
    simp only [step] at hs
    split at hs
    · cases hs
      exact h.frame rfl rfl rfl rfl rfl
    · cases hs

theorem timers_step {s' : State} {a : Action} (hs : timers.step s a = some s') :
    s.halted = false ∧ step s a = some s' := by
  simpa [timers] using hs

theorem consistent_initial : Consistent initial := by
  refine ⟨⟨fun key => ⟨fun t => ?_, List.nodup_nil, List.Pairwise.nil⟩, fun t => ?_, ?_, by decide⟩,
    fun _ _ => rfl, fun _ _ => rfl⟩
  · simp [initial, Member]
  · exact ⟨List.nodup_nil, List.not_mem_nil, by simp [initial], Nat.zero_le _, Nat.zero_le _⟩
  · intro rl
    simp [initial, kCFRunLoopCommonModes]

end

/-- Of two timers of the default mode the later one repeats, and is in the callout
of the other one set to a later date. -/
def twoTimers : List Action :=
  [.timerCreate 5 (some 10), .timerCreate 3 none, .addTimer 0 0 kCFRunLoopCommonModes,
    .addTimer 0 1 "kCFRunLoopDefaultMode", .addCommonMode 0 "tracking", .tick 30,
    .doTimers 0 "kCFRunLoopDefaultMode", .doTimer 0, .setNextFireDate 0 20, .returned 0]

end RunLoopTimers
