import IOSStudy.RunLoopTimers

/-!
# Every mode has its timers in order

The array of a mode holds the timers that have the mode among theirs, sorted by
the time they fire at, whatever is added, removed, invalidated, set or called
out to. A mode's deadlines can leave out a timer that is firing, and are those
of its timers when none is.
-/
namespace RunLoopTimers

open Transition SortedInsertion TimerArray
open BlockQueue (kCFRunLoopCommonModes)

/-- The timer is on the loop and has the mode among its modes. -/
def Member (key : RunLoopRef × String) (t : Timer) : Prop := t.runLoop = some key.1 ∧ key.2 ∈ t.rlModes

instance (key : RunLoopRef × String) (t : Timer) : Decidable (Member key t) :=
  inferInstanceAs (Decidable (t.runLoop = some key.1 ∧ key.2 ∈ t.rlModes))

structure Placed (timer : TimerRef → Timer) (key : RunLoopRef × String) (x : Mode) : Prop where
  mem : ∀ t, t ∈ x.timers ↔ Member key (timer t)
  nodup : x.timers.Nodup
  sorted : Sorted (fun t => (timer t).fireTSR) x.timers

structure WellFormed (t : Timer) : Prop where
  rlModes : t.rlModes.Nodup
  named : kCFRunLoopCommonModes ∉ t.rlModes
  runLoop : t.runLoop = none ↔ t.rlModes = []
  fireTSR : t.fireTSR ≤ uint64Max
  interval : t.interval ≤ timerIntervalLimit

structure Scheduled (s : State) : Prop where
  placed : ∀ key, Placed s.timer key (s.mode key)
  timers : ∀ t, WellFormed (s.timer t)
  named : ∀ rl, kCFRunLoopCommonModes ∉ s.commonModes rl
  now : s.now < llongMax

/-- The deadlines are those of the timers, except for some that are firing. -/
structure Armed (timer : TimerRef → Timer) (x : Mode) : Prop where
  requested : x.Requested
  current : ∃ skip : TimerRef → Bool, (∀ t ∈ x.timers, skip t = true → (timer t).firing = true) ∧
    (x.timerSoftDeadline, x.timerHardDeadline) = deadlines timer skip x.timers

section

variable {timer timer' : TimerRef → Timer} {key : RunLoopRef × String} {x : Mode}

theorem Placed.congr (h : Placed timer key x) (hmember : ∀ t, Member key (timer' t) ↔ Member key (timer t))
    (hfire : ∀ t ∈ x.timers, (timer' t).fireTSR = (timer t).fireTSR) : Placed timer' key x :=
  ⟨fun t => (h.mem t).trans (hmember t).symm, h.nodup, h.sorted.congr hfire⟩

theorem earliest_congr {f g : TimerRef → Nat} {l : List TimerRef} (h : ∀ t ∈ l, f t = g t) :
    earliest f l = earliest g l := by
  induction l with
  | nil => rfl
  | cons t l ih =>
    obtain ⟨ht, hl⟩ := List.forall_mem_cons.mp h
    rw [earliest, earliest, ht, ih hl]

theorem deadlines_congr {skip : TimerRef → Bool} {l : List TimerRef}
    (hfire : ∀ t ∈ l, (timer' t).fireTSR = (timer t).fireTSR)
    (htolerance : ∀ t ∈ l, (timer' t).tolerance = (timer t).tolerance) :
    deadlines timer' skip l = deadlines timer skip l := by
  rw [deadlines, deadlines, Prod.mk.injEq]
  constructor
  · exact earliest_congr fun t ht => hfire t (List.mem_of_mem_filter ht)
  · refine earliest_congr fun t ht => ?_
    have hmem := List.mem_of_mem_filter ht
    rw [hardDeadline, hardDeadline, hfire t hmem, htolerance t hmem]

theorem Armed.congr (h : Armed timer x) (hfire : ∀ t ∈ x.timers, (timer' t).fireTSR = (timer t).fireTSR)
    (htolerance : ∀ t ∈ x.timers, (timer' t).tolerance = (timer t).tolerance)
    (hfiring : ∀ t ∈ x.timers, (timer t).firing = true → (timer' t).firing = true) : Armed timer' x := by
  obtain ⟨hrequested, skip, hskip, hd⟩ := h
  refine ⟨hrequested, skip, fun t ht hs => hfiring t ht (hskip t ht hs), ?_⟩
  rw [hd, deadlines_congr hfire htolerance]

/-- A timer that has no place in the array yet gets one. -/
theorem Placed.insert {rlt : TimerRef} (hmem : ∀ t, t ≠ rlt → (t ∈ x.timers ↔ Member key (timer t)))
    (hnew : rlt ∉ x.timers) (hrlt : Member key (timer rlt)) (hnodup : x.timers.Nodup)
    (hsorted : Sorted (fun t => (timer t).fireTSR) x.timers) :
    Placed timer key ((x.insertTimer timer rlt).armNextTimer timer) := by
  have htimers : ((x.insertTimer timer rlt).armNextTimer timer).timers =
      insertSorted (fun t => (timer t).fireTSR) rlt x.timers := by
    rw [armNextTimer_timers, insertTimer_timers hsorted]
  constructor
  · intro t
    rw [htimers, mem_insertSorted]
    by_cases ht : t = rlt
    · subst ht
      simp [hrlt]
    · simp [ht, hmem t ht]
  · rw [htimers, (insertSorted_perm rlt x.timers).nodup_iff]
    exact List.nodup_cons.mpr ⟨hnew, hnodup⟩
  · rw [htimers]
    exact hsorted.insertSorted rlt

theorem Placed.erase {rlt : TimerRef} (h : Placed timer key x) (hmem : ∀ t, t ≠ rlt →
    (Member key (timer' t) ↔ Member key (timer t))) (hrlt : ¬ Member key (timer' rlt))
    (hfire : ∀ t, t ≠ rlt → (timer' t).fireTSR = (timer t).fireTSR) :
    Placed timer' key { x with timers := x.timers.erase rlt } := by
  have hnot : rlt ∉ x.timers.erase rlt := h.nodup.not_mem_erase
  constructor
  · intro t
    by_cases ht : t = rlt
    · subst ht
      simp [hrlt, hnot]
    · rw [List.mem_erase_of_ne ht, h.mem t, hmem t ht]
  · exact h.nodup.erase rlt
  · refine (h.sorted.erase rlt).congr fun t ht => hfire t ?_
    rintro rfl
    exact hnot ht

end

section

variable {s : State} {rlt : TimerRef}

/-- One timer changes, which moves it in one mode. -/
theorem Scheduled.change (h : Scheduled s) {t : Timer} {key : RunLoopRef × String} {x : Mode}
    (hfire : t.fireTSR = (s.timer rlt).fireTSR) (ht : WellFormed t)
    (hx : Placed (Function.update s.timer rlt t) key x)
    (hothers : ∀ key', key' ≠ key → (Member key' t ↔ Member key' (s.timer rlt))) :
    Scheduled ((s.updateTimer rlt t).updateMode key x) := by
  have hfires : ∀ u, (Function.update s.timer rlt t u).fireTSR = (s.timer u).fireTSR := by
    intro u
    by_cases hu : u = rlt
    · subst hu
      rw [Function.update_self, hfire]
    · rw [Function.update_of_ne hu]
  refine ⟨fun key' => ?_, fun u => ?_, h.named, h.now⟩
  · by_cases hk : key' = key
    · subst hk
      simpa [State.updateMode, State.updateTimer] using hx
    · simp only [State.updateMode, State.updateTimer, Function.update_of_ne hk]
      refine (h.placed key').congr (fun u => ?_) fun u _ => hfires u
      by_cases hu : u = rlt
      · subst hu
        rw [Function.update_self]
        exact hothers key' hk
      · rw [Function.update_of_ne hu]
  · by_cases hu : u = rlt
    · subst hu
      simpa [State.updateMode, State.updateTimer] using ht
    · simpa [State.updateMode, State.updateTimer, hu] using h.timers u

/-- What `CFRunLoopAddTimer` does to a mode. -/
theorem addTimerToMode_cases (s : State) (rl : RunLoopRef) (rlt : TimerRef) (modeName : String) :
    addTimerToMode s rl rlt modeName = s ∨
      (s.timer rlt).valid = true ∧ ((s.timer rlt).runLoop = none ∨ (s.timer rlt).runLoop = some rl) ∧
        modeName ∉ (s.timer rlt).rlModes ∧ ∃ t,
          t = { s.timer rlt with runLoop := some rl, rlModes := modeName :: (s.timer rlt).rlModes } ∧
          addTimerToMode s rl rlt modeName = (s.updateTimer rlt t).updateMode (rl, modeName)
            (((s.mode (rl, modeName)).insertTimer (Function.update s.timer rlt t) rlt).armNextTimer
              (Function.update s.timer rlt t)) := by
  simp only [addTimerToMode]
  split
  · exact .inl rfl
  · next hadd =>
    simp only [Bool.or_eq_true, Bool.not_eq_true', not_or, List.contains_iff_mem] at hadd
    obtain ⟨⟨hvalid, hloop⟩, hmode⟩ := hadd
    refine .inr ⟨by simpa using hvalid, ?_, hmode, _, rfl, rfl⟩
    cases hrl : (s.timer rlt).runLoop with
    | none => exact .inl rfl
    | some rl' =>
      rw [hrl] at hloop
      exact .inr (by simpa [otherLoop] using hloop)

theorem addTimerToMode_scheduled (h : Scheduled s) (rl : RunLoopRef) (rlt : TimerRef) {modeName : String}
    (hname : modeName ≠ kCFRunLoopCommonModes) : Scheduled (addTimerToMode s rl rlt modeName) := by
  rcases addTimerToMode_cases s rl rlt modeName with hsame | ⟨_, hloop, hmode, t, ht, hadd⟩
  · rw [hsame]
    exact h
  · rw [hadd]
    have hold := h.timers rlt
    have hplaced := h.placed (rl, modeName)
    have hnot : rlt ∉ (s.mode (rl, modeName)).timers := fun hmem => hmode ((hplaced.mem rlt).mp hmem).2
    have hwf : WellFormed t := by
      subst ht
      refine ⟨List.nodup_cons.mpr ⟨hmode, hold.rlModes⟩, ?_, by simp, hold.fireTSR, hold.interval⟩
      simp only [List.mem_cons, not_or]
      exact ⟨Ne.symm hname, hold.named⟩
    refine h.change (by rw [ht]) hwf (Placed.insert ?_ hnot ?_ hplaced.nodup ?_) ?_
    · intro u hu
      rw [Function.update_of_ne hu]
      exact hplaced.mem u
    · rw [Function.update_self, ht]
      exact ⟨rfl, List.mem_cons_self⟩
    · refine hplaced.sorted.congr fun u hu => ?_
      rw [Function.update_of_ne (ne_of_mem_of_not_mem hu hnot)]
    · rintro ⟨rl', name⟩ hk
      rw [ht]
      simp only [Member, Option.some.injEq, List.mem_cons]
      cases hloop with
      | inl hnone => simp only [hnone, hold.runLoop.mp hnone]; grind
      | inr hsome => rw [hsome]; grind

/-- What `CFRunLoopRemoveTimer` does to a mode. -/
theorem removeTimerFromMode_cases (s : State) (rl : RunLoopRef) (rlt : TimerRef) (modeName : String) :
    rlt ∉ (s.mode (rl, modeName)).timers ∧ removeTimerFromMode s rl rlt modeName = s ∨
      rlt ∈ (s.mode (rl, modeName)).timers ∧ ∃ t,
        t = { s.timer rlt with
          rlModes := (s.timer rlt).rlModes.erase modeName
          runLoop := if (s.timer rlt).rlModes.erase modeName = [] then none else (s.timer rlt).runLoop } ∧
        removeTimerFromMode s rl rlt modeName = (s.updateTimer rlt t).updateMode (rl, modeName)
          ({ s.mode (rl, modeName) with timers := (s.mode (rl, modeName)).timers.erase rlt }.armNextTimer
            (Function.update s.timer rlt t)) := by
  simp only [removeTimerFromMode]
  split
  · next hmem => exact .inr ⟨hmem, _, rfl, rfl⟩
  · next hnot => exact .inl ⟨hnot, rfl⟩

theorem removed_wellFormed {t : Timer} (h : WellFormed t) (modeName : String) (hloop : t.runLoop ≠ none) :
    WellFormed { t with
      rlModes := t.rlModes.erase modeName
      runLoop := if t.rlModes.erase modeName = [] then none else t.runLoop } := by
  refine ⟨h.rlModes.erase _, fun hmem => h.named (List.mem_of_mem_erase hmem), ?_, h.fireTSR, h.interval⟩
  dsimp only
  split
  · next hempty => simp [hempty]
  · next hsome => simp [hsome, hloop]

theorem removed_placed (h : Scheduled s) (rl : RunLoopRef) {modeName : String} {t : Timer}
    (ht : t = { s.timer rlt with
      rlModes := (s.timer rlt).rlModes.erase modeName
      runLoop := if (s.timer rlt).rlModes.erase modeName = [] then none else (s.timer rlt).runLoop }) :
    Placed (Function.update s.timer rlt t) (rl, modeName)
      { s.mode (rl, modeName) with timers := (s.mode (rl, modeName)).timers.erase rlt } := by
  refine (h.placed (rl, modeName)).erase (fun u hu => ?_) ?_ fun u hu => ?_
  · rw [Function.update_of_ne hu]
  · rw [Function.update_self, ht]
    rintro ⟨_, hmem⟩
    exact (h.timers rlt).rlModes.not_mem_erase hmem
  · rw [Function.update_of_ne hu]

theorem removeTimerFromMode_scheduled (h : Scheduled s) (rl : RunLoopRef) (rlt : TimerRef) (modeName : String) :
    Scheduled (removeTimerFromMode s rl rlt modeName) := by
  rcases removeTimerFromMode_cases s rl rlt modeName with ⟨_, hsame⟩ | ⟨hmem, t, ht, hremove⟩
  · rw [hsame]
    exact h
  · rw [hremove]
    obtain ⟨hloop, hmode⟩ := ((h.placed (rl, modeName)).mem rlt).mp hmem
    have hplaced := removed_placed h rl ht
    have hwf : WellFormed t := by
      rw [ht]
      exact removed_wellFormed (h.timers rlt) modeName (by simp [hloop])
    refine h.change (by rw [ht]) hwf ?_ ?_
    · constructor
      · rw [armNextTimer_timers]
        exact hplaced.mem
      · rw [armNextTimer_timers]
        exact hplaced.nodup
      · rw [armNextTimer_timers]
        exact hplaced.sorted
    · rintro ⟨rl', name⟩ hk
      rw [ht]
      simp only [Member] at hloop hmode ⊢
      rw [hloop]
      by_cases hname : name = modeName
      · subst hname
        have hrl : rl ≠ rl' := fun he => hk (by rw [he])
        split <;> simp [hrl]
      · rw [List.mem_erase_of_ne hname]
        split
        · next hempty =>
          have hgone : name ∉ (s.timer rlt).rlModes := by
            rw [← List.mem_erase_of_ne hname, hempty]
            exact List.not_mem_nil
          simp [hgone]
        · rfl

/-- The modes are changed one after the other, each by itself. -/
theorem foldl_updateMode (f : (TimerRef → Timer) → Mode → Mode) (rl : RunLoopRef) {ms : List String}
    (hms : ms.Nodup) (s : State) :
    ms.foldl (fun s m => s.updateMode (rl, m) (f s.timer (s.mode (rl, m)))) s =
      { s with mode := fun key => if key.1 = rl ∧ key.2 ∈ ms then f s.timer (s.mode key) else s.mode key } := by
  induction ms generalizing s with
  | nil => simp
  | cons m ms ih =>
    obtain ⟨hm, hrest⟩ := List.nodup_cons.mp hms
    rw [List.foldl_cons, ih hrest]
    simp only [State.updateMode, State.mk.injEq, true_and, and_true]
    funext ⟨rl', name⟩
    by_cases hkey : (rl', name) = (rl, m)
    · cases hkey
      simp [hm]
    · rw [Function.update_of_ne hkey]
      have hname : rl' = rl → name ≠ m := fun hrl he => hkey (by rw [hrl, he])
      by_cases hrl : rl' = rl
      · simp [hrl, hname hrl]
      · simp [hrl]

theorem setFireTSR_eq (hwf : WellFormed (s.timer rlt)) (n : Nat) : setFireTSR s rlt n =
    { s with
      timer := Function.update s.timer rlt { s.timer rlt with fireTSR := n }
      mode := fun key => if Member key (s.timer rlt) then
          (s.mode key).repositionTimer (Function.update s.timer rlt { s.timer rlt with fireTSR := n }) rlt true
        else s.mode key } := by
  simp only [setFireTSR]
  cases hrl : (s.timer rlt).runLoop with
  | none => simp [Member, hrl, State.updateTimer]
  | some rl =>
    dsimp only
    rw [foldl_updateMode (fun timer x => x.repositionTimer timer rlt true) rl hwf.rlModes]
    simp only [State.updateTimer, Member, hrl, Option.some.injEq, State.mk.injEq, true_and, and_true]
    funext key
    by_cases hkey : key.1 = rl
    · simp [hkey]
    · simp [hkey, Ne.symm hkey]

/-- A mode in which the timer is, after the timer's fire date changed. -/
theorem repositionTimer_eq {timer : TimerRef → Timer} {x : Mode} (hmem : rlt ∈ x.timers) :
    x.repositionTimer timer rlt true =
      ({ x with timers := x.timers.erase rlt }.insertTimer timer rlt).armNextTimer timer := by
  rw [Mode.repositionTimer, if_pos rfl, if_pos hmem]

theorem sorted_erase_update {timer : TimerRef → Timer} {l : List TimerRef} {t : Timer}
    (hsorted : Sorted (fun t => (timer t).fireTSR) l) (hnodup : l.Nodup) :
    Sorted (fun u => (Function.update timer rlt t u).fireTSR) (l.erase rlt) := by
  refine (hsorted.erase rlt).congr fun u hu => ?_
  rw [Function.update_of_ne (ne_of_mem_of_not_mem hu hnodup.not_mem_erase)]

theorem setFireTSR_scheduled (h : Scheduled s) (rlt : TimerRef) {n : Nat} (hn : n ≤ uint64Max) :
    Scheduled (setFireTSR s rlt n) := by
  have hold := h.timers rlt
  have hmember : ∀ key u, Member key (Function.update s.timer rlt { s.timer rlt with fireTSR := n } u) ↔
      Member key (s.timer u) := by
    intro key u
    by_cases hu : u = rlt
    · subst hu
      rw [Function.update_self]
      rfl
    · rw [Function.update_of_ne hu]
  rw [setFireTSR_eq hold]
  refine ⟨fun key => ?_, fun u => ?_, h.named, h.now⟩
  · have hplaced := h.placed key
    dsimp only
    split
    · next hin =>
      have hmem : rlt ∈ (s.mode key).timers := (hplaced.mem rlt).mpr hin
      rw [repositionTimer_eq hmem]
      refine Placed.insert (fun u hu => ?_) hplaced.nodup.not_mem_erase ((hmember key rlt).mpr hin)
        (hplaced.nodup.erase rlt) (sorted_erase_update hplaced.sorted hplaced.nodup)
      rw [List.mem_erase_of_ne hu, hplaced.mem u, hmember key u]
    · next hout =>
      have hnot : rlt ∉ (s.mode key).timers := fun hmem => hout ((hplaced.mem rlt).mp hmem)
      refine hplaced.congr (hmember key) fun u hu => ?_
      rw [Function.update_of_ne (ne_of_mem_of_not_mem hu hnot)]
  · by_cases hu : u = rlt
    · subst hu
      simp only [Function.update_self]
      exact ⟨hold.rlModes, hold.named, hold.runLoop, hn, hold.interval⟩
    · simp only [Function.update_of_ne hu]
      exact h.timers u

theorem Scheduled.frame {s' : State} (h : Scheduled s) (htimer : s'.timer = s.timer) (hmode : s'.mode = s.mode)
    (hcommon : s'.commonModes = s.commonModes) (hnow : s'.now = s.now) : Scheduled s' := by
  constructor
  · rw [htimer, hmode]
    exact h.placed
  · rw [htimer]
    exact h.timers
  · rw [hcommon]
    exact h.named
  · rw [hnow]
    exact h.now

/-- Nothing that matters to the order of the timers changes. -/
theorem Scheduled.retimer (h : Scheduled s) {t : Timer} (hfire : t.fireTSR = (s.timer rlt).fireTSR)
    (hloop : t.runLoop = (s.timer rlt).runLoop) (hmodes : t.rlModes = (s.timer rlt).rlModes)
    (hinterval : t.interval = (s.timer rlt).interval) : Scheduled (s.updateTimer rlt t) := by
  have hold := h.timers rlt
  refine ⟨fun key => (h.placed key).congr (fun u => ?_) fun u _ => ?_, fun u => ?_, h.named, h.now⟩ <;>
    by_cases hu : u = rlt
  · subst hu
    simp [State.updateTimer, Member, hloop, hmodes]
  · simp [State.updateTimer, hu]
  · subst hu
    simp [State.updateTimer, hfire]
  · simp [State.updateTimer, hu]
  · subst hu
    simp only [State.updateTimer, Function.update_self]
    exact ⟨hmodes ▸ hold.rlModes, hmodes ▸ hold.named, by rw [hloop, hmodes]; exact hold.runLoop,
      hfire ▸ hold.fireTSR, hinterval ▸ hold.interval⟩
  · simpa [State.updateTimer, hu] using h.timers u

theorem addTimer_keeps (P : State → Prop) (h : Scheduled s) (hp : P s)
    (hitems : ∀ s rl items, P s → P (s.setItems rl items))
    (hadd : ∀ s rl modeName, Scheduled s → P s → P (addTimerToMode s rl rlt modeName))
    (rl : RunLoopRef) (modeName : String) :
    Scheduled (addTimer s rl rlt modeName) ∧ P (addTimer s rl rlt modeName) := by
  simp only [addTimer]
  split
  · exact ⟨h, hp⟩
  · split
    · refine List.foldlRecOn (motive := fun s => Scheduled s ∧ P s) _ _
        ⟨h.frame rfl rfl rfl rfl, hitems s rl _ hp⟩ fun s hs m hm => ?_
      have hname : m ≠ kCFRunLoopCommonModes := ne_of_mem_of_not_mem hm (h.named rl)
      exact ⟨addTimerToMode_scheduled hs.1 rl rlt hname, hadd s rl m hs.1 hs.2⟩
    · next hname => exact ⟨addTimerToMode_scheduled h rl rlt hname, hadd s rl modeName h hp⟩

theorem removeTimer_keeps (P : State → Prop) (h : Scheduled s) (hp : P s)
    (hitems : ∀ s rl, P s → P (s.setItems rl ((s.commonModeItems rl).erase rlt)))
    (hremove : ∀ s rl modeName, Scheduled s → P s → P (removeTimerFromMode s rl rlt modeName))
    (rl : RunLoopRef) (modeName : String) :
    Scheduled (removeTimer s rl rlt modeName) ∧ P (removeTimer s rl rlt modeName) := by
  simp only [removeTimer]
  split
  · split
    · refine List.foldlRecOn (motive := fun s => Scheduled s ∧ P s) _ _
        ⟨h.frame rfl rfl rfl rfl, hitems s rl hp⟩ fun s hs m _ => ?_
      exact ⟨removeTimerFromMode_scheduled hs.1 rl rlt m, hremove s rl m hs.1 hs.2⟩
    · exact ⟨h, hp⟩
  · exact ⟨removeTimerFromMode_scheduled h rl rlt modeName, hremove s rl modeName h hp⟩

theorem addCommonMode_keeps (P : State → Prop) (h : Scheduled s) (hp : P s)
    (hmodes : ∀ s commonModes, P s → P { s with commonModes := commonModes })
    (hadd : ∀ s rl rlt modeName, Scheduled s → P s → P (addTimerToMode s rl rlt modeName))
    (rl : RunLoopRef) {modeName : String} (hname : modeName ≠ kCFRunLoopCommonModes) :
    Scheduled (addCommonMode s rl modeName) ∧ P (addCommonMode s rl modeName) := by
  simp only [addCommonMode]
  split
  · exact ⟨h, hp⟩
  · refine List.foldlRecOn (motive := fun s => Scheduled s ∧ P s) _ _ ⟨?_, hmodes s _ hp⟩ fun s hs t _ => ?_
    · refine ⟨h.placed, h.timers, fun rl' => ?_, h.now⟩
      dsimp only
      by_cases hrl : rl' = rl
      · subst hrl
        rw [Function.update_self, List.mem_cons, not_or]
        exact ⟨Ne.symm hname, h.named rl'⟩
      · rw [Function.update_of_ne hrl]
        exact h.named rl'
    · exact ⟨addTimerToMode_scheduled hs.1 rl t hname, hadd s rl t modeName hs.1 hs.2⟩

theorem invalidate_keeps (P : State → Prop) (h : Scheduled s) (hp : P s)
    (hvalid : P (s.updateTimer rlt { s.timer rlt with valid := false }))
    (hitems : ∀ s rl, P s → P (s.setItems rl ((s.commonModeItems rl).erase rlt)))
    (hremove : ∀ s rl modeName, Scheduled s → P s → P (removeTimerFromMode s rl rlt modeName)) :
    Scheduled (invalidate s rlt) ∧ P (invalidate s rlt) := by
  have hs : Scheduled (s.updateTimer rlt { s.timer rlt with valid := false }) := h.retimer rfl rfl rfl rfl
  rw [invalidate]
  dsimp only
  split
  · split
    · exact ⟨hs, hvalid⟩
    · next rl _ =>
      have hfold := List.foldlRecOn (motive := fun s => Scheduled s ∧ P s) (s.timer rlt).rlModes
        (fun s modeName => removeTimer s rl rlt modeName) ⟨hs, hvalid⟩
        fun s hs m _ => removeTimer_keeps P hs.1 hs.2 hitems hremove rl m
      exact removeTimer_keeps P hfold.1 hfold.2 hitems hremove rl _
  · exact ⟨h, hp⟩

end

end RunLoopTimers
