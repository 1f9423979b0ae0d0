import IOSStudy.TimerCallouts

/-!
# Timers of the common modes

A timer that is added to the common modes is in all of them, whichever came
first, the timer or the mode, unless it is removed from one of them by name.
-/
namespace RunLoopTimers

open Transition SortedInsertion TimerArray
open BlockQueue (kCFRunLoopCommonModes)

/-- The valid items of the common modes are in all of the modes. -/
structure Closed (s : State) : Prop where
  member : ∀ rl, ∀ t ∈ s.commonModeItems rl, (s.timer t).valid = true → ∀ m ∈ s.commonModes rl,
    Member (rl, m) (s.timer t)
  common : ∀ rl, s.commonModes rl ≠ []
  nodup : ∀ rl, (s.commonModeItems rl).Nodup
  created : ∀ rl, ∀ t ∈ s.commonModeItems rl, t < s.count

section

variable {s s' : State} {rlt : TimerRef}

theorem Closed.onLoop (h : Closed s) {rl : RunLoopRef} {t : TimerRef} (ht : t ∈ s.commonModeItems rl)
    (hvalid : (s.timer t).valid = true) : (s.timer t).runLoop = some rl := by
  obtain ⟨m, ms, hms⟩ := List.exists_cons_of_ne_nil (h.common rl)
  exact (h.member rl t ht hvalid m (by rw [hms]; exact List.mem_cons_self)).1

/-- No timer leaves a mode and the common modes stay. -/
structure Grows (s s' : State) : Prop where
  commonModes : s'.commonModes = s.commonModes
  items : s'.commonModeItems = s.commonModeItems
  count : s'.count = s.count
  valid : ∀ t, (s'.timer t).valid = true → (s.timer t).valid = true
  member : ∀ key t, Member key (s.timer t) → Member key (s'.timer t)

theorem Grows.refl (s : State) : Grows s s := ⟨rfl, rfl, rfl, fun _ => id, fun _ _ => id⟩

theorem Grows.trans {s₁ s₂ s₃ : State} (h : Grows s₁ s₂) (h' : Grows s₂ s₃) : Grows s₁ s₃ where
  commonModes := h'.commonModes.trans h.commonModes
  items := h'.items.trans h.items
  count := h'.count.trans h.count
  valid t ht := h.valid t (h'.valid t ht)
  member key t ht := h'.member key t (h.member key t ht)

end

end RunLoopTimers
