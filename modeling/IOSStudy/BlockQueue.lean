import Mathlib.Data.List.Perm.Basic
import IOSStudy.LinkedList
import IOSStudy.Transition

/-!
# Blocks waiting for a run loop

Each block waits for the modes it was given. A pass over the queue in one mode
takes all that wait, calls the blocks for this mode and puts the others back in
front of what came meanwhile. A block that is called can run the loop itself, so
passes are nested; what an outer pass has taken an inner one does not see.
-/
namespace BlockQueue

open Transition LinkedList

inductive Modes where
  | name (mode : String)
  | set (modes : List String)
  deriving DecidableEq, Repr

def kCFRunLoopCommonModes : String := "kCFRunLoopCommonModes"

/-- The block is for the mode, or for the common modes and the mode is one. -/
def doit (commonModes : List String) (curMode : String) : Modes → Bool
  | .name mode => mode == curMode || (mode == kCFRunLoopCommonModes && commonModes.contains curMode)
  | .set modes =>
    modes.contains curMode || (modes.contains kCFRunLoopCommonModes && commonModes.contains curMode)

variable {β : Type*}

/-- A block with its number in the order of submission. -/
abbrev Item (β : Type*) := Nat × Modes × β

/-- A pass, with the items it has looked at and left and those still to come. -/
structure Scan (β : Type*) where
  curMode : String
  kept : List (Item β)
  rest : List (Item β)
  calling : Bool

structure Queue (β : Type*) where
  count : Nat
  queue : List (Item β)
  commonModes : List String
  scans : List (Scan β)
  called : List (Nat × β)

inductive Action (β : Type*) where
  | performBlock (modes : Modes) (block : β)
  | addCommonMode (mode : String)
  | doBlocks (curMode : String)
  | iterate
  | returned
  | finish
  deriving DecidableEq, Repr

/-- The run loop's thread is where it can begin a pass: outside all of them or in a block. -/
def mayBegin : List (Scan β) → Bool
  | [] => true
  | scan :: _ => scan.calling

def queue (commonModes : List String) : System (Queue β) (Action β) where
  initial := ⟨0, [], commonModes, [], []⟩
  step s
    | .performBlock modes block =>
      some { s with count := s.count + 1, queue := s.queue ++ [(s.count, modes, block)] }
    | .addCommonMode mode =>
      if s.commonModes.contains mode then some s else some { s with commonModes := mode :: s.commonModes }
    | .doBlocks curMode =>
      if mayBegin s.scans then
        if s.queue = [] then some s
        else some { s with queue := [], scans := ⟨curMode, [], s.queue, false⟩ :: s.scans }
      else none
    | .iterate => match s.scans with
      | ⟨curMode, kept, (n, modes, block) :: rest, false⟩ :: scans =>
        if doit s.commonModes curMode modes then
          some { s with scans := ⟨curMode, kept, rest, true⟩ :: scans, called := (n, block) :: s.called }
        else some { s with scans := ⟨curMode, kept ++ [(n, modes, block)], rest, false⟩ :: scans }
      | _ => none
    | .returned => match s.scans with
      | ⟨curMode, kept, rest, true⟩ :: scans =>
        some { s with scans := ⟨curMode, kept, rest, false⟩ :: scans }
      | _ => none
    | .finish => match s.scans with
      | ⟨_, kept, [], false⟩ :: scans => some { s with queue := kept ++ s.queue, scans := scans }
      | _ => none

/-- What a step does. -/
inductive Fires (s : Queue β) : Action β → Queue β → Prop
  | performBlock (modes : Modes) (block : β) : Fires s (.performBlock modes block)
      { s with count := s.count + 1, queue := s.queue ++ [(s.count, modes, block)] }
  | addCommonMode (mode : String) (modes : List String) : Fires s (.addCommonMode mode)
      { s with commonModes := modes }
  | nothing (curMode : String) : mayBegin s.scans = true → s.queue = [] → Fires s (.doBlocks curMode) s
  | doBlocks (curMode : String) : mayBegin s.scans = true → s.queue ≠ [] → Fires s (.doBlocks curMode)
      { s with queue := [], scans := ⟨curMode, [], s.queue, false⟩ :: s.scans }
  | call {curMode : String} {kept rest : List (Item β)} {scans : List (Scan β)} (n : Nat) (modes : Modes)
      (block : β) : s.scans = ⟨curMode, kept, (n, modes, block) :: rest, false⟩ :: scans →
      doit s.commonModes curMode modes = true → Fires s .iterate
        { s with scans := ⟨curMode, kept, rest, true⟩ :: scans, called := (n, block) :: s.called }
  | keep {curMode : String} {kept rest : List (Item β)} {scans : List (Scan β)} (n : Nat) (modes : Modes)
      (block : β) : s.scans = ⟨curMode, kept, (n, modes, block) :: rest, false⟩ :: scans →
      doit s.commonModes curMode modes = false → Fires s .iterate
        { s with scans := ⟨curMode, kept ++ [(n, modes, block)], rest, false⟩ :: scans }
  | returned {curMode : String} {kept rest : List (Item β)} {scans : List (Scan β)} :
      s.scans = ⟨curMode, kept, rest, true⟩ :: scans →
      Fires s .returned { s with scans := ⟨curMode, kept, rest, false⟩ :: scans }
  | finish {curMode : String} {kept : List (Item β)} {scans : List (Scan β)} :
      s.scans = ⟨curMode, kept, [], false⟩ :: scans →
      Fires s .finish { s with queue := kept ++ s.queue, scans := scans }

theorem fires_of_step {commonModes : List String} {s s' : Queue β} {a : Action β}
    (h : (queue commonModes).step s a = some s') : Fires s a s' := by
  cases a with
  | performBlock modes block =>
    cases h
    exact .performBlock modes block
  | addCommonMode mode =>
    simp only [queue] at h
    split at h
    · cases h
      exact .addCommonMode mode s.commonModes
    · cases h
      exact .addCommonMode mode (mode :: s.commonModes)
  | doBlocks curMode =>
    simp only [queue] at h
    split at h
    · next hmay =>
      split at h
      · next hq =>
        cases h
        exact .nothing curMode hmay hq
      · next hq =>
        cases h
        exact .doBlocks curMode hmay hq
    · cases h
  | iterate =>
    simp only [queue] at h
    split at h
    · next curMode kept n modes block rest scans hs =>
      split at h
      · next hd =>
        cases h
        exact .call n modes block hs hd
      · next hd =>
        cases h
        exact .keep n modes block hs (by simpa using hd)
    · cases h
  | returned =>
    simp only [queue] at h
    split at h
    · next curMode kept rest scans hs =>
      cases h
      exact .returned hs
    · cases h
  | finish =>
    simp only [queue] at h
    split at h
    · next curMode kept scans hs =>
      cases h
      exact .finish hs
    · cases h

/-- What the passes have taken and not called, the outermost pass first. -/
def taken : List (Scan β) → List (Item β)
  | [] => []
  | scan :: scans => taken scans ++ (scan.kept ++ scan.rest)

/-- All that waits, in the order in which it would go back to the queue. -/
def pending (s : Queue β) : List (Item β) := taken s.scans ++ s.queue

/-- The blocks that were submitted, with their numbers. -/
def submitted : List (Action β) → List (Nat × β)
  | [] => []
  | .performBlock _ block :: actions => ((submitted actions).length, block) :: submitted actions
  | _ :: actions => submitted actions

def entry (item : Item β) : Nat × β := (item.1, item.2.2)

/-- What was submitted has been called or is waiting, and what is waiting is in
the order of submission. -/
structure Orderly (actions : List (Action β)) (s : Queue β) : Prop where
  count : s.count = (submitted actions).length
  all : (s.called ++ (pending s).map entry).Perm (submitted actions)
  sorted : (addresses (pending s)).Pairwise (· < ·)
  below : ∀ n ∈ addresses (pending s), n < s.count

theorem Orderly.same {actions : List (Action β)} {s s' : Queue β} (h : Orderly actions s) {a : Action β}
    (ha : submitted (a :: actions) = submitted actions) (hcount : s'.count = s.count)
    (hcalled : s'.called = s.called) (hpending : pending s' = pending s) : Orderly (a :: actions) s' := by
  constructor
  · rw [ha, hcount]
    exact h.count
  · rw [ha, hcalled, hpending]
    exact h.all
  · rw [hpending]
    exact h.sorted
  · rw [hpending, hcount]
    exact h.below

theorem orderly_step {actions : List (Action β)} {s s' : Queue β} {a : Action β} (h : Orderly actions s)
    (hs : Fires s a s') : Orderly (a :: actions) s' := by
  cases hs with
  | performBlock modes block =>
    have hpending : pending { s with count := s.count + 1, queue := s.queue ++ [(s.count, modes, block)] } =
        pending s ++ [(s.count, modes, block)] := by simp [pending]
    constructor
    · simp [submitted, h.count]
    · rw [hpending, List.map_append, ← List.append_assoc]
      refine (List.perm_append_singleton _ _).trans ?_
      rw [submitted, ← h.count]
      exact h.all.cons _
    · rw [hpending, addresses_append, List.pairwise_append]
      refine ⟨h.sorted, by simp, fun n hn m hm => ?_⟩
      rw [addresses_cons, addresses_nil, List.mem_singleton] at hm
      rw [hm]
      exact h.below n hn
    · intro n hn
      rw [hpending, addresses_append, List.mem_append] at hn
      change n < s.count + 1
      cases hn with
      | inl hold =>
        have hlt := h.below n hold
        omega
      | inr hnew =>
        rw [addresses_cons, addresses_nil, List.mem_singleton] at hnew
        omega
  | addCommonMode mode modes => exact h.same rfl rfl rfl rfl
  | nothing curMode _ _ => exact h.same rfl rfl rfl rfl
  | doBlocks curMode _ _ => exact h.same rfl rfl rfl (by simp [pending, taken])
  | @call curMode kept rest scans n modes block hscans _ =>
    let before := taken scans ++ kept
    let after := rest ++ s.queue
    have hold : pending s = before ++ (n, modes, block) :: after := by
      simp [pending, hscans, taken, before, after]
    have hnew : pending { s with
        scans := ⟨curMode, kept, rest, true⟩ :: scans, called := (n, block) :: s.called } = before ++ after := by
      simp [pending, taken, before, after]
    have hsub : (before ++ after).Sublist (before ++ (n, modes, block) :: after) :=
      (List.sublist_cons_self _ _).append_left before
    constructor
    · exact h.count
    · rw [hnew]
      have hmove : ((before ++ (n, modes, block) :: after).map entry).Perm
          ((n, block) :: (before ++ after).map entry) := List.perm_middle.map entry
      exact ((hmove.append_left s.called).trans List.perm_middle).symm.trans (hold ▸ h.all)
    · rw [hnew]
      exact (hold ▸ h.sorted).sublist (hsub.map Prod.fst)
    · rw [hnew]
      intro m hm
      exact h.below m (hold ▸ (hsub.map Prod.fst).subset hm)
  | keep n modes block hscans _ => exact h.same rfl rfl rfl (by simp [pending, hscans, taken])
  | returned hscans => exact h.same rfl rfl rfl (by simp [pending, hscans, taken])
  | finish hscans => exact h.same rfl rfl rfl (by simp [pending, hscans, taken])

theorem run_orderly {commonModes : List String} {h : List (Queue β × Action β)} {s : Queue β}
    (r : (queue commonModes).Run h s) : Orderly (h.map Prod.snd) s := by
  induction r with
  | start => exact ⟨rfl, .nil, .nil, fun n hn => by cases hn⟩
  | fire _ hf ih => exact orderly_step ih (fires_of_step hf)

theorem submitted_below (actions : List (Action β)) :
    ∀ x ∈ submitted actions, x.1 < (submitted actions).length := by
  induction actions with
  | nil =>
    intro x hx
    cases hx
  | cons a actions ih =>
    cases a with
    | performBlock modes block =>
      intro x hx
      rw [submitted, List.length_cons]
      cases List.mem_cons.mp hx with
      | inl he =>
        rw [he]
        exact Nat.lt_succ_self _
      | inr hmem => exact Nat.lt_succ_of_lt (ih x hmem)
    | _ => exact ih

theorem submitted_nodup (actions : List (Action β)) : ((submitted actions).map Prod.fst).Nodup := by
  induction actions with
  | nil => exact .nil
  | cons a actions ih =>
    cases a with
    | performBlock modes block =>
      rw [submitted, List.map_cons, List.nodup_cons]
      refine ⟨fun hmem => ?_, ih⟩
      obtain ⟨x, hx, he⟩ := List.mem_map.mp hmem
      have hlt := submitted_below actions x hx
      omega
    | _ => exact ih

theorem entry_fst (l : List (Item β)) : (l.map entry).map Prod.fst = addresses l := by
  simp [addresses, entry]

theorem Orderly.nodup {actions : List (Action β)} {s : Queue β} (h : Orderly actions s) :
    (s.called.map Prod.fst ++ addresses (pending s)).Nodup := by
  have hperm := h.all.map Prod.fst
  rw [List.map_append, entry_fst] at hperm
  exact hperm.nodup_iff.mpr (submitted_nodup actions)

/-- What a pass left was not for its mode. -/
def Refused (s : Queue β) : Prop :=
  ∀ scan ∈ s.scans, ∀ item ∈ scan.kept, doit s.commonModes scan.curMode item.2.1 = false

def addsCommonMode : Action β → Bool
  | .addCommonMode _ => true
  | _ => false

theorem refused_step {s s' : Queue β} {a : Action β} (h : Refused s) (ha : addsCommonMode a = false)
    (hs : Fires s a s') : Refused s' := by
  cases hs with
  | performBlock modes block => exact h
  | addCommonMode mode modes => cases ha
  | nothing curMode _ _ => exact h
  | doBlocks curMode _ _ =>
    intro scan hscan item hitem
    cases List.mem_cons.mp hscan with
    | inl he =>
      subst he
      cases hitem
    | inr hmem => exact h scan hmem item hitem
  | call n modes block hscans _ =>
    intro scan hscan item hitem
    rw [Refused, hscans] at h
    cases List.mem_cons.mp hscan with
    | inl he =>
      subst he
      exact h _ List.mem_cons_self item hitem
    | inr hmem => exact h scan (List.mem_cons_of_mem _ hmem) item hitem
  | keep n modes block hscans hno =>
    intro scan hscan item hitem
    rw [Refused, hscans] at h
    cases List.mem_cons.mp hscan with
    | inl he =>
      subst he
      cases List.mem_append.mp hitem with
      | inl hold => exact h _ List.mem_cons_self item hold
      | inr hnew =>
        rw [List.mem_singleton.mp hnew]
        exact hno
    | inr hmem => exact h scan (List.mem_cons_of_mem _ hmem) item hitem
  | returned hscans =>
    intro scan hscan item hitem
    rw [Refused, hscans] at h
    cases List.mem_cons.mp hscan with
    | inl he =>
      subst he
      exact h _ List.mem_cons_self item hitem
    | inr hmem => exact h scan (List.mem_cons_of_mem _ hmem) item hitem
  | finish hscans =>
    intro scan hscan item hitem
    rw [Refused, hscans] at h
    exact h scan (List.mem_cons_of_mem _ hscan) item hitem

/-- An item that waits longer than the next one of the innermost pass was left
by that pass or is with an outer one. -/
theorem older_cases {actions : List (Action β)} {s : Queue β} (h : Orderly actions s) {curMode : String}
    {kept rest : List (Item β)} {scans : List (Scan β)} {calling : Bool} {n : Nat} {x : Modes × β}
    (hscans : s.scans = ⟨curMode, kept, (n, x) :: rest, calling⟩ :: scans) {item : Item β}
    (hitem : item ∈ pending s) (hlt : item.1 < n) : item ∈ kept ∨ item ∈ taken scans := by
  have hsplit : pending s = (taken scans ++ kept) ++ (n, x) :: (rest ++ s.queue) := by
    simp [pending, hscans, taken]
  have hsorted := h.sorted
  rw [hsplit, addresses_append, addresses_cons, List.pairwise_append, List.pairwise_cons] at hsorted
  rw [hsplit] at hitem
  rcases List.mem_append.mp hitem with hbefore | hafter
  · cases List.mem_append.mp hbefore with
    | inl houter => exact .inr houter
    | inr hkept => exact .inl hkept
  · cases List.mem_cons.mp hafter with
    | inl he =>
      rw [he] at hlt
      exact absurd hlt (Nat.lt_irrefl n)
    | inr hmem =>
      have hgt := hsorted.2.1.1 item.1 (List.mem_map_of_mem hmem)
      omega

end BlockQueue
