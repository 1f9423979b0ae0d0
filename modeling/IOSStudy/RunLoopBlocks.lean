import IOSStudy.BlockQueue

/-!
# `CFRunLoopPerformBlock` and `__CFRunLoopDoBlocks`

The run loop keeps the blocks in a linked list between two pointers. A pass
takes the whole list, unlocks the loop, and walks it with a pointer to the last
node it left; other threads append to the list of the loop meanwhile, and the
blocks it calls can begin passes of their own.
-/
namespace RunLoopBlocks

open Transition LinkedList BlockQueue

variable {β : Type*}

/-- The variables of one call of `__CFRunLoopDoBlocks`. -/
structure DoBlocks where
  curMode : String
  head : Option Nat
  tail : Option Nat
  prev : Option Nat
  item : Option Nat
  calling : Bool
  did : Bool
  deriving DecidableEq, Repr

/-- malloc never hands out an address twice, so that addresses number the items. -/
structure RunLoop (β : Type*) where
  heap : Heap (Modes × β)
  fresh : Nat
  blocksHead : Option Nat
  blocksTail : Option Nat
  commonModes : List String
  calls : List DoBlocks
  called : List (Nat × β)
  crashed : Bool

def RunLoop.crash (s : RunLoop β) : RunLoop β := { s with crashed := true }

/-- `if (prev) prev->_next = item;` -/
def linkPrev (heap : Heap (Modes × β)) (prev item : Option Nat) : Option (Heap (Modes × β)) :=
  match prev with
  | none => some heap
  | some prev => setNext heap prev item

def performBlock (s : RunLoop β) (modes : Modes) (block : β) : RunLoop β :=
  let newItem := s.fresh
  let heap := Function.update s.heap newItem (some ⟨(modes, block), none⟩)
  match s.blocksTail with
  | none => { s with heap := heap, fresh := newItem + 1, blocksHead := some newItem, blocksTail := some newItem }
  | some tail => match setNext heap tail (some newItem) with
    | none => s.crash
    | some heap => { s with heap := heap, fresh := newItem + 1, blocksTail := some newItem }

def beginDoBlocks (s : RunLoop β) (curMode : String) : RunLoop β :=
  match s.blocksHead with
  | none => s
  | some _ => { s with
      blocksHead := none
      blocksTail := none
      calls := ⟨curMode, s.blocksHead, s.blocksTail, none, s.blocksHead, false, false⟩ :: s.calls }

/-- The body of the loop, up to the call of the block. -/
def iterate (s : RunLoop β) (call : DoBlocks) (calls : List DoBlocks) (curr : Nat) : RunLoop β :=
  match s.heap curr with
  | none => s.crash
  | some ⟨(modes, block), item⟩ =>
    if doit s.commonModes call.curMode modes then
      match linkPrev s.heap call.prev item with
      | none => s.crash
      | some heap =>
        let head := if some curr = call.head then item else call.head
        let tail := if some curr = call.tail then call.prev else call.tail
        { s with
          heap := Function.update heap curr none
          calls := { call with head := head, tail := tail, item := item, calling := true } :: calls
          called := (curr, block) :: s.called }
    else { s with calls := { call with prev := some curr, item := item } :: calls }

/-- What the pass left goes in front of what was added meanwhile. -/
def endDoBlocks (s : RunLoop β) (call : DoBlocks) (calls : List DoBlocks) : RunLoop β :=
  match call.head with
  | none => { s with calls := calls }
  | some head => match call.tail.bind fun tail => setNext s.heap tail s.blocksHead with
    | none => s.crash
    | some heap => { s with
        heap := heap
        blocksHead := some head
        blocksTail := if s.blocksTail = none then call.tail else s.blocksTail
        calls := calls }

def mayCall : List DoBlocks → Bool
  | [] => true
  | call :: _ => call.calling

def runLoop (commonModes : List String) : System (RunLoop β) (Action β) where
  initial := ⟨fun _ => none, 0, none, none, commonModes, [], [], false⟩
  step s a := if s.crashed then none else match a with
    | .performBlock modes block => some (performBlock s modes block)
    | .addCommonMode mode =>
      if s.commonModes.contains mode then some s else some { s with commonModes := mode :: s.commonModes }
    | .doBlocks curMode => if mayCall s.calls then some (beginDoBlocks s curMode) else none
    | .iterate => match s.calls with
      | call :: calls => if call.calling then none else call.item.map (iterate s call calls)
      | [] => none
    | .returned => match s.calls with
      | call :: calls =>
        if call.calling then some { s with calls := { call with calling := false, did := true } :: calls }
        else none
      | [] => none
    | .finish => match s.calls with
      | call :: calls =>
        if call.calling = false ∧ call.item = none then some (endDoBlocks s call calls) else none
      | [] => none

/-- The variables of a call as a pass over a list. -/
structure Holds (heap : Heap (Modes × β)) (call : DoBlocks) (scan : Scan β) : Prop where
  curMode : call.curMode = scan.curMode
  calling : call.calling = scan.calling
  list : Segment heap call.head (scan.kept ++ scan.rest) none
  prev : call.prev = last scan.kept
  item : call.item = first scan.rest
  tail : call.tail = last (scan.kept ++ scan.rest)

/-- The nodes are the items, none is left over. -/
structure Represents (s : RunLoop β) (t : Queue β) : Prop where
  running : s.crashed = false
  fresh : s.fresh = t.count
  commonModes : s.commonModes = t.commonModes
  called : s.called = t.called
  list : Segment s.heap s.blocksHead t.queue none
  tail : s.blocksTail = last t.queue
  calls : List.Forall₂ (Holds s.heap) s.calls t.scans
  only : ∀ a, s.heap a ≠ none → a ∈ addresses (pending t)

theorem Holds.congr {heap heap' : Heap (Modes × β)} {call : DoBlocks} {scan : Scan β} (h : Holds heap call scan)
    (hsame : ∀ a ∈ addresses (scan.kept ++ scan.rest), heap' a = heap a) : Holds heap' call scan :=
  ⟨h.curMode, h.calling, h.list.congr hsame, h.prev, h.item, h.tail⟩

theorem holds_congr {heap heap' : Heap (Modes × β)} {calls : List DoBlocks} {scans : List (Scan β)}
    (h : List.Forall₂ (Holds heap) calls scans) (hsame : ∀ a ∈ addresses (taken scans), heap' a = heap a) :
    List.Forall₂ (Holds heap') calls scans := by
  induction h with
  | nil => exact .nil
  | cons hfirst _ ih =>
    simp only [taken, addresses_append, List.mem_append] at hsame
    refine .cons (hfirst.congr fun a ha => hsame a (.inr ?_)) (ih fun a ha => hsame a (.inl ha))
    simpa using ha

theorem exists_concat {α : Type*} {l : List α} (h : l ≠ []) : ∃ l' x, l = l' ++ [x] :=
  ⟨l.dropLast, l.getLast h, (List.dropLast_append_getLast h).symm⟩

section

variable {s : RunLoop β} {t : Queue β}

theorem performBlock_spec (h : Represents s t) (hnodup : (addresses (pending t)).Nodup)
    (hbelow : ∀ n ∈ addresses (pending t), n < t.count) (modes : Modes) (block : β) :
    Represents (performBlock s modes block)
      { t with count := t.count + 1, queue := t.queue ++ [(t.count, modes, block)] } := by
  have hnew : ∀ a ∈ addresses (pending t), a ≠ s.fresh := by
    intro a ha
    have hlt := hbelow a ha
    have hf := h.fresh
    omega
  have hqueue : ∀ a ∈ addresses t.queue, a ∈ addresses (pending t) := by
    intro a ha
    simp [pending, ha]
  have hscans : ∀ a ∈ addresses (taken t.scans), a ∈ addresses (pending t) := by
    intro a ha
    simp [pending, ha]
  have hpending : ∀ a, a ∈ addresses (pending t) ∨ a = s.fresh →
      a ∈ addresses (pending { t with count := t.count + 1, queue := t.queue ++ [(t.count, modes, block)] }) := by
    intro a ha
    simp only [pending, addresses_append, List.mem_append, addresses_cons, addresses_nil,
      List.mem_singleton] at ha ⊢
    rw [← h.fresh]
    tauto
  let heap := Function.update s.heap s.fresh (some ⟨(modes, block), none⟩)
  have hold : ∀ a, a ≠ s.fresh → heap a = s.heap a := fun a ha => Function.update_of_ne ha _ _
  have hkept : ∀ a ∈ addresses (pending t), heap a = s.heap a := fun a ha => hold a (hnew a ha)
  have hnode : heap s.fresh = some ⟨(modes, block), none⟩ := Function.update_self _ _ _
  have hlist := h.list.congr fun a ha => hkept a (hqueue a ha)
  by_cases hempty : t.queue = []
  · have htail : s.blocksTail = none := by rw [h.tail, hempty, last_nil]
    simp only [performBlock, htail]
    refine ⟨h.running, by simp [h.fresh], h.commonModes, h.called, ?_, by simp [hempty, h.fresh, last], ?_, ?_⟩
    · rw [hempty, ← h.fresh]
      exact ⟨rfl, none, hnode, rfl⟩
    · exact holds_congr h.calls fun a ha => hkept a (hscans a ha)
    · intro a ha
      apply hpending
      by_cases haf : a = s.fresh
      · exact .inr haf
      · exact .inl (h.only a (hold a haf ▸ ha))
  · obtain ⟨l, ⟨b, x⟩, hl⟩ := exists_concat hempty
    have htail : s.blocksTail = some b := by rw [h.tail, hl, last_concat]
    have hb : b ∈ addresses t.queue := by simp [hl]
    have hbl : b ∉ addresses l := by
      simp only [pending, hl, addresses_append, List.nodup_append] at hnodup
      exact fun hmem => hnodup.2.1.2.2 b hmem b (by simp) rfl
    rw [hl] at hlist
    obtain ⟨heap', hset, hheap', hjoined⟩ := hlist.relink hbl (some s.fresh)
    simp only [performBlock, htail, heap, hset] at hset ⊢
    have hothers : ∀ a, a ≠ b → heap' a = heap a := fun a ha => by rw [hheap', Function.update_of_ne ha]
    have hfresh : heap' s.fresh = some ⟨(modes, block), none⟩ :=
      (hothers _ (Ne.symm (hnew b (hqueue b hb)))).trans hnode
    refine ⟨h.running, by simp [h.fresh], h.commonModes, h.called, ?_, by simp [h.fresh], ?_, ?_⟩
    · rw [hl, ← h.fresh]
      exact hjoined.append ⟨rfl, none, hfresh, rfl⟩
    · refine holds_congr h.calls fun a ha => ?_
      have hab : a ≠ b := by
        simp only [pending, addresses_append, List.nodup_append] at hnodup
        exact hnodup.2.2 a ha b hb
      exact (hothers a hab).trans (hkept a (hscans a ha))
    · intro a ha
      apply hpending
      by_cases haf : a = s.fresh
      · exact .inr haf
      · by_cases hab : a = b
        · exact .inl (hab ▸ hqueue b hb)
        · exact .inl (h.only a (((hothers a hab).trans (hold a haf)) ▸ ha))

theorem beginDoBlocks_spec (h : Represents s t) (curMode : String) (hsome : t.queue ≠ []) :
    Represents (beginDoBlocks s curMode)
      { t with queue := [], scans := ⟨curMode, [], t.queue, false⟩ :: t.scans } := by
  have hhead := h.list.first_eq
  obtain ⟨⟨a, x⟩, l, hl⟩ := List.exists_cons_of_ne_nil hsome
  have hs : s.blocksHead = some a := by rw [hhead, hl, first_cons]
  have hbegin : beginDoBlocks s curMode = { s with
      blocksHead := none
      blocksTail := none
      calls := ⟨curMode, s.blocksHead, s.blocksTail, none, s.blocksHead, false, false⟩ :: s.calls } := by
    rw [beginDoBlocks, hs]
  rw [hbegin]
  refine ⟨h.running, h.fresh, h.commonModes, h.called, rfl, rfl, .cons ?_ h.calls, ?_⟩
  · exact ⟨rfl, rfl, h.list, rfl, hhead, h.tail⟩
  · intro a ha
    have hmem := h.only a ha
    simpa [pending, taken] using hmem

theorem beginDoBlocks_empty (h : Represents s t) (curMode : String) (hnone : t.queue = []) :
    beginDoBlocks s curMode = s := by
  have hhead : s.blocksHead = none := by rw [h.list.first_eq, hnone, first_nil]
  rw [beginDoBlocks, hhead]

/-- The pass leaves a node where it is. -/
theorem iterate_keep {call : DoBlocks} {calls : List DoBlocks} {curMode : String} {kept rest : List (Item β)}
    {scans : List (Scan β)} {n : Nat} {modes : Modes} {block : β} (h : Represents s t)
    (hcalls : s.calls = call :: calls)
    (hscans : t.scans = ⟨curMode, kept, (n, modes, block) :: rest, false⟩ :: scans)
    (hno : doit t.commonModes curMode modes = false) :
    Represents (iterate s call calls n)
      { t with scans := ⟨curMode, kept ++ [(n, modes, block)], rest, false⟩ :: scans } := by
  have hall := h.calls
  rw [hcalls, hscans] at hall
  cases hall with
  | cons hfirst hrest =>
    obtain ⟨m, _, hp, item, hitem, hafter⟩ := hfirst.list.split
    rw [iterate, hitem]
    simp only [h.commonModes, hfirst.curMode, hno, Bool.false_eq_true, ite_false]
    refine ⟨h.running, h.fresh, rfl, h.called, h.list, h.tail, .cons ?_ hrest, ?_⟩
    · exact ⟨rfl, hfirst.calling, by simpa using hfirst.list, by simp, hafter.first_eq, by simpa using hfirst.tail⟩
    · intro a ha
      have hmem := h.only a ha
      simpa [pending, taken, hscans] using hmem

/-- The pass takes a node out of the list. -/
theorem linkPrev_spec {heap : Heap (Modes × β)} {p item : Option Nat} {kept rest : List (Item β)} {n : Nat}
    {x : Modes × β} (h : Segment heap p (kept ++ (n, x) :: rest) none) (hnode : heap n = some ⟨x, item⟩)
    (hnodup : (addresses (kept ++ (n, x) :: rest)).Nodup) :
    ∃ heap', linkPrev heap (last kept) item = some heap' ∧
      Segment (Function.update heap' n none) (if some n = p then item else p) (kept ++ rest) none ∧
      ∀ a, a ∉ addresses kept → heap' a = heap a := by
  rw [addresses_append, addresses_cons, List.nodup_append, List.nodup_cons] at hnodup
  obtain ⟨hkeptnodup, ⟨hnrest, _⟩, hdisjoint⟩ := hnodup
  have hnkept : n ∉ addresses kept := fun hmem => hdisjoint n hmem n List.mem_cons_self rfl
  by_cases hempty : kept = []
  · subst hempty
    obtain ⟨hp, item', hitem', hrest⟩ := h
    rw [hnode] at hitem'
    cases hitem'
    refine ⟨heap, rfl, ?_, fun _ _ => rfl⟩
    rw [hp, if_pos rfl]
    exact hrest.update _ hnrest
  · obtain ⟨l, ⟨b, y⟩, rfl⟩ := exists_concat hempty
    have hbl : b ∉ addresses l := by
      rw [addresses_append, List.nodup_append] at hkeptnodup
      exact fun hmem => hkeptnodup.2.2 b hmem b (by simp) rfl
    have hbrest : b ∉ addresses rest :=
      fun hmem => hdisjoint b (by simp) b (List.mem_cons_of_mem _ hmem) rfl
    obtain ⟨heap', hset, hheap', hjoined⟩ := h.unlink hnode hbl hbrest
    have hp : some n ≠ p := by
      obtain ⟨m, hfirst, _⟩ := h.split
      cases l with
      | nil =>
        rw [hfirst.1]
        intro he
        cases he
        simp at hnkept
      | cons z l =>
        rw [hfirst.1]
        intro he
        cases he
        exact hnkept List.mem_cons_self
    refine ⟨heap', by rw [last_concat]; exact hset, ?_, ?_⟩
    · rw [if_neg hp]
      refine hjoined.update _ ?_
      rw [addresses_append, List.mem_append]
      exact fun hmem => hmem.elim hnkept hnrest
    · intro a ha
      have hab : a ≠ b := fun he => ha (by simp [he])
      rw [hheap', Function.update_of_ne hab]

theorem iterate_call {call : DoBlocks} {calls : List DoBlocks} {curMode : String} {kept rest : List (Item β)}
    {scans : List (Scan β)} {n : Nat} {modes : Modes} {block : β} (h : Represents s t)
    (hnodup : (addresses (pending t)).Nodup) (hcalls : s.calls = call :: calls)
    (hscans : t.scans = ⟨curMode, kept, (n, modes, block) :: rest, false⟩ :: scans)
    (hdo : doit t.commonModes curMode modes = true) :
    Represents (iterate s call calls n)
      { t with scans := ⟨curMode, kept, rest, true⟩ :: scans, called := (n, block) :: t.called } := by
  have hall := h.calls
  rw [hcalls, hscans] at hall
  have hsplit : addresses (pending t) =
      addresses (taken scans) ++ addresses (kept ++ (n, modes, block) :: rest) ++ addresses t.queue := by
    simp [pending, hscans, taken]
  rw [hsplit, List.nodup_append, List.nodup_append] at hnodup
  obtain ⟨⟨_, hown, houter⟩, _, hqueue⟩ := hnodup
  cases hall with
  | cons hfirst hrest =>
    obtain ⟨m, _, hp, item, hitem, hafter⟩ := hfirst.list.split
    obtain ⟨heap', hlink, hlist, hothers⟩ := linkPrev_spec hfirst.list hitem hown
    have hn : n ∈ addresses (kept ++ (n, modes, block) :: rest) := by simp
    have hsame : ∀ a, a ∉ addresses (kept ++ (n, modes, block) :: rest) →
        Function.update heap' n none a = s.heap a := by
      intro a ha
      have han : a ≠ n := by
        rintro rfl
        exact ha hn
      rw [Function.update_of_ne han]
      exact hothers a fun hmem => ha (by simp [hmem])
    simp only [iterate, hitem, h.commonModes, hfirst.curMode, hdo, ite_true, hfirst.prev, hlink]
    have htail : (if some n = call.tail then last kept else call.tail) = last (kept ++ rest) := by
      rw [hfirst.tail]
      by_cases hnil : rest = []
      · subst hnil
        rw [last_concat, if_pos rfl, List.append_nil]
      · obtain ⟨l, ⟨b, y⟩, rfl⟩ := exists_concat hnil
        have hb : n ≠ b := by
          rw [addresses_append, addresses_cons, List.nodup_append, List.nodup_cons] at hown
          exact fun he => hown.2.1.1 (by simp [he])
        have hsame : kept ++ (n, modes, block) :: (l ++ [(b, y)]) =
            (kept ++ (n, modes, block) :: l) ++ [(b, y)] := by simp
        rw [hsame, last_concat, if_neg (by simpa using hb), ← List.append_assoc, last_concat]
    refine ⟨h.running, h.fresh, rfl, by rw [h.called], ?_, h.tail, .cons ?_ ?_, ?_⟩
    · exact h.list.congr fun a ha => hsame a fun hmem => hqueue a (List.mem_append_right _ hmem) a ha rfl
    · exact ⟨rfl, rfl, hlist, rfl, hafter.first_eq, htail⟩
    · exact holds_congr hrest fun a ha => hsame a fun hmem => houter a ha a hmem rfl
    · intro a ha
      have han : a ≠ n := fun he => ha (by simp [he])
      have hthere : s.heap a ≠ none := by
        by_cases hmem : a ∈ addresses kept
        · obtain ⟨⟨b, y⟩, hy, rfl⟩ := List.mem_map.mp hmem
          obtain ⟨m', hm'⟩ := hfirst.list.node (List.mem_append_left _ hy)
          rw [hm']
          exact Option.some_ne_none _
        · have hkeep := hothers a hmem
          rw [← hkeep]
          simpa [han] using ha
      have hmem := h.only a hthere
      rw [hsplit] at hmem
      simp only [addresses_append, addresses_cons, List.mem_append, List.mem_cons] at hmem
      simp only [pending, taken, addresses_append, List.mem_append]
      tauto

theorem endDoBlocks_spec {call : DoBlocks} {calls : List DoBlocks} {curMode : String} {kept : List (Item β)}
    {scans : List (Scan β)} (h : Represents s t) (hnodup : (addresses (pending t)).Nodup)
    (hcalls : s.calls = call :: calls) (hscans : t.scans = ⟨curMode, kept, [], false⟩ :: scans) :
    Represents (endDoBlocks s call calls) { t with queue := kept ++ t.queue, scans := scans } := by
  have hall := h.calls
  rw [hcalls, hscans] at hall
  have hpending : pending { t with queue := kept ++ t.queue, scans := scans } = pending t := by
    simp [pending, hscans, taken]
  have hsplit : addresses (pending t) = addresses (taken scans) ++ (addresses kept ++ addresses t.queue) := by
    simp [pending, hscans, taken]
  rw [hsplit, List.nodup_append, List.nodup_append] at hnodup
  obtain ⟨_, ⟨hown, _, hqueue⟩, houter⟩ := hnodup
  cases hall with
  | cons hfirst hrest =>
    have hlist := hfirst.list
    have htail := hfirst.tail
    simp only [List.append_nil] at hlist htail
    by_cases hempty : kept = []
    · subst hempty
      have hhead : call.head = none := hlist
      simp only [endDoBlocks, hhead]
      exact ⟨h.running, h.fresh, h.commonModes, h.called, h.list, h.tail, hrest, hpending ▸ h.only⟩
    · obtain ⟨l, ⟨b, y⟩, hl⟩ := exists_concat hempty
      have hb : b ∈ addresses kept := by simp [hl]
      have hbl : b ∉ addresses l := by
        rw [hl, addresses_append, List.nodup_append] at hown
        exact fun hmem => hown.2.2 b hmem b (by simp) rfl
      have hhead : ∃ a, call.head = some a := by
        obtain ⟨z, l', hz⟩ := List.exists_cons_of_ne_nil hempty
        rw [hlist.first_eq, hz]
        exact ⟨z.1, rfl⟩
      obtain ⟨a, ha⟩ := hhead
      rw [hl, last_concat] at htail
      rw [hl] at hlist
      obtain ⟨heap', hset, hheap', hjoined⟩ := hlist.relink hbl s.blocksHead
      have hothers : ∀ c, c ≠ b → heap' c = s.heap c := fun c hc => by rw [hheap', Function.update_of_ne hc]
      have hend : endDoBlocks s call calls = { s with
          heap := heap'
          blocksHead := call.head
          blocksTail := if s.blocksTail = none then call.tail else s.blocksTail
          calls := calls } := by
        rw [endDoBlocks, ha, htail, Option.bind_some, hset]
      rw [hend]
      refine ⟨h.running, h.fresh, h.commonModes, h.called, ?_, ?_, ?_, ?_⟩
      · rw [hl]
        refine hjoined.append (h.list.congr fun c hc => hothers c ?_)
        rintro rfl
        exact hqueue c hb c hc rfl
      · change (if s.blocksTail = none then call.tail else s.blocksTail) = last (kept ++ t.queue)
        rw [htail, h.tail]
        by_cases hq : t.queue = []
        · rw [hq, last_nil, if_pos rfl, List.append_nil, hl, last_concat]
        · obtain ⟨l', ⟨d, z⟩, hl'⟩ := exists_concat hq
          rw [last_append _ _ hq, hl', last_concat, if_neg (Option.some_ne_none d)]
      · refine holds_congr hrest fun c hc => hothers c ?_
        rintro rfl
        exact houter c hc c (List.mem_append_left _ hb) rfl
      · intro c hc
        rw [hpending]
        by_cases hcb : c = b
        · rw [hcb, hsplit]
          exact List.mem_append_right _ (List.mem_append_left _ hb)
        · exact h.only c (hothers c hcb ▸ hc)

theorem mayCall_eq (h : Represents s t) : mayCall s.calls = mayBegin t.scans := by
  have hall := h.calls
  revert hall
  generalize s.calls = calls
  generalize t.scans = scans
  intro hall
  cases hall with
  | nil => rfl
  | cons hfirst _ => exact hfirst.calling

/-- The code does what the queue does. -/
theorem represents_step {commonModes : List String} {s' : RunLoop β} {a : Action β}
    (ht : (queue commonModes).Reachable t) (h : Represents s t) (hs : (runLoop commonModes).step s a = some s') :
    ∃ t', (queue commonModes).step t a = some t' ∧ Represents s' t' := by
  obtain ⟨hist, hrun⟩ := ht
  have horderly := run_orderly hrun
  have hnodup : (addresses (pending t)).Nodup := horderly.sorted.imp fun hlt => Nat.ne_of_lt hlt
  have hrunning : ¬ s.crashed = true := by simp [h.running]
  simp only [runLoop, if_neg hrunning] at hs
  have hall := h.calls
  cases a with
  | performBlock modes block =>
    cases hs
    exact ⟨_, rfl, performBlock_spec h hnodup horderly.below modes block⟩
  | addCommonMode mode =>
    dsimp only at hs
    rw [h.commonModes] at hs
    simp only [queue]
    split at hs
    · next hin =>
      cases hs
      exact ⟨t, by rw [if_pos hin], h⟩
    · next hout =>
      cases hs
      rw [if_neg hout]
      exact ⟨_, rfl, h.running, h.fresh, rfl, h.called, h.list, h.tail, h.calls, h.only⟩
  | doBlocks curMode =>
    dsimp only at hs
    rw [mayCall_eq h] at hs
    split at hs
    · next hmay =>
      cases hs
      simp only [queue, hmay, ite_true]
      by_cases hempty : t.queue = []
      · rw [beginDoBlocks_empty h curMode hempty]
        exact ⟨t, by rw [if_pos hempty], h⟩
      · exact ⟨_, by rw [if_neg hempty], beginDoBlocks_spec h curMode hempty⟩
    · cases hs
  | iterate =>
    dsimp only at hs
    split at hs
    · next call calls hcalls =>
      rw [hcalls] at hall
      obtain ⟨⟨curMode, kept, rest, calling⟩, scans, hfirst, _, hscans⟩ := List.forall₂_cons_left_iff.mp hall
      split at hs
      · cases hs
      · next hidle =>
        obtain ⟨n, hn, hs⟩ := Option.map_eq_some_iff.mp hs
        have hcalling : calling = false := by
          rw [← show call.calling = calling from hfirst.calling]
          simpa using hidle
        subst hcalling
        have hrest : ∃ modes block rest', rest = (n, modes, block) :: rest' := by
          have hitem : call.item = first rest := hfirst.item
          rw [hn] at hitem
          cases rest with
          | nil => cases hitem
          | cons y rest' =>
            cases hitem
            exact ⟨y.2.1, y.2.2, rest', rfl⟩
        obtain ⟨modes, block, rest', rfl⟩ := hrest
        simp only [queue, hscans]
        cases hdo : doit t.commonModes curMode modes with
        | true => exact ⟨_, rfl, hs ▸ iterate_call h hnodup hcalls hscans hdo⟩
        | false => exact ⟨_, rfl, hs ▸ iterate_keep h hcalls hscans hdo⟩
    · cases hs
  | returned =>
    dsimp only at hs
    split at hs
    · next call calls hcalls =>
      rw [hcalls] at hall
      obtain ⟨⟨curMode, kept, rest, calling⟩, scans, hfirst, hrest, hscans⟩ := List.forall₂_cons_left_iff.mp hall
      split at hs
      · next hin =>
        cases hs
        have hcalling : calling = true := by
          rw [← show call.calling = calling from hfirst.calling]
          exact hin
        subst hcalling
        simp only [queue, hscans]
        refine ⟨_, rfl, h.running, h.fresh, h.commonModes, h.called, h.list, h.tail, .cons ?_ hrest, ?_⟩
        · exact ⟨hfirst.curMode, rfl, hfirst.list, hfirst.prev, hfirst.item, hfirst.tail⟩
        · intro a ha
          have hmem := h.only a ha
          simpa [pending, taken, hscans] using hmem
      · cases hs
    · cases hs
  | finish =>
    dsimp only at hs
    split at hs
    · next call calls hcalls =>
      rw [hcalls] at hall
      obtain ⟨⟨curMode, kept, rest, calling⟩, scans, hfirst, _, hscans⟩ := List.forall₂_cons_left_iff.mp hall
      split at hs
      · next hend =>
        cases hs
        have hcalling : calling = false := by
          rw [← show call.calling = calling from hfirst.calling]
          exact hend.1
        have hrest : rest = [] := by
          have hitem : call.item = first rest := hfirst.item
          rw [hend.2] at hitem
          cases rest with
          | nil => rfl
          | cons y rest' => cases hitem
        subst hcalling hrest
        simp only [queue, hscans]
        exact ⟨_, rfl, endDoBlocks_spec h hnodup hcalls hscans⟩
      · cases hs
    · cases hs

theorem represents_start (commonModes : List String) :
    Represents (runLoop (β := β) commonModes).initial (queue commonModes).initial :=
  ⟨rfl, rfl, rfl, rfl, rfl, rfl, .nil, fun _ ha => absurd rfl ha⟩

theorem run_represents {commonModes : List String} {h : List (RunLoop β × Action β)}
    (r : (runLoop commonModes).Run h s) :
    ∃ h' t, (queue commonModes).Run h' t ∧ Represents s t ∧ h'.map Prod.snd = h.map Prod.snd :=
  r.lockstep (represents_start commonModes) fun _ _ _ _ ht hrel hs => represents_step ht hrel hs

theorem Represents.node (h : Represents s t) {item : Item β} (hitem : item ∈ pending t) :
    ∃ next, s.heap item.1 = some ⟨item.2, next⟩ := by
  rw [pending, List.mem_append] at hitem
  cases hitem with
  | inr hqueue => exact h.list.node hqueue
  | inl htaken =>
    have hall := h.calls
    revert hall htaken
    generalize s.calls = calls
    generalize t.scans = scans
    intro htaken hall
    induction hall with
    | nil => cases htaken
    | @cons call scan _ _ hfirst _ ih =>
      rw [taken, List.mem_append] at htaken
      cases htaken with
      | inl houter => exact ih houter
      | inr hown => exact hfirst.list.node hown

/-- The nodes are the items that wait. -/
theorem Represents.node_iff (h : Represents s t) (n : Nat) (x : Modes × β) :
    (∃ next, s.heap n = some ⟨x, next⟩) ↔ (n, x) ∈ pending t := by
  refine ⟨fun hnode => ?_, fun hitem => h.node hitem⟩
  obtain ⟨next, hnext⟩ := hnode
  obtain ⟨item, hitem, he⟩ := List.mem_map.mp (h.only n (by simp [hnext]))
  obtain ⟨next', hnext'⟩ := h.node hitem
  rw [he, hnext] at hnext'
  cases hnext'
  rw [← he]
  exact hitem

end

/-- No pass follows a null or a freed pointer, whatever is submitted meanwhile
and however the passes are nested, and what the run loop and the passes hold are
the lists of the queue and no other node. -/
theorem refines_queue {commonModes : List String} {h : List (RunLoop β × Action β)} {s : RunLoop β}
    (r : (runLoop commonModes).Run h s) : s.crashed = false ∧
      ∃ h' t, (queue commonModes).Run h' t ∧ h'.map Prod.snd = h.map Prod.snd ∧ Represents s t := by
  obtain ⟨h', t, ht, hrep, hactions⟩ := run_represents r
  exact ⟨hrep.running, h', t, ht, hactions, hrep⟩

/-- In the pass for one mode a block begins a pass for the mode of a block that
the outer one has left. -/
def nested : List (Action Nat) :=
  [.performBlock (.name "default") 10, .performBlock (.set ["tracking"]) 11, .doBlocks "tracking",
    .iterate, .iterate, .performBlock (.name kCFRunLoopCommonModes) 12, .doBlocks "default"]

theorem refines_queue_nested : ∃ s : RunLoop Nat, (runLoop ["default"]).Reachable s ∧
    s.called = [(1, 11)] ∧ s.crashed = false := by
  obtain ⟨s, ⟨h, r⟩, hp⟩ := System.exists_of_exec (show ((runLoop ["default"]).exec
    (runLoop ["default"]).initial nested).any (fun s => s.called == [(1, 11)]) = true by decide)
  exact ⟨s, ⟨h, r⟩, by simpa using hp, (refines_queue r).1⟩

/-- A block that was submitted is called once or is still in a node, and no
other block is called. -/
theorem called_once {commonModes : List String} {h : List (RunLoop β × Action β)} {s : RunLoop β}
    (r : (runLoop commonModes).Run h s) : (s.called.map Prod.fst).Nodup ∧ ∀ n block,
      (n, block) ∈ submitted (h.map Prod.snd) ↔
        ((n, block) ∈ s.called ∧ s.heap n = none) ∨
          (n ∉ s.called.map Prod.fst ∧ ∃ modes next, s.heap n = some ⟨(modes, block), next⟩) := by
  obtain ⟨h', t, ht, hrep, hactions⟩ := run_represents r
  have horderly := run_orderly ht
  have hnodup := horderly.nodup
  rw [← hrep.called, List.nodup_append] at hnodup
  obtain ⟨hcalled, _, hapart⟩ := hnodup
  refine ⟨hcalled, fun n block => ?_⟩
  have hall := horderly.all.mem_iff (a := (n, block))
  rw [hactions, ← hrep.called, List.mem_append] at hall
  rw [← hall]
  constructor
  · rintro (hdone | hwaiting)
    · refine .inl ⟨hdone, ?_⟩
      by_contra hnode
      exact hapart n (List.mem_map_of_mem hdone) n (hrep.only n hnode) rfl
    · obtain ⟨⟨m, modes, b⟩, hitem, he⟩ := List.mem_map.mp hwaiting
      cases he
      refine .inr ⟨fun hdone => ?_, modes, hrep.node hitem⟩
      exact hapart m hdone m (List.mem_map_of_mem hitem) rfl
  · rintro (⟨hdone, _⟩ | ⟨_, modes, hnode⟩)
    · exact .inl hdone
    · exact .inr (List.mem_map.mpr ⟨(n, modes, block), (hrep.node_iff n (modes, block)).mp hnode, rfl⟩)

theorem called_once_nested : ∃ (h : List (RunLoop Nat × Action Nat)) (s : RunLoop Nat),
    (runLoop ["default"]).Run h s ∧ s.called.length = 1 ∧ (s.called.map Prod.fst).Nodup := by
  obtain ⟨s, ⟨h, r⟩, hp⟩ := System.exists_of_exec (show ((runLoop ["default"]).exec
    (runLoop ["default"]).initial nested).any (fun s => s.called.length == 1) = true by decide)
  exact ⟨h, s, r, by simpa using hp, (called_once r).1⟩

theorem taken_list {heap : Heap (Modes × β)} {calls : List DoBlocks} {scans : List (Scan β)}
    (h : List.Forall₂ (Holds heap) calls scans) {item : Item β} (hitem : item ∈ taken scans) :
    ∃ call ∈ calls, ∃ l, Segment heap call.head l none ∧ item ∈ l := by
  induction h with
  | nil => cases hitem
  | @cons call scan _ _ hfirst _ ih =>
    rw [taken, List.mem_append] at hitem
    cases hitem with
    | inl houter =>
      obtain ⟨call', hcall', hl⟩ := ih houter
      exact ⟨call', List.mem_cons_of_mem _ hcall', hl⟩
    | inr hown => exact ⟨call, List.mem_cons_self, _, hfirst.list, hown⟩

theorem run_refused {commonModes : List String} {h : List (Queue β × Action β)} {t : Queue β}
    (r : (queue commonModes).Run h t) (hfixed : ∀ a ∈ h.map Prod.snd, addsCommonMode a = false) :
    Refused t := by
  induction r with
  | start =>
    intro scan hscan
    cases hscan
  | fire _ hf ih =>
    rw [List.map_cons, List.forall_mem_cons] at hfixed
    exact refused_step (ih hfixed.2) hfixed.1 (fires_of_step hf)

/-- While no mode becomes a common mode, a pass calls the blocks for its mode in
the order in which they were submitted: an older one that still waits is in the
list of a pass that encloses it. -/
theorem called_in_order {commonModes : List String} {h : List (RunLoop β × Action β)} {s : RunLoop β}
    (r : (runLoop commonModes).Run h s) (hfixed : System.Meets (fun _ a => addsCommonMode a = false) h)
    {call : DoBlocks} {calls : List DoBlocks} {n : Nat} (hcalls : s.calls = call :: calls)
    (hn : call.item = some n) (m : Nat) (modes : Modes) (block : β) (next : Option Nat) (hlt : m < n)
    (hnode : s.heap m = some ⟨(modes, block), next⟩) (hdo : doit s.commonModes call.curMode modes = true) :
    ∃ outer ∈ calls, ∃ l, Segment s.heap outer.head l none ∧ m ∈ addresses l := by
  obtain ⟨h', t, ht, hrep, hactions⟩ := run_represents r
  have hall := hrep.calls
  rw [hcalls] at hall
  obtain ⟨⟨curMode, kept, rest, calling⟩, scans, hfirst, houter, hscans⟩ := List.forall₂_cons_left_iff.mp hall
  have hitem : (m, modes, block) ∈ pending t := (hrep.node_iff m (modes, block)).mp ⟨next, hnode⟩
  have hrest : ∃ x rest', rest = (n, x) :: rest' := by
    have hfirstitem : call.item = first rest := hfirst.item
    rw [hn] at hfirstitem
    cases rest with
    | nil => cases hfirstitem
    | cons y rest' =>
      cases hfirstitem
      exact ⟨y.2, rest', rfl⟩
  obtain ⟨x, rest', rfl⟩ := hrest
  have hrefused : Refused t := by
    apply run_refused ht
    rw [hactions]
    intro a ha
    obtain ⟨p, hp, rfl⟩ := List.mem_map.mp ha
    exact hfixed p hp
  cases older_cases (run_orderly ht) hscans hitem hlt with
  | inl hkept =>
    have hno := hrefused ⟨curMode, kept, (n, x) :: rest', calling⟩ (by simp [hscans]) _ hkept
    rw [← hrep.commonModes] at hno
    rw [hfirst.curMode, hno] at hdo
    cases hdo
  | inr htaken =>
    obtain ⟨outer, hmem, l, hl, hin⟩ := taken_list houter htaken
    exact ⟨outer, hmem, l, hl, List.mem_map_of_mem hin⟩

theorem called_in_order_nested : ∃ (s : RunLoop Nat) (call : DoBlocks) (calls : List DoBlocks),
    (runLoop ["default"]).Reachable s ∧ s.calls = call :: calls ∧ call.item = some 2 ∧
      ∃ outer ∈ calls, ∃ l, Segment s.heap outer.head l none ∧ 0 ∈ addresses l := by
  have hrun : ((((runLoop ["default"]).restrict fun _ a => !addsCommonMode a).exec
      (runLoop ["default"]).initial nested).any fun s : RunLoop Nat =>
        s.calls.map DoBlocks.item == [some 2, none] && s.calls.map DoBlocks.curMode == ["default", "tracking"] &&
          s.heap 0 == some ⟨(.name "default", 10), none⟩) = true := by decide
  obtain ⟨h, s, r, hm, hp⟩ := System.exists_run_of_exec hrun
  simp only [Bool.and_eq_true, beq_iff_eq] at hp
  obtain ⟨⟨hitems, hmodes⟩, hnode⟩ := hp
  cases hcalls : s.calls with
  | nil => simp [hcalls] at hitems
  | cons call calls =>
    rw [hcalls, List.map_cons, List.cons.injEq] at hitems hmodes
    have hfixed := hm.mono (D := fun _ a => addsCommonMode a = false) fun _ a ha => by simpa using ha
    have hdo : doit s.commonModes call.curMode (.name "default") = true := by rw [hmodes.1]; rfl
    exact ⟨s, call, calls, ⟨h, r⟩, hcalls, hitems.1,
      called_in_order r hfixed hcalls hitems.1 0 _ _ _ (by decide) hnode hdo⟩

end RunLoopBlocks
