import IOSStudy.BlockClient

/-!
# What a program can rely on

Over every run of a program that copies what is in scope and releases what it
was given: nothing it can reach is gone, nothing it cannot reach stays, a block
stays what it is, and a `__block` variable is one variable wherever it lives.
-/
namespace BlockSafety

open Transition BlockFlags BlockRuntime BlockLedger BlockCopy BlockDispose BlockClient

/-- What holds between any two steps. -/
structure Inv (s : Client) : Prop where
  fault : s.crashed = none ∨ s.crashed = some .noMemory
  valid : Valid s.memory (owns s.handles)

section

variable {room : Nat} {s s' : Client} {a : Action}

/-- A step either evolves the memory as the action says or ends the program for want of memory. -/
theorem step_cases (h : Inv s) (hs : (client room).step s a = some s') :
    Inv s' ∧ ((s'.crashed = none ∧ Evolves s.memory s'.memory (written s.memory a)) ∨
      (s'.crashed = some .noMemory ∧ s'.memory = s.memory ∧ s'.handles = s.handles)) := by
  simp only [client, Option.ite_none_right_eq_some, Option.map_eq_some_iff] at hs
  obtain ⟨hrunning, r, hr, rfl⟩ := hs
  have hspec := act_spec h.valid hr
  cases r with
  | ok s' =>
    obtain ⟨hvalid, hcrashed, hevolves⟩ := hspec
    have hgood := hcrashed.trans hrunning
    exact ⟨⟨.inl hgood, hvalid⟩, .inl ⟨hgood, hevolves⟩⟩
  | error e =>
    change e = .noMemory at hspec
    subst hspec
    exact ⟨⟨.inr rfl, h.valid⟩, .inr ⟨rfl, rfl, rfl⟩⟩

theorem inv_start : Inv (client room).initial := by
  refine ⟨.inl rfl, ⟨fun _ _ => rfl, fun a c hc => (by cases hc), ?_⟩, ?_, ⟨fun _ => 0, ?_⟩⟩
  · intro r
    refine ⟨0, Tally.Total.zero fun _ => rfl, ?_⟩
    cases r <;> rfl
  · rintro x ⟨c, hc, _⟩
    cases hc
  · intro x y hy
    cases hy

theorem reachable_inv (h : (client room).Reachable s) : Inv s :=
  h.invariant inv_start fun _ _ _ hi hs => (step_cases hi hs).1

end

/-- A block that assigns to a `__block` variable is copied, the variable assigned
to, and the scope left before the block is released. -/
def mainBlock : List Action :=
  [.declare 32 none (.plain 10), .literal blockUseStret 0 ⟨32, none, none⟩ [.pointer blockFieldIsByref (some 0)],
    .copy 1, .store 0 (.plain 30), .leave 1, .leave 0, .release 2]

theorem block_of_test {m : Memory} {x : Addr} {p : BlockLayout → Bool} (h : (m.block x).toOption.any p = true) :
    ∃ b, m.cell x = some (.block b) ∧ p b = true := by
  unfold Memory.block at h
  split at h
  · next b hb => exact ⟨b, hb, h⟩
  · cases h

theorem byref_of_test {m : Memory} {x : Addr} {p : BlockByref → Bool} (h : (m.byref x).toOption.any p = true) :
    ∃ v, m.cell x = some (.byref v) ∧ p v = true := by
  unfold Memory.byref at h
  split at h
  · next v hv => exact ⟨v, hv, h⟩
  · cases h

/-- What a handle leads to, through the blocks it leads to. -/
inductive Uses (m : Memory) (a : Addr) : Ref → Prop
  | handle : Uses m a (.block a)
  | imported {y : Addr} {b : BlockLayout} {r : Ref} : Uses m a (.block y) → m.cell y = some (.block b) →
      r ∈ b.imported.flatMap refs → Uses m a r

section

variable {m : Memory} {own : Ref → Nat}

/-- A count that is not latched counts references there are. -/
theorem exists_holder (h : Valid m own) {a : Addr} {b : BlockLayout} (hb : m.cell a = some (.block b))
    (hfree : b.flags &&& blockNeedsFree ≠ 0) (hlatch : ¬ Latched b.flags) :
    0 < own (.block a) ∨ ∃ x c, m.cell x = some (.block c) ∧ c.flags &&& blockNeedsFree ≠ 0 ∧
      .block a ∈ c.imported.flatMap refs ∧ .block a ∈ holds x (m.cell x) := by
  obtain ⟨n, htotal, hcounted⟩ := h.sound.ledger (.block a)
  simp only [Counted, hb, flagsOf, if_pos hfree] at hcounted
  have hlive : ¬ Deallocating b.flags := fun hd => h.settled a ⟨_, hb, hfree, .inr hd⟩
  have hpos : own (.block a) + n ≠ 0 := by
    intro hzero
    cases hcounted with
    | inl hl => exact hlatch hl.1
    | inr hr => exact hlive (hr.2.mpr hzero)
  by_cases hown : 0 < own (.block a)
  · exact .inl hown
  · obtain ⟨x, hx⟩ := htotal.exists_pos (by omega)
    have hheld := List.count_pos_iff.mp hx
    have hmem := hheld
    cases hc : m.cell x with
    | none => simp [hc, holds] at hmem
    | some c =>
      cases c with
      | byref v => exact absurd (hc ▸ hmem) block_notMem_byref
      | block c =>
        rw [hc] at hmem
        have hshape : BlockShape c := h.sound.shape x _ hc
        simp only [holds] at hmem
        split at hmem
        · next hfinished => exact .inr ⟨x, c, hc, hshape.finished hfinished.1, hmem, hheld⟩
        · cases hmem

/-- No count is stuck at the mask. -/
def Unlatched (m : Memory) : Prop :=
  ∀ a c, m.cell a = some c → cellFlags c &&& blockNeedsFree ≠ 0 → ¬ Latched (cellFlags c)

/-- On the heap, with a count or with retains that were not released. -/
def Allocated (m : Memory) : Ref → Prop
  | .object o => m.callbacks.count (.releaseObject (some o)) ≠ m.callbacks.count (.retainObject (some o))
  | .block a => ∃ b, m.cell a = some (.block b) ∧ b.flags &&& blockNeedsFree ≠ 0
  | .byref a => ∃ v, m.cell a = some (.byref v) ∧ v.flags &&& blockByrefNeedsFree ≠ 0

/-- A variable in scope has its copy there. -/
def InScope (m : Memory) : Ref → Prop
  | .byref a => ∃ x v, m.cell x = some (.byref v) ∧ v.flags &&& blockByrefNeedsFree = 0 ∧ v.forwarding = a
  | _ => False

/-- Going from a block to one that holds it ends at a handle, since no block holds itself. -/
theorem uses_of_block (h : Valid m own) (hlatch : Unlatched m) {a : Addr} {b : BlockLayout}
    (hb : m.cell a = some (.block b)) (hfree : b.flags &&& blockNeedsFree ≠ 0) :
    ∃ x, 0 < own (.block x) ∧ Uses m x (.block a) := by
  obtain ⟨rank, hrank⟩ := h.ranked
  obtain ⟨top, htop⟩ := exists_above rank (List.range m.next)
  induction hn : top - rank a using Nat.strong_induction_on generalizing a b with
  | _ n ih =>
    rcases exists_holder h hb hfree (hlatch a _ hb hfree) with hown | ⟨x, c, hc, hcfree, hmem, hheld⟩
    · exact ⟨a, hown, .handle⟩
    · have hup := hrank x a hheld
      have hunder := htop x (List.mem_range.mpr (h.sound.lt_next hc))
      obtain ⟨y, hy, huses⟩ := ih (top - rank x) (by omega) hc hcfree rfl
      exact ⟨y, hy, huses.imported hc hmem⟩

/-- What holds a reference is a block on the heap or a variable in scope. -/
theorem holder_cases (h : Valid m own) {x : Addr} {r : Ref} (hx : r ∈ holds x (m.cell x)) :
    (∃ b, m.cell x = some (.block b) ∧ b.flags &&& blockNeedsFree ≠ 0 ∧ r ∈ b.imported.flatMap refs) ∨
      InScope m r := by
  cases hc : m.cell x with
  | none => simp [hc, holds] at hx
  | some c =>
    rw [hc] at hx
    cases c with
    | block b =>
      have hshape : BlockShape b := h.sound.shape x _ hc
      simp only [holds] at hx
      split at hx
      · next hfinished => exact .inl ⟨b, rfl, hshape.finished hfinished.1, hx⟩
      · cases hx
    | byref v =>
      have hshape : ByrefShape x v := h.sound.shape x _ hc
      simp only [holds] at hx
      split at hx
      · cases hx
      · next hforward =>
        rw [List.mem_singleton.mp hx]
        have hstack : v.flags &&& blockByrefNeedsFree = 0 := by
          by_contra hfree
          exact hforward (hshape.heap hfree)
        exact .inr ⟨x, v, hc, hstack, rfl⟩

/-- What is allocated is used from a handle or belongs to a variable in scope. -/
theorem used_of_allocated (h : Valid m own) (hlatch : Unlatched m)
    (hown : ∀ a, own (.object a) = 0 ∧ own (.byref a) = 0) {r : Ref} (hr : Allocated m r) :
    (∃ x, 0 < own (.block x) ∧ Uses m x r) ∨ InScope m r := by
  have hheld : ∀ {q : Ref}, (∃ x, q ∈ holds x (m.cell x)) →
      (∃ x, 0 < own (.block x) ∧ Uses m x q) ∨ InScope m q := by
    rintro q ⟨x, hx⟩
    rcases holder_cases h hx with ⟨b, hb, hfree, hmem⟩ | hscope
    · obtain ⟨y, hy, huses⟩ := uses_of_block h hlatch hb hfree
      exact .inl ⟨y, hy, huses.imported hb hmem⟩
    · exact .inr hscope
  have hpos : ∀ {q : Ref} {n : Nat}, Tally.Total (fun a => (holds a (m.cell a)).count q) n → 0 < n →
      ∃ x, q ∈ holds x (m.cell x) := by
    intro q n htotal hn
    obtain ⟨x, hx⟩ := htotal.exists_pos hn
    exact ⟨x, List.count_pos_iff.mp hx⟩
  obtain ⟨n, htotal, hcounted⟩ := h.sound.ledger r
  cases r with
  | block a =>
    obtain ⟨b, hb, hfree⟩ := hr
    exact .inl (uses_of_block h hlatch hb hfree)
  | object o =>
    simp only [Counted, (hown o).1] at hcounted
    simp only [Allocated] at hr
    exact hheld (hpos htotal (by omega))
  | byref a =>
    obtain ⟨v, hv, hfree⟩ := hr
    simp only [Counted, hv, flagsOf, if_pos hfree, (hown a).2] at hcounted
    have hlive : ¬ Deallocating v.flags := fun hd => h.settled a ⟨_, hv, hfree, hd⟩
    refine hheld (hpos htotal (Nat.pos_of_ne_zero ?_))
    rintro rfl
    cases hcounted with
    | inl hl => exact hlatch a _ hv hfree hl.1
    | inr hexact => exact hlive (hexact.2.mpr rfl)

end

section

variable {room : Nat} {s s' : Client} {a : Action}

/-- The runtime finds no block that is deallocating: that lasts only while the block
is disposed of. -/
theorem never_deallocating {x : Addr} {b : BlockLayout} (h : (client room).Reachable s)
    (hb : s.memory.cell x = some (.block b)) (hfree : b.flags &&& blockNeedsFree ≠ 0) :
    blockIsDeallocating s.memory x = .ok false := by
  have hnot : ¬ Deallocating b.flags := fun hd => (reachable_inv h).valid.settled x ⟨_, hb, hfree, .inr hd⟩
  have hblock : s.memory.block x = .ok b := by rw [Memory.block, hb]
  rw [blockIsDeallocating, hblock]
  have hmark : b.flags &&& blockDeallocating = 0 := not_not.mp hnot
  simp [bind, Except.bind, hmark]

/-- Whatever is on the heap a handle leads to, or a variable in scope: there are
no leaks, not even in circles, unless a count is latched. -/
theorem allocated_used {r : Ref} (h : (client room).Reachable s) (hlatch : Unlatched s.memory)
    (hr : Allocated s.memory r) : (∃ x, 0 < s.handles x ∧ Uses s.memory x r) ∨ InScope s.memory r :=
  used_of_allocated (reachable_inv h).valid hlatch (fun _ => ⟨rfl, rfl⟩) hr

theorem unlatched_of_all (h : Sound s.memory (owns s.handles))
    (hall : (List.range s.memory.next).all (fun a => (s.memory.cell a).all fun c =>
      !decide (Latched (cellFlags c))) = true) : Unlatched s.memory := by
  intro a c hc _
  have ha := List.all_eq_true.mp hall a (List.mem_range.mpr (h.lt_next hc))
  simpa [hc] using ha

theorem allocated_used_main : ∃ s, (client 8).Reachable s ∧ Allocated s.memory (.byref 3) ∧
    ((∃ x, 0 < s.handles x ∧ Uses s.memory x (.byref 3)) ∨ InScope s.memory (.byref 3)) := by
  obtain ⟨s, hs, hp⟩ := System.exists_of_exec (show ((client 8).exec (client 8).initial (mainBlock.take 6)).any
    (fun s => ((List.range s.memory.next).all fun a => (s.memory.cell a).all fun c =>
        !decide (Latched (cellFlags c))) &&
      (s.memory.byref 3).toOption.any fun v => decide (v.flags &&& blockByrefNeedsFree ≠ 0)) = true by decide)
  rw [Bool.and_eq_true] at hp
  obtain ⟨v, hv, hfree⟩ := byref_of_test hp.2
  have hallocated : Allocated s.memory (.byref 3) := ⟨v, hv, of_decide_eq_true hfree⟩
  exact ⟨s, hs, hallocated, allocated_used hs (unlatched_of_all (reachable_inv hs).valid.sound hp.1) hallocated⟩

/-- A block stays the block it is as long as it is there, except for its count. -/
theorem block_constant {as : List Action} {x : Addr} {b : BlockLayout} (h : (client room).Reachable s)
    (hb : s.memory.cell x = some (.block b)) (he : (client room).exec s as = some s') :
    s'.memory.cell x = none ∨
      ∃ w, s'.memory.cell x = some (.block { b with flags := w }) ∧ kind w = kind b.flags := by
  have hstart : Inv s ∧ x < s.memory.next ∧ (s.memory.cell x = none ∨
      ∃ w, s.memory.cell x = some (.block { b with flags := w }) ∧ kind w = kind b.flags) :=
    ⟨reachable_inv h, (reachable_inv h).valid.sound.lt_next hb, .inr ⟨b.flags, hb, rfl⟩⟩
  refine (System.exec_invariant (I := fun t => Inv t ∧ x < t.memory.next ∧ (t.memory.cell x = none ∨
    ∃ w, t.memory.cell x = some (.block { b with flags := w }) ∧ kind w = kind b.flags)) ?_ hstart he).2.2
  rintro t a t' ⟨hinv, hlt, hcell⟩ hs
  obtain ⟨hinv', ⟨_, hevolves⟩ | ⟨_, hsame, _⟩⟩ := step_cases hinv hs
  · refine ⟨hinv', Nat.lt_of_lt_of_le hlt hevolves.next, ?_⟩
    rcases hcell with hnone | ⟨w, hw, hkind⟩
    · exact .inl (hevolves.absent x hlt hnone)
    · rcases hevolves.blocks x _ hw with hgone | ⟨w', hw', hkind'⟩
      · exact .inl hgone
      · exact .inr ⟨w', hw', hkind'.trans hkind⟩
  · rw [hsame]
    exact ⟨hinv', hlt, hcell⟩

theorem block_constant_main : ∃ s s' b, (client 8).Reachable s ∧ s.memory.cell 2 = some (.block b) ∧
    (client 8).exec s [.store 0 (.plain 30), .leave 1, .leave 0] = some s' ∧ (s'.memory.cell 2 = none ∨
      ∃ w, s'.memory.cell 2 = some (.block { b with flags := w }) ∧ kind w = kind b.flags) := by
  obtain ⟨s, hs, hp⟩ := System.exists_of_exec (show ((client 8).exec (client 8).initial (mainBlock.take 3)).any
    (fun s => ((s.memory.block 2).toOption.any fun _ => true) &&
      ((client 8).exec s [.store 0 (.plain 30), .leave 1, .leave 0]).isSome) = true by decide)
  simp only [Bool.and_eq_true, Option.isSome_iff_exists] at hp
  obtain ⟨hblock, s', he⟩ := hp
  obtain ⟨b, hb, _⟩ := block_of_test hblock
  exact ⟨s, s', b, hs, hb, he, block_constant hs hb he⟩

/-- Two `__block` structures are one variable for as long as both are there, or
never are: copies neither split a variable nor join two. -/
theorem sharing_constant {as : List Action} {x y : Addr} (h : (client room).Reachable s)
    (hx : forwardingAt s.memory x ≠ none) (hy : forwardingAt s.memory y ≠ none)
    (he : (client room).exec s as = some s') :
    s'.memory.cell x = none ∨ s'.memory.cell y = none ∨
      (forwardingAt s'.memory x = forwardingAt s'.memory y ↔
        forwardingAt s.memory x = forwardingAt s.memory y) := by
  let There (t : Client) : Prop := forwardingAt t.memory x ≠ none ∧ forwardingAt t.memory y ≠ none ∧
    (forwardingAt t.memory x = forwardingAt t.memory y ↔ forwardingAt s.memory x = forwardingAt s.memory y)
  have hlt : ∀ {z}, forwardingAt s.memory z ≠ none → z < s.memory.next := by
    intro z hz
    obtain ⟨v, hv⟩ := exists_byref hz
    exact (reachable_inv h).valid.sound.lt_next hv
  have hend := System.exec_invariant (I := fun t => Inv t ∧ x < t.memory.next ∧ y < t.memory.next ∧
    (t.memory.cell x = none ∨ t.memory.cell y = none ∨ There t)) ?_
    ⟨reachable_inv h, hlt hx, hlt hy, .inr (.inr ⟨hx, hy, Iff.rfl⟩)⟩ he
  · rcases hend.2.2.2 with hgone | hgone | hthere
    · exact .inl hgone
    · exact .inr (.inl hgone)
    · exact .inr (.inr hthere.2.2)
  rintro t a t' ⟨hinv, hxt, hyt, hcase⟩ hs
  obtain ⟨hinv', ⟨_, hevolves⟩ | ⟨_, hsame, _⟩⟩ := step_cases hinv hs
  · refine ⟨hinv', Nat.lt_of_lt_of_le hxt hevolves.next, Nat.lt_of_lt_of_le hyt hevolves.next, ?_⟩
    rcases hcase with hgone | hgone | ⟨htx, hty, hiff⟩
    · exact .inl (hevolves.absent x hxt hgone)
    · exact .inr (.inl (hevolves.absent y hyt hgone))
    · rcases hevolves.byrefs x htx with hgone | htx'
      · exact .inl hgone
      · rcases hevolves.byrefs y hty with hgone | hty'
        · exact .inr (.inl hgone)
        · exact .inr (.inr ⟨htx', hty', (hevolves.sharing x y htx hty htx' hty').trans hiff⟩)
  · refine ⟨hinv', hsame ▸ hxt, hsame ▸ hyt, ?_⟩
    simpa only [There, hsame] using hcase

theorem sharing_constant_main : ∃ s s', (client 8).Reachable s ∧
    (client 8).exec s [.store 3 (.plain 30), .leave 1] = some s' ∧
    (s'.memory.cell 0 = none ∨ s'.memory.cell 3 = none ∨
      (forwardingAt s'.memory 0 = forwardingAt s'.memory 3 ↔
        forwardingAt s.memory 0 = forwardingAt s.memory 3)) := by
  obtain ⟨s, hs, hp⟩ := System.exists_of_exec (show ((client 8).exec (client 8).initial (mainBlock.take 3)).any
    (fun s => forwardingAt s.memory 0 == some 3 && forwardingAt s.memory 3 == some 3 &&
      ((client 8).exec s [.store 3 (.plain 30), .leave 1]).isSome) = true by decide)
  simp only [Bool.and_eq_true, beq_iff_eq, Option.isSome_iff_exists] at hp
  obtain ⟨⟨hstack, hheap⟩, s', he⟩ := hp
  exact ⟨s, s', hs, he, sharing_constant hs (by simp [hstack]) (by simp [hheap]) he⟩

/-- The action assigns to the variable that the structure at x stands for. -/
def assigns (x : Addr) (s : Client) : Action → Bool
  | .store y _ => forwardingAt s.memory y == forwardingAt s.memory x
  | _ => false

theorem written_of_not_assigns {x : Addr} (h : assigns x s a = false) :
    written s.memory a x = variableAt s.memory x := by
  cases a with
  | store y value =>
    have hne : forwardingAt s.memory x ≠ forwardingAt s.memory y := fun he => by simp [assigns, he] at h
    exact if_neg hne
  | declare | literal | constant | copy | release | tryRetain | leave => rfl

/-- A variable reads what was assigned to it last, through whichever of its
structures, on the stack or on the heap, before or after it moved. -/
theorem reads_last_store {s₁ : Client} {as : List Action} {x y : Addr} {value : Variable}
    (h : (client room).Reachable s) (hs : (client room).step s (.store y value) = some s₁)
    (hx : forwardingAt s.memory x = forwardingAt s.memory y)
    (he : ((client room).restrict fun s a => !assigns x s a).exec s₁ as = some s') :
    s'.memory.cell x = none ∨
      variableAt s'.memory x = (variableAt s.memory y).map (overwrite · value) := by
  have hinv := reachable_inv h
  have hthere : forwardingAt s.memory x ≠ none := by
    intro hnone
    simp only [client, act, ← hx, hnone] at hs
    simp at hs
  let Reads (t : Client) : Prop := forwardingAt t.memory x ≠ none ∧
    variableAt t.memory x = (variableAt s.memory y).map (overwrite · value)
  have hlt : x < s.memory.next := by
    obtain ⟨v, hv⟩ := exists_byref hthere
    exact hinv.valid.sound.lt_next hv
  have hstart : Inv s₁ ∧ x < s₁.memory.next ∧ (s₁.memory.cell x = none ∨ Reads s₁) := by
    obtain ⟨hinv₁, ⟨_, hevolves⟩ | ⟨hcrashed, _, _⟩⟩ := step_cases hinv hs
    · refine ⟨hinv₁, Nat.lt_of_lt_of_le hlt hevolves.next, ?_⟩
      rcases hevolves.byrefs x hthere with hgone | hthere'
      · exact .inl hgone
      · refine .inr ⟨hthere', ?_⟩
        rw [hevolves.reads x hthere hthere', written, if_pos hx]
        simp only [variableAt, hx]
    · simp only [client, act, Option.ite_none_right_eq_some, Option.map_eq_some_iff] at hs
      obtain ⟨hrunning, r, hr, rfl⟩ := hs
      obtain ⟨f, _, hr⟩ := Option.bind_eq_some_iff.mp hr
      split at hr
      · cases hr
        rw [faulty] at hcrashed
        simp [hrunning] at hcrashed
      · cases hr
  have hend := System.exec_invariant (I := fun t => Inv t ∧ x < t.memory.next ∧
    (t.memory.cell x = none ∨ Reads t)) ?_ hstart he
  · exact hend.2.2.imp id And.right
  rintro t a t' ⟨hinv, hxt, hcase⟩ hs
  simp only [System.restrict, Option.ite_none_right_eq_some, Bool.not_eq_true'] at hs
  obtain ⟨huntouched, hs⟩ := hs
  obtain ⟨hinv', ⟨_, hevolves⟩ | ⟨_, hsame, _⟩⟩ := step_cases hinv hs
  · refine ⟨hinv', Nat.lt_of_lt_of_le hxt hevolves.next, ?_⟩
    rcases hcase with hgone | ⟨htx, hreads⟩
    · exact .inl (hevolves.absent x hxt hgone)
    · rcases hevolves.byrefs x htx with hgone | htx'
      · exact .inl hgone
      · refine .inr ⟨htx', ?_⟩
        rw [hevolves.reads x htx htx', written_of_not_assigns huntouched, hreads]
  · refine ⟨hinv', hsame ▸ hxt, ?_⟩
    simpa only [Reads, hsame] using hcase

/-- The stack's structure is assigned to, the heap's is read when the stack's is gone. -/
theorem reads_last_store_main : ∃ s s₁ s', (client 8).Reachable s ∧
    (client 8).step s (.store 0 (.plain 30)) = some s₁ ∧
    ((client 8).restrict fun s a => !assigns 3 s a).exec s₁ [.leave 1, .leave 0] = some s' ∧
    (s'.memory.cell 3 = none ∨
      variableAt s'.memory 3 = (variableAt s.memory 0).map (overwrite · (.plain 30))) := by
  obtain ⟨s, hs, hp⟩ := System.exists_of_exec (show ((client 8).exec (client 8).initial (mainBlock.take 3)).any
    (fun s => forwardingAt s.memory 3 == forwardingAt s.memory 0 &&
      ((client 8).step s (.store 0 (.plain 30))).any fun s₁ =>
        (((client 8).restrict fun s a => !assigns 3 s a).exec s₁ [.leave 1, .leave 0]).isSome) = true by decide)
  simp only [Bool.and_eq_true, beq_iff_eq, Option.any_eq_true, Option.isSome_iff_exists] at hp
  obtain ⟨hsame, s₁, hstep, s', he⟩ := hp
  exact ⟨s, s₁, s', hs, hstep, he, reads_last_store hs hstep hsame he⟩

end

end BlockSafety
