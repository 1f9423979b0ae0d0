import Mathlib.Data.Finset.Card
import Mathlib.Order.Monotone.Basic
import IOSStudy.BlockCopy
import IOSStudy.BlockDispose
import IOSStudy.Transition

/-!
# A program that uses blocks

What the compiler makes of a program with block literals and `__block`
variables: structures on the stack, calls of the runtime for each copy and
release, and a dispose of each `__block` variable at the end of its scope. The
program keeps to two rules only, to copy what is in scope and to release what
it was given.
-/
namespace BlockClient

open Transition BlockFlags BlockRuntime BlockLedger BlockCopy BlockDispose

/-- The handles are the blocks the runtime handed out, with how often they are to be released. -/
structure Client where
  memory : Memory
  handles : Addr → Nat
  crashed : Option Fault

inductive Action where
  | declare (size : Nat) (layout : Option String) (contents : Variable)
  | literal (said : Word) (invoke : Nat) (descriptor : Descriptor) (captured : List Variable)
  | constant (said : Word) (invoke : Nat) (descriptor : Descriptor)
  | copy (a : Addr)
  | release (a : Addr)
  | tryRetain (a : Addr)
  | store (x : Addr) (value : Variable)
  | leave (x : Addr)
  deriving DecidableEq, Repr

def isPointer : Variable → Bool
  | .plain _ => false
  | .pointer _ _ => true

/-- The flags in the initializer of a `__block` structure. -/
def byrefFlags (layout : Option String) (contents : Variable) : Word :=
  (if isPointer contents then blockByrefHasCopyDispose else 0) |||
    (if layout.isSome then blockByrefLayoutExtended else 0)

/-- What the compiler says of the signature of a block. -/
def signatureFlags (said : Word) : Word :=
  said &&& (blockUseStret ||| blockHasSignature ||| blockHasExtendedLayout)

/-- The flags in the constructor of a block, which has helpers when it captures a pointer. -/
def literalFlags (said : Word) (captured : List Variable) : Word :=
  (if captured.any isPointer then blockHasCopyDispose else 0) ||| signatureFlags said

/-- The constructor takes a `__block` variable through its forwarding pointer. -/
def capture (m : Memory) : Variable → Option Variable
  | .plain n => some (.plain n)
  | .pointer flags o => match fieldKind flags with
    | .byref => o.bind fun a => (forwardingAt m a).map fun f => .pointer flags (some f)
    | _ => some (.pointer flags o)

/-- A helper of a `__block` structure passes `BLOCK_BYREF_CALLER`. -/
def declarable : Variable → Bool
  | .plain _ => true
  | .pointer flags _ => fieldKind flags == .byrefCaller

def Memory.push (m : Memory) (c : Cell) : Memory :=
  { m with cell := Function.update m.cell m.next (some c), next := m.next + 1 }

def Memory.pop (m : Memory) (a : Addr) : Memory := { m with cell := Function.update m.cell a none }

/-- `x->forwarding->x = value` -/
def overwrite : Variable → Variable → Variable
  | .plain _, .plain n => .plain n
  | .pointer flags _, .pointer _ o => .pointer flags o
  | old, _ => old

/-- More calls inside each other than there are addresses are not needed. -/
def fuel (m : Memory) : Nat := m.next + 2

def onStack (m : Memory) (a : Addr) : Bool := match m.cell a with
  | some (.block b) => b.flags &&& blockNeedsFree = 0 && b.flags &&& blockIsGlobal = 0
  | some (.byref v) => v.flags &&& blockByrefNeedsFree = 0
  | none => false

/-- The end of the scope of a `__block` variable. -/
def leaveScope (m : Memory) (x : Addr) : Except Fault Memory := do
  let m ← match m.cell x with
    | some (.byref _) => objectDispose (fuel m) m (some x) blockFieldIsByref
    | _ => .ok m
  .ok (Memory.pop m x)

def faulty (s : Client) : Except Fault Client → Client
  | .ok s' => s'
  | .error e => { s with crashed := some e }

def act (s : Client) : Action → Option (Except Fault Client)
  | .declare size layout contents =>
    if declarable contents then
      let v : BlockByref := ⟨.null, s.memory.next, byrefFlags layout contents, size, layout, contents⟩
      some (.ok { s with memory := Memory.push s.memory (.byref v) })
    else none
  | .literal said invoke descriptor captured => (captured.mapM (capture s.memory)).map fun imported =>
      let b : BlockLayout := ⟨.stackBlock, literalFlags said imported, invoke, descriptor, imported⟩
      .ok { s with memory := Memory.push s.memory (.block b) }
  | .constant said invoke descriptor =>
    let b : BlockLayout := ⟨.globalBlock, blockIsGlobal ||| signatureFlags said, invoke, descriptor, []⟩
    some (.ok { s with memory := Memory.push s.memory (.block b) })
  | .copy a =>
    if copyable s.memory (fuel s.memory) a then some do
      let (result, m) ← blockCopy (objectAssign (fuel s.memory)) s.memory (some a)
      let handles := match result with
        | some r => Function.update s.handles r (s.handles r + 1)
        | none => s.handles
      .ok { s with memory := m, handles := handles }
    else none
  | .release a =>
    if 0 < s.handles a then some do
      let m ← blockRelease (objectDispose (fuel s.memory)) s.memory (some a)
      .ok { s with memory := m, handles := Function.update s.handles a (s.handles a - 1) }
    else none
  | .tryRetain a => match s.memory.cell a with
    | some (.block b) =>
      if b.flags &&& blockNeedsFree ≠ 0 then some do
        let (retained, m) ← blockTryRetain s.memory a
        let handles := if retained then Function.update s.handles a (s.handles a + 1) else s.handles
        .ok { s with memory := m, handles := handles }
      else none
    | _ => none
  | .store x value => (forwardingAt s.memory x).bind fun f => match s.memory.cell f with
    | some (.byref v) => some (.ok { s with
        memory := s.memory.set f (.byref { v with contents := overwrite v.contents value }) })
    | _ => none
  | .leave x =>
    if onStack s.memory x then some do
      let m ← leaveScope s.memory x
      .ok { s with memory := m }
    else none

/-- The program, with memory for this many objects on the heap. -/
def client (room : Nat) : System Client Action where
  initial := ⟨⟨fun _ => none, 0, room, []⟩, fun _ => 0, none⟩
  step s a := if s.crashed = none then (act s a).map (faulty s) else none

/-- The references of the program to blocks are its handles. -/
def owns (handles : Addr → Nat) : Ref → Nat
  | .block a => handles a
  | _ => 0

theorem owns_more (handles : Addr → Nat) (a : Addr) :
    owns (Function.update handles a (handles a + 1)) = give (owns handles) [.block a] := by
  funext r
  cases r with
  | object o => simp [owns, give]
  | byref x => simp [owns, give]
  | block x =>
    by_cases hx : x = a
    · subst hx
      simp [owns, give]
    · simp [owns, give, hx, Ne.symm hx]

theorem owns_less {handles : Addr → Nat} {a : Addr} (h : 0 < handles a) :
    owns handles = give (owns (Function.update handles a (handles a - 1))) [.block a] := by
  rw [← owns_more, Function.update_self, Function.update_idem, Nat.sub_add_cancel h, Function.update_eq_self]

/-- Between two steps of the program. -/
structure Valid (m : Memory) (own : Ref → Nat) : Prop where
  sound : Sound m own
  settled : ∀ x, ¬ Unsettled m x
  ranked : Ranked m

/-- What a step leaves of what was there. A block keeps all but its count, the
variables that were one are one and no others, and they read what was written. -/
structure Evolves (m m' : Memory) (written : Addr → Option Variable) : Prop where
  next : m.next ≤ m'.next
  absent : ∀ a, a < m.next → m.cell a = none → m'.cell a = none
  blocks : ∀ a b, m.cell a = some (.block b) →
    m'.cell a = none ∨ ∃ w, m'.cell a = some (.block { b with flags := w }) ∧ kind w = kind b.flags
  byrefs : ∀ a, forwardingAt m a ≠ none → m'.cell a = none ∨ forwardingAt m' a ≠ none
  sharing : ∀ a b, forwardingAt m a ≠ none → forwardingAt m b ≠ none → forwardingAt m' a ≠ none →
    forwardingAt m' b ≠ none → (forwardingAt m' a = forwardingAt m' b ↔ forwardingAt m a = forwardingAt m b)
  reads : ∀ a, forwardingAt m a ≠ none → forwardingAt m' a ≠ none → variableAt m' a = written a

section

variable {m m' : Memory} {own own' : Ref → Nat}

theorem exists_byref {a : Addr} (h : forwardingAt m a ≠ none) : ∃ v, m.cell a = some (.byref v) := by
  cases hc : m.cell a with
  | none => simp [forwardingAt, hc] at h
  | some c =>
    cases c with
    | block b => simp [forwardingAt, hc] at h
    | byref v => exact ⟨v, rfl⟩

theorem settled_byref (h : Valid m own) {a : Addr} {v : BlockByref} (hv : m.cell a = some (.byref v)) :
    v.flags &&& blockByrefNeedsFree = 0 ∨ ¬ Deallocating v.flags := by
  by_cases hfree : v.flags &&& blockByrefNeedsFree = 0
  · exact .inl hfree
  · exact .inr fun hd => h.settled a ⟨_, hv, hfree, hd⟩

/-- A variable that is there can be read. -/
theorem Valid.readable (h : Valid m own) {a : Addr} (ha : forwardingAt m a ≠ none) :
    ∃ x, variableAt m a = some x := by
  obtain ⟨v, hv⟩ := exists_byref ha
  exact exists_variableAt h.sound hv (settled_byref h hv)

/-- Two structures are one variable when one of them leads to the other on the heap, or both to a third. -/
theorem leads_of_shared (h : Valid m own) {a b : Addr} (hab : a ≠ b) (ha : forwardingAt m a ≠ none)
    (he : forwardingAt m a = forwardingAt m b) : ∃ f, Leads m a f ∧ Leads m b f := by
  obtain ⟨u, hu⟩ := exists_byref ha
  obtain ⟨v, hv⟩ := exists_byref (he ▸ ha)
  have hforward : u.forwarding = v.forwarding := by simpa [forwardingAt, hu, hv] using he
  have hheap : ∃ f, m.cell u.forwarding = some (.byref f) ∧ f.flags &&& blockByrefNeedsFree ≠ 0 := by
    rcases forwarding_live h.sound hu (settled_byref h hu) with ⟨_, hself⟩ | ⟨f, hf, hfree, _⟩
    · rcases forwarding_live h.sound hv (settled_byref h hv) with ⟨_, hself'⟩ | ⟨f, hf, hfree, _⟩
      · exact absurd (hself.symm.trans (hforward.trans hself')) hab
      · exact ⟨f, by rw [hforward]; exact hf, hfree⟩
    · exact ⟨f, hf, hfree⟩
  obtain ⟨f, hf, hfree⟩ := hheap
  have hshape : ByrefShape u.forwarding f := h.sound.shape _ _ hf
  have htarget := hshape.heap hfree
  exact ⟨u.forwarding, ⟨by simp [forwardingAt, hu], f, hf, hfree, htarget⟩,
    by simp [forwardingAt, hv, hforward], f, hf, hfree, htarget⟩

/-- Copies evolve the memory. -/
theorem evolves_of_extends (h : Valid m own) (hext : Extends m m') : Evolves m m' (variableAt m) := by
  constructor
  · exact hext.next
  · exact hext.absent
  · intro a b hb
    obtain ⟨c, hc, hk⟩ := hext.cells a _ hb
    cases hk with
    | same => exact .inr ⟨b.flags, hc, rfl⟩
    | block _ w _ hkind _ => exact .inr ⟨w, hc, hkind⟩
  · intro a ha
    exact .inr (hext.present ha)
  · intro a b ha hb _ _
    refine ⟨hext.apart a b ha hb, fun he => ?_⟩
    by_cases hab : a = b
    · rw [hab]
    · obtain ⟨f, hla, hlb⟩ := leads_of_shared h hab ha he
      rw [(hext.leads hla).1, (hext.leads hlb).1]
  · intro a ha _
    obtain ⟨x, hx⟩ := h.readable ha
    rw [hx]
    exact hext.reads a x hx

/-- A step that takes cells away or changes counts, or brings new cells. -/
theorem evolves_of_reflag (h : Valid m own) (h' : Valid m' own') (hnext : m.next ≤ m'.next)
    (habsent : ∀ a, a < m.next → m.cell a = none → m'.cell a = none)
    (hothers : ∀ a c, m.cell a = some c →
      m'.cell a = none ∨ ∃ w, m'.cell a = some (reflag w c) ∧ kind w = kind (cellFlags c)) :
    Evolves m m' (variableAt m) := by
  have hcells : ∀ a v, m.cell a = some (.byref v) → m'.cell a ≠ none →
      ∃ w, m'.cell a = some (.byref { v with flags := w }) := by
    intro a v hv hthere
    rcases hothers a _ hv with hgone | ⟨w, hw, _⟩
    · exact absurd hgone hthere
    · exact ⟨w, hw⟩
  have hforward : ∀ a, forwardingAt m a ≠ none → forwardingAt m' a ≠ none →
      forwardingAt m' a = forwardingAt m a := by
    intro a ha ha'
    obtain ⟨v, hv⟩ := exists_byref ha
    obtain ⟨v', hv'⟩ := exists_byref ha'
    obtain ⟨w, hw⟩ := hcells a v hv (by simp [hv'])
    simp [forwardingAt, hv, hw]
  constructor
  · exact hnext
  · exact habsent
  · intro a b hb
    rcases hothers a _ hb with hgone | ⟨w, hw, hkind⟩
    · exact .inl hgone
    · exact .inr ⟨w, hw, hkind⟩
  · intro a ha
    obtain ⟨v, hv⟩ := exists_byref ha
    rcases hothers a _ hv with hgone | ⟨w, hw, _⟩
    · exact .inl hgone
    · exact .inr (by simp [forwardingAt, hw, reflag])
  · intro a b ha hb ha' hb'
    rw [hforward a ha ha', hforward b hb hb']
  · intro a ha ha'
    obtain ⟨x, hx⟩ := h.readable ha
    obtain ⟨x', hx'⟩ := h'.readable ha'
    obtain ⟨f, hf, hfx⟩ := Option.bind_eq_some_iff.mp hx
    obtain ⟨f', hf', hfx'⟩ := Option.bind_eq_some_iff.mp hx'
    rw [hforward a ha ha', hf] at hf'
    cases hf'
    obtain ⟨v, hv⟩ : ∃ v, m.cell f = some (.byref v) := by
      simp only [contentsAt] at hfx
      split at hfx
      · next v hv => exact ⟨v, hv⟩
      · cases hfx
    have hthere : m'.cell f ≠ none := fun hgone => by simp [contentsAt, hgone] at hfx'
    obtain ⟨w, hw⟩ := hcells f v hv hthere
    rw [hx, hx', ← hfx, ← hfx']
    simp [contentsAt, hv, hw]

/-- Something new on the stack or among the constants, which holds nothing. -/
theorem valid_push {c : Cell} (h : Valid m own) (hshape : Shape m.next c) (hholds : holds m.next (some c) = [])
    (hstatic : cellFlags c &&& blockNeedsFree = 0) : Valid (Memory.push m c) own := by
  have hnew : m.cell m.next = none := h.sound.fresh _ (Nat.le_refl _)
  have hcell : (Memory.push m c).cell = Function.update m.cell m.next (some c) := rfl
  constructor
  · refine h.sound.put hcell (Nat.le_succ _) (Nat.lt_succ_self _) hshape ?_
    apply h.sound.ledger.change hcell
    intro r n n' _ hmove hcounted
    have hnone : holds m.next none = [] := rfl
    rw [hnew, hnone, hholds] at hmove
    obtain rfl : n' = n := by omega
    by_cases hr : r.addr = m.next
    · cases r with
      | object o => exact hcounted
      | block x =>
        cases hr
        simp only [Counted, hnew, flagsOf] at hcounted
        subst hcounted
        cases c with
        | byref v => simp [Counted, hcell, flagsOf]
        | block b =>
          have hbit : b.flags &&& blockNeedsFree = 0 := hstatic
          simp only [Counted, hcell, Function.update_self, flagsOf]
          rw [if_neg (not_not_intro hbit)]
          exact .inr trivial
      | byref x =>
        cases hr
        simp only [Counted, hnew, flagsOf] at hcounted
        subst hcounted
        cases c with
        | block b => simp [Counted, hcell, flagsOf]
        | byref v =>
          have hbit : v.flags &&& blockByrefNeedsFree = 0 := hstatic
          simp only [Counted, hcell, Function.update_self, flagsOf]
          rw [if_neg (not_not_intro hbit)]
          trivial
    · apply hcounted.congr
      · rw [hcell, Function.update_of_ne hr]
      · rintro o rfl
        exact hcounted
  · have htidy : Tidy m (Memory.push m c) := by
      apply Tidy.update hcell
      · intro hopen
        cases c with
        | block b => exact absurd hstatic hopen.1
        | byref v => exact absurd hstatic hopen.1
      · intro y hy
        rw [hholds] at hy
        cases hy
    exact fun x hx => h.settled x (htidy.only x hx)
  · apply h.ranked.fewer
    intro x y hy
    by_cases hx : x = m.next
    · rw [hx, hcell, Function.update_self, hholds] at hy
      cases hy
    · rwa [hcell, Function.update_of_ne hx] at hy

theorem evolves_push {c : Cell} (h : Valid m own) (h' : Valid (Memory.push m c) own) :
    Evolves m (Memory.push m c) (variableAt m) := by
  have hsame : ∀ a, a ≠ m.next → (Memory.push m c).cell a = m.cell a := fun a ha => Function.update_of_ne ha _ _
  apply evolves_of_reflag h h' (Nat.le_succ _)
  · intro a ha hnone
    exact (hsame a (Nat.ne_of_lt ha)).trans hnone
  · intro a d hd
    refine .inr ⟨cellFlags d, ?_, rfl⟩
    rw [hsame a (Nat.ne_of_lt (h.sound.lt_next hd)), reflag_self, hd]

theorem valid_of_tidy (h : Valid m own) (htidy : Tidy m m') (hsound : Sound m' own') : Valid m' own' :=
  ⟨hsound, fun x hx => h.settled x (htidy.only x hx), htidy.ranked h.ranked⟩

/-- A block literal at the end of its scope. -/
theorem sound_popBlock {a : Addr} {b : BlockLayout} (h : Sound m own) (hb : m.cell a = some (.block b))
    (hstack : b.flags &&& blockNeedsFree = 0) (hlocal : b.flags &&& blockIsGlobal = 0) :
    Sound (Memory.pop m a) own := by
  have hshape : BlockShape b := h.shape a _ hb
  have hisa : b.isa ≠ .mallocBlock := fun he => hshape.finished he hstack
  have hcell : (Memory.pop m a).cell = Function.update m.cell a none := rfl
  refine h.erase hcell rfl ?_
  apply h.ledger.changeTarget (.block a) hcell rfl
  · intro r hr hne
    rw [hb, flagsOf_block hr hne, flagsOf_none]
  · intro r _
    rw [hb, holds_unfinished hisa]
    rfl
  · intro n n' _ hmove hcounted
    rw [hb, holds_unfinished hisa] at hmove
    simp only [Counted, hb, flagsOf, if_neg (not_not_intro hstack)] at hcounted
    have hzero := hcounted.resolve_left (not_not_intro hlocal)
    simp only [holds] at hmove
    obtain rfl : n' = 0 := by omega
    simp only [Counted, hcell, Function.update_self, flagsOf]

/-- A `__block` variable at the end of its scope: its reference to the copy is left. -/
theorem sound_popByref {a : Addr} {v : BlockByref} (h : Sound m own) (hv : m.cell a = some (.byref v))
    (hstack : v.flags &&& blockByrefNeedsFree = 0) :
    Sound (Memory.pop m a) (give own (holds a (some (.byref v)))) := by
  have hcell : (Memory.pop m a).cell = Function.update m.cell a none := rfl
  refine h.erase hcell rfl ?_
  apply h.ledger.changeTarget (.byref a) hcell rfl
  · intro r hr hne
    rw [hv, flagsOf_byref hr hne, flagsOf_none]
  · intro r _
    rw [hv]
    rfl
  · intro n n' _ hmove hcounted
    simp only [Counted, hv, flagsOf, if_neg (not_not_intro hstack)] at hcounted
    have hnone : holds a none = [] := rfl
    rw [hv, hnone, give, List.count_nil] at hmove
    obtain rfl : n' = 0 := by omega
    simp only [Counted, hcell, Function.update_self, flagsOf]

theorem exists_alive (h : Sound m own) : ∃ k ≤ m.next, Tally.Total (fun a => alive (m.cell a)) k := by
  have hone : ∀ c, alive c ≤ 1 := by
    intro c
    unfold alive
    split
    · split <;> omega
    · omega
  refine ⟨_, ?_, Finset.range m.next, ?_, rfl⟩
  · calc (Finset.range m.next).sum (fun a => alive (m.cell a))
        ≤ (Finset.range m.next).card • 1 := Finset.sum_le_card_nsmul _ _ _ fun a _ => hone _
      _ = m.next := by simp
  · intro a ha
    change alive (m.cell a) = 0
    rw [h.fresh a (by simpa using ha)]
    rfl

theorem Valid.finished (h : Valid m own) : Finished m := by
  intro a b hb hfree
  by_contra hisa
  exact h.settled a ⟨_, hb, hfree, .inl hisa⟩

/-- The dispose of a `__block` variable at the end of its scope. -/
theorem leaveScope_spec {x : Addr} (h : Valid m own) (hx : onStack m x = true) :
    ∃ m', leaveScope m x = .ok m' ∧ Valid m' own ∧ Evolves m m' (variableAt m) := by
  have hpopped : ∀ {own}, Sound (Memory.pop m x) own → Valid (Memory.pop m x) own :=
    fun hs => valid_of_tidy h (.erase rfl) hs
  have hevolves : ∀ {m' own'}, Shrinks (Memory.pop m x) m' → Valid m' own' → Evolves m m' (variableAt m) := by
    intro m' own' hs h'
    have hgone : m'.cell x = none := hs.absent x (Function.update_self _ _ _)
    have hsame : ∀ a, a ≠ x → (Memory.pop m x).cell a = m.cell a := fun a ha => Function.update_of_ne ha _ _
    apply evolves_of_reflag h h' (Nat.le_of_eq hs.next.symm)
    · intro a _ ha
      by_cases hax : a = x
      · rw [hax, hgone]
      · exact hs.absent a ((hsame a hax).trans ha)
    · intro a c hc
      by_cases hax : a = x
      · exact .inl (hax ▸ hgone)
      · exact hs.others a c ((hsame a hax).trans hc)
  simp only [onStack] at hx
  split at hx
  · next b hb =>
    simp only [Bool.and_eq_true, decide_eq_true_eq] at hx
    have hvalid := hpopped (sound_popBlock h.sound hb hx.1 hx.2)
    refine ⟨Memory.pop m x, ?_, hvalid, hevolves (.refl _) hvalid⟩
    simp [leaveScope, hb, bind, Except.bind]
  · next v hv =>
    have hstack : v.flags &&& blockByrefNeedsFree = 0 := by simpa using hx
    have hkind : fieldKind blockFieldIsByref = .byref := by decide
    have hpop := sound_popByref h.sound hv hstack
    rcases forwarding_live h.sound hv (.inl hstack) with ⟨_, hself⟩ | ⟨u, hu, hfree, _, hcount⟩
    · have hload : m.byref x = .ok v := by simp [Memory.byref, hv]
      have hload' : m.byref v.forwarding = .ok v := by rw [hself, hload]
      have hnothing : holds x (some (.byref v)) = [] := by simp [holds, hself]
      rw [hnothing, give_nil] at hpop
      have hvalid := hpopped hpop
      refine ⟨Memory.pop m x, ?_, hvalid, hevolves (.refl _) hvalid⟩
      simp only [leaveScope, hv, fuel, objectDispose, blockObjectDispose, hkind, byrefRelease, hload, hload',
        bind, Except.bind, if_neg (not_not_intro hstack)]
    · have hne : v.forwarding ≠ x := by
        intro he
        rw [he, hv] at hu
        cases hu
        exact hfree hstack
      have hholds : holds x (some (.byref v)) = [.byref v.forwarding] := by simp [holds, hne]
      rw [hholds] at hpop
      have hu' : (Memory.pop m x).cell v.forwarding = some (.byref u) :=
        (Function.update_of_ne hne _ _).trans hu
      obtain ⟨k, _, htotal⟩ := exists_alive hpop
      have hreleased := dropByref_spec hpop hu' htotal
      have hvalid := valid_of_tidy (hpopped hpop) hreleased.tidy hreleased.sound
      refine ⟨_, ?_, hvalid, hevolves hreleased.shrinks hvalid⟩
      have hrun := byrefRelease_eq (f := m.next) hv rfl hu (h.sound.shape _ _ hu) hfree hcount
      simp only [leaveScope, hv, fuel, objectDispose, blockObjectDispose, hkind, bind, Except.bind]
      simp only [objectDispose] at hrun
      rw [hrun]
      simp only [Memory.pop, dropByref]
      split
      · simp [Function.update_comm hne]
      · simp [Memory.set, Function.update_comm hne]
  · cases hx

theorem overwrite_pointer {old value : Variable} {flags : Word} {o : Option Addr}
    (h : overwrite old value = .pointer flags o) : ∃ o', old = .pointer flags o' := by
  cases old with
  | plain n => cases value <;> cases h
  | pointer flags' o' => cases value <;> cases h <;> exact ⟨_, rfl⟩

theorem pointer_overwrite (flags : Word) (o : Option Addr) (value : Variable) :
    ∃ o', overwrite (.pointer flags o) value = .pointer flags o' := by
  cases value with
  | plain n => exact ⟨o, rfl⟩
  | pointer flags' o' => exact ⟨o', rfl⟩

/-- What the variables read after an action. -/
def written (m : Memory) : Action → Addr → Option Variable
  | .store x value, a =>
    if forwardingAt m a = forwardingAt m x then (variableAt m a).map (overwrite · value) else variableAt m a
  | _, a => variableAt m a

/-- A `__block` variable is assigned to, wherever it is. -/
theorem store_spec (h : Valid m own) {x f : Addr} {v : BlockByref} (value : Variable)
    (hx : forwardingAt m x = some f) (hv : m.cell f = some (.byref v)) :
    Valid (m.set f (.byref { v with contents := overwrite v.contents value })) own ∧
      Evolves m (m.set f (.byref { v with contents := overwrite v.contents value }))
        (written m (.store x value)) := by
  let m' := m.set f (.byref { v with contents := overwrite v.contents value })
  have hcell : m'.cell =
      Function.update m.cell f (some (.byref { v with contents := overwrite v.contents value })) :=
    rfl
  have hshape : ByrefShape f v := h.sound.shape f _ hv
  have hshape' : ByrefShape f { v with contents := overwrite v.contents value } := by
    constructor
    · exact hshape.heap
    · exact hshape.stack
    · intro flags o hc
      obtain ⟨o', ho'⟩ := overwrite_pointer hc
      exact hshape.caller flags o' ho'
    · intro hcopy
      obtain ⟨flags, o, ho⟩ := hshape.helped hcopy
      obtain ⟨o', ho'⟩ := pointer_overwrite flags o value
      exact ⟨flags, o', by rw [← ho', ← ho]⟩
  have htidy : Tidy m m' := by
    apply Tidy.update hcell
    · exact fun hopen => ⟨_, hv, hopen⟩
    · exact fun y hy => absurd hy block_notMem_byref
  have hforward : forwardingAt m' = forwardingAt m :=
    forwardingAt_update hcell (by simp [forwardingAt, hcell, hv])
  refine ⟨valid_of_tidy h htidy (h.sound.setByref hv rfl rfl hshape'), ?_⟩
  have hothers : ∀ a, a ≠ f → m'.cell a = m.cell a := fun a ha => Function.update_of_ne ha _ _
  constructor
  · exact Nat.le_refl _
  · intro a _ ha
    have haf : a ≠ f := fun he => by
      rw [he, hv] at ha
      cases ha
    exact (hothers a haf).trans ha
  · intro a b hb
    have haf : a ≠ f := fun he => by
      rw [he, hv] at hb
      cases hb
    exact .inr ⟨b.flags, (hothers a haf).trans hb, rfl⟩
  · intro a ha
    exact .inr (hforward ▸ ha)
  · intro a b _ _ _ _
    rw [hforward]
  · intro a ha _
    obtain ⟨g, hg⟩ := Option.ne_none_iff_exists'.mp ha
    rw [variableAt, hforward, hg, Option.bind_some, written, variableAt, hg, hx, Option.bind_some]
    by_cases hgf : g = f
    · subst hgf
      have hread : contentsAt m' g = some (overwrite v.contents value) := by simp [contentsAt, hcell]
      have hwas : contentsAt m g = some v.contents := by simp [contentsAt, hv]
      rw [if_pos rfl, hread, hwas]
      rfl
    · rw [if_neg (by simpa using hgf)]
      rw [contentsAt, contentsAt, hothers g hgf]

/-- A weak reference to a block that is there becomes a strong one. -/
theorem tryRetain_spec (h : Valid m own) {a : Addr} {b : BlockLayout} (hb : m.cell a = some (.block b))
    (hfree : b.flags &&& blockNeedsFree ≠ 0) :
    ∃ m', blockTryRetain m a = .ok (true, m') ∧ Valid m' (give own [.block a]) ∧
      Evolves m m' (variableAt m) := by
  have hload : m.block a = .ok b := by simp [Memory.block, hb]
  have hisa := h.finished a b hb hfree
  have hlive : ¬ Deallocating b.flags := fun hd => h.settled a ⟨_, hb, hfree, .inr hd⟩
  obtain ⟨hreply, hd, hkind⟩ := apply_retained hlive
  have hsound := h.sound.incrNotDeallocatingBlock hb hfree
  rw [if_pos hreply] at hsound
  have htidy : Tidy m (m.set a (.block { b with flags := (apply .incrNotDeallocating b.flags).1 })) :=
    .reflagBlock hb hisa hlive fun hd' => hlive (hd.mp hd')
  have hvalid := valid_of_tidy h htidy hsound
  refine ⟨_, ?_, hvalid, evolves_of_extends h (extends_reflagBlock hb hisa hkind hd)⟩
  simp [blockTryRetain, hload, bind, Except.bind, hreply]

end

theorem declare_shape (a : Addr) (size : Nat) (layout : Option String) {contents : Variable}
    (h : declarable contents = true) :
    ByrefShape a ⟨.null, a, byrefFlags layout contents, size, layout, contents⟩ ∧
      byrefFlags layout contents &&& blockNeedsFree = 0 := by
  have hflags : byrefFlags layout contents &&& blockNeedsFree = 0 ∧
      byrefFlags layout contents &&& blockRefcountMask = 0 ∧ ¬ Deallocating (byrefFlags layout contents) ∧
      (byrefFlags layout contents &&& blockByrefHasCopyDispose ≠ 0 → isPointer contents = true) := by
    unfold byrefFlags
    cases isPointer contents <;> cases layout.isSome <;> decide
  obtain ⟨hstack, hcount, hlive, hhelped⟩ := hflags
  refine ⟨?_, hstack⟩
  constructor
  · intro _
    rfl
  · intro _
    exact ⟨hcount, hlive⟩
  · intro flags o hc
    change contents = _ at hc
    subst hc
    simpa [declarable] using h
  · intro hcopy
    have hpointer := hhelped hcopy
    change ∃ flags o, contents = _
    cases contents with
    | plain n => cases hpointer
    | pointer flags o => exact ⟨flags, o, rfl⟩

theorem or_signatureFlags (w said : Word) {bit : Word}
    (h : (blockUseStret ||| blockHasSignature ||| blockHasExtendedLayout) &&& bit = 0) :
    (w ||| signatureFlags said) &&& bit = w &&& bit := by
  rw [signatureFlags, BitVec.and_or_distrib_right, BitVec.and_assoc, h]
  simp

theorem literal_shape (said : Word) (invoke : Nat) (descriptor : Descriptor) (imported : List Variable) :
    BlockShape ⟨.stackBlock, literalFlags said imported, invoke, descriptor, imported⟩ ∧
      literalFlags said imported &&& blockNeedsFree = 0 := by
  have hflags : literalFlags said imported &&& blockNeedsFree = 0 ∧
      literalFlags said imported &&& blockIsGlobal = 0 ∧
      (imported.any isPointer = true → literalFlags said imported &&& blockHasCopyDispose ≠ 0) := by
    rw [literalFlags, or_signatureFlags _ _ (by decide), or_signatureFlags _ _ (by decide),
      or_signatureFlags _ _ (by decide)]
    cases imported.any isPointer <;> decide
  obtain ⟨hstack, hlocal, hhelped⟩ := hflags
  refine ⟨?_, hstack⟩
  constructor
  · intro _
    exact hlocal
  · intro hisa
    cases hisa
  · intro hglobal
    exact absurd hlocal hglobal
  · intro flags o hmem
    exact hhelped (List.any_eq_true.mpr ⟨_, hmem, rfl⟩)
  · intro hisa
    cases hisa

theorem constant_shape (said : Word) (invoke : Nat) (descriptor : Descriptor) :
    BlockShape ⟨.globalBlock, blockIsGlobal ||| signatureFlags said, invoke, descriptor, []⟩ ∧
      (blockIsGlobal ||| signatureFlags said) &&& blockNeedsFree = 0 := by
  have hstatic : (blockIsGlobal ||| signatureFlags said) &&& blockNeedsFree = 0 := by
    rw [or_signatureFlags _ _ (by decide)]
    decide
  refine ⟨?_, hstatic⟩
  constructor
  · intro hfree
    exact absurd hstatic hfree
  · intro hisa
    cases hisa
  · intro _
    rfl
  · intro flags o hmem
    cases hmem
  · intro hisa
    cases hisa

/-- Every action ends, if not for want of memory, in a valid memory that has evolved as it should. -/
theorem act_spec {s : Client} {a : Action} {r : Except Fault Client} (h : Valid s.memory (owns s.handles))
    (ha : act s a = some r) :
    Ends r fun s' => Valid s'.memory (owns s'.handles) ∧ s'.crashed = s.crashed ∧
      Evolves s.memory s'.memory (written s.memory a) := by
  cases a with
  | declare size layout contents =>
    simp only [act, Option.ite_none_right_eq_some, Option.some.injEq] at ha
    obtain ⟨hd, rfl⟩ := ha
    obtain ⟨hshape, hstatic⟩ := declare_shape s.memory.next size layout hd
    have hvalid := valid_push (c := .byref _) h hshape (by simp [holds]) hstatic
    exact ⟨hvalid, rfl, evolves_push h hvalid⟩
  | literal said invoke descriptor captured =>
    simp only [act, Option.map_eq_some_iff] at ha
    obtain ⟨imported, _, rfl⟩ := ha
    obtain ⟨hshape, hstatic⟩ := literal_shape said invoke descriptor imported
    have hvalid := valid_push (c := .block _) h hshape (holds_unfinished (by simp)) hstatic
    exact ⟨hvalid, rfl, evolves_push h hvalid⟩
  | constant said invoke descriptor =>
    simp only [act, Option.some.injEq] at ha
    subst ha
    obtain ⟨hshape, hstatic⟩ := constant_shape said invoke descriptor
    have hvalid := valid_push (c := .block _) h hshape (holds_unfinished (by simp)) hstatic
    exact ⟨hvalid, rfl, evolves_push h hvalid⟩
  | copy a =>
    simp only [act, Option.ite_none_right_eq_some, Option.some.injEq] at ha
    obtain ⟨hcopyable, rfl⟩ := ha
    apply (blockCopy_spec _ h.sound hcopyable).bind
    rintro ⟨result, m⟩ hcopied
    refine ⟨?_, rfl, evolves_of_extends h hcopied.kept⟩
    have hsound := hcopied.sound
    cases result with
    | none => exact valid_of_tidy h hcopied.tidy hsound
    | some r =>
      refine valid_of_tidy h hcopied.tidy ?_
      rw [owns_more]
      exact hsound
  | release a =>
    simp only [act, Option.ite_none_right_eq_some, Option.some.injEq] at ha
    obtain ⟨hpos, rfl⟩ := ha
    have hsound := h.sound
    rw [owns_less hpos] at hsound
    obtain ⟨k, hk, htotal⟩ := exists_alive h.sound
    obtain ⟨m', hrun, hreleased⟩ := blockRelease_spec (fuel s.memory) hsound h.finished htotal
      (Nat.lt_of_le_of_lt hk (by simp [fuel]))
    have hvalid := valid_of_tidy h hreleased.tidy hreleased.sound
    have hevolves := evolves_of_reflag h hvalid (Nat.le_of_eq hreleased.shrinks.next.symm)
      (fun a _ hnone => hreleased.shrinks.absent a hnone) hreleased.shrinks.others
    simp only [hrun, bind, Except.bind]
    exact ⟨hvalid, rfl, hevolves⟩
  | tryRetain a =>
    simp only [act] at ha
    split at ha
    · next b hb =>
      simp only [Option.ite_none_right_eq_some, Option.some.injEq] at ha
      obtain ⟨hfree, rfl⟩ := ha
      obtain ⟨m', hrun, hvalid, hevolves⟩ := tryRetain_spec h hb hfree
      simp only [hrun, bind, Except.bind, ite_true]
      rw [← owns_more] at hvalid
      exact ⟨hvalid, rfl, hevolves⟩
    · cases ha
  | store x value =>
    obtain ⟨f, hx, ha⟩ := Option.bind_eq_some_iff.mp ha
    split at ha
    · next v hv =>
      cases ha
      obtain ⟨hvalid, hevolves⟩ := store_spec h value hx hv
      exact ⟨hvalid, rfl, hevolves⟩
    · cases ha
  | leave x =>
    simp only [act, Option.ite_none_right_eq_some, Option.some.injEq] at ha
    obtain ⟨hx, rfl⟩ := ha
    obtain ⟨m', hrun, hvalid, hevolves⟩ := leaveScope_spec h hx
    simp only [hrun, bind, Except.bind]
    exact ⟨hvalid, rfl, hevolves⟩

end BlockClient
