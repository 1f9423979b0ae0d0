import IOSStudy.BlockRuntime
import IOSStudy.Tally

/-!
# Who holds a reference to what

A finished block on the heap holds a reference to each object, block and
`__block` variable it imported, and a `__block` variable on the stack holds one
to its copy. Together with the references of the callers these are what the
counts in the flags words count.
-/
namespace BlockLedger

open BlockFlags BlockRuntime

inductive Ref where
  | object (a : Addr)
  | block (a : Addr)
  | byref (a : Addr)
  deriving DecidableEq, Repr

def Ref.addr : Ref → Addr
  | .object a => a
  | .block a => a
  | .byref a => a

/-- The reference a finished block keeps for a variable. -/
def refs : Variable → List Ref
  | .plain _ => []
  | .pointer _ none => []
  | .pointer flags (some a) => match fieldKind flags with
    | .object => [.object a]
    | .block => [.block a]
    | .byref => [.byref a]
    | .byrefCaller => []
    | .other => []

/-- The references held by what is stored at an address. A block under
construction has not got its class yet, one that is deallocating gives its
references up. -/
def holds (a : Addr) : Option Cell → List Ref
  | some (.block b) =>
    if b.isa = .mallocBlock ∧ ¬ Deallocating b.flags then b.imported.flatMap refs else []
  | some (.byref v) => if v.forwarding = a then [] else [.byref v.forwarding]
  | none => []

/-- The flags word that counts the references of this kind to a cell. -/
def flagsOf : Ref → Option Cell → Option Word
  | .block _, some (.block b) => some b.flags
  | .byref _, some (.byref v) => some v.flags
  | _, _ => none

/-- Exactly n references are in the world: those to an object were retained and
not yet released, those to a block or a variable are in its count. A block on
the stack has none, and those to a global block do not matter. -/
def Counted (m : Memory) : Ref → Nat → Prop
  | .object o, n =>
    m.callbacks.count (.retainObject (some o)) = m.callbacks.count (.releaseObject (some o)) + n
  | .block a, n => match flagsOf (.block a) (m.cell a) with
    | some w => if w &&& blockNeedsFree ≠ 0 then Accounts w n else w &&& blockIsGlobal ≠ 0 ∨ n = 0
    | none => n = 0
  | .byref a, n => match flagsOf (.byref a) (m.cell a) with
    | some w => if w &&& blockByrefNeedsFree ≠ 0 then Accounts w n else n = 0
    | none => n = 0

theorem Counted.congr {m m' : Memory} {r : Ref} {n : Nat} (h : Counted m r n)
    (hflags : flagsOf r (m'.cell r.addr) = flagsOf r (m.cell r.addr))
    (hcalls : ∀ o, r = .object o → m'.callbacks.count (.retainObject (some o)) =
      m'.callbacks.count (.releaseObject (some o)) + n) : Counted m' r n := by
  cases r with
  | object o => exact hcalls o rfl
  | block a =>
    simp only [Counted, Ref.addr] at h hflags ⊢
    rwa [hflags]
  | byref a =>
    simp only [Counted, Ref.addr] at h hflags ⊢
    rwa [hflags]

/-- The references held outside the memory are `own`. -/
def Ledger (m : Memory) (own : Ref → Nat) : Prop :=
  ∀ r, ∃ n, Tally.Total (fun a => (holds a (m.cell a)).count r) n ∧ Counted m r (own r + n)

/-- Some more references are held outside. -/
def give (own : Ref → Nat) (more : List Ref) (r : Ref) : Nat := own r + more.count r

@[simp] theorem give_nil (own : Ref → Nat) : give own [] = own := rfl

theorem give_append (own : Ref → Nat) (l l' : List Ref) : give own (l ++ l') = give (give own l) l' := by
  funext r
  simp only [give, List.count_append]
  omega

/-- What one cell gains or loses decides about the whole ledger. -/
theorem Ledger.change {m m' : Memory} {own own' : Ref → Nat} {a : Addr} {c : Option Cell}
    (h : Ledger m own) (hcell : m'.cell = Function.update m.cell a c)
    (hstep : ∀ r n n', own r + (holds a (m.cell a)).count r ≤ n →
      n' + (own r + (holds a (m.cell a)).count r) = n + (own' r + (holds a c).count r) →
      Counted m r n → Counted m' r n') : Ledger m' own' := by
  intro r
  obtain ⟨n, htotal, hcounted⟩ := h r
  have hle := htotal.le a
  have hmoved : (fun x => (holds x (m'.cell x)).count r) =
      Function.update (fun x => (holds x (m.cell x)).count r) a ((holds a c).count r) := by
    funext x
    rw [hcell]
    by_cases hx : x = a
    · subst hx
      simp
    · simp [hx]
  refine ⟨n - (holds a (m.cell a)).count r + (holds a c).count r, ?_, ?_⟩
  · rw [hmoved]
    exact htotal.update a _ (by omega)
  · exact hstep r (own r + n) _ (by omega) (by omega) hcounted

/-- A change of one cell that moves only the references to that cell. -/
theorem Ledger.changeTarget {m m' : Memory} {own own' : Ref → Nat} {a : Addr} {c : Option Cell}
    (target : Ref) (h : Ledger m own) (hcell : m'.cell = Function.update m.cell a c)
    (hcalls : m'.callbacks = m.callbacks)
    (hflags : ∀ r, r.addr = a → r ≠ target → flagsOf r c = flagsOf r (m.cell a))
    (hother : ∀ r, r ≠ target →
      own' r + (holds a c).count r = own r + (holds a (m.cell a)).count r)
    (htarget : ∀ n n', own target + (holds a (m.cell a)).count target ≤ n →
      n' + (own target + (holds a (m.cell a)).count target) =
        n + (own' target + (holds a c).count target) →
      Counted m target n → Counted m' target n') : Ledger m' own' := by
  apply h.change hcell
  intro r n n' hle hmove hcounted
  by_cases hr : r = target
  · subst hr
    exact htarget n n' hle hmove hcounted
  · have hsame := hother r hr
    obtain rfl : n' = n := by omega
    apply hcounted.congr
    · rw [hcell]
      by_cases ha : r.addr = a
      · rw [ha, Function.update_self, hflags r ha hr]
      · rw [Function.update_of_ne ha]
    · intro o ho
      subst ho
      rw [hcalls]
      exact hcounted

/-- A change of one cell that leaves every flags word. -/
theorem Ledger.changeQuiet {m m' : Memory} {own own' : Ref → Nat} {a : Addr} {c : Option Cell}
    (h : Ledger m own) (hcell : m'.cell = Function.update m.cell a c)
    (hcalls : m'.callbacks = m.callbacks)
    (hflags : ∀ r, r.addr = a → flagsOf r c = flagsOf r (m.cell a))
    (hown : ∀ r, own' r + (holds a c).count r = own r + (holds a (m.cell a)).count r) :
    Ledger m' own' := by
  apply h.change hcell
  intro r n n' hle hmove hcounted
  have hsame := hown r
  obtain rfl : n' = n := by omega
  apply hcounted.congr
  · rw [hcell]
    by_cases ha : r.addr = a
    · rw [ha, Function.update_self, hflags r ha]
    · rw [Function.update_of_ne ha]
  · intro o ho
    subst ho
    rw [hcalls]
    exact hcounted

/-- A call to a registered function leaves the memory and moves references to objects. -/
theorem Ledger.call {m : Memory} {own own' : Ref → Nat} (h : Ledger m own) (c : Callback)
    (hown : ∀ a, own' (.block a) = own (.block a) ∧ own' (.byref a) = own (.byref a))
    (hobject : ∀ o n, m.callbacks.count (.retainObject (some o)) =
        m.callbacks.count (.releaseObject (some o)) + (own (.object o) + n) →
      (c :: m.callbacks).count (.retainObject (some o)) =
        (c :: m.callbacks).count (.releaseObject (some o)) + (own' (.object o) + n)) :
    Ledger (m.call c) own' := by
  intro r
  obtain ⟨n, htotal, hcounted⟩ := h r
  refine ⟨n, htotal, ?_⟩
  cases r with
  | object o => exact hobject o n hcounted
  | block a =>
    rw [(hown a).1]
    exact hcounted
  | byref a =>
    rw [(hown a).2]
    exact hcounted

structure BlockShape (b : BlockLayout) : Prop where
  heap : b.flags &&& blockNeedsFree ≠ 0 → b.flags &&& blockIsGlobal = 0
  finished : b.isa = .mallocBlock → b.flags &&& blockNeedsFree ≠ 0
  constant : b.flags &&& blockIsGlobal ≠ 0 → b.imported = []
  helped : ∀ flags o, .pointer flags o ∈ b.imported → b.flags &&& blockHasCopyDispose ≠ 0
  pointed : b.isa = .mallocBlock → ∀ flags, .pointer flags none ∈ b.imported → fieldKind flags ≠ .byref

structure ByrefShape (a : Addr) (v : BlockByref) : Prop where
  heap : v.flags &&& blockByrefNeedsFree ≠ 0 → v.forwarding = a
  stack : v.flags &&& blockByrefNeedsFree = 0 → v.flags &&& blockRefcountMask = 0 ∧ ¬ Deallocating v.flags
  caller : ∀ flags o, v.contents = .pointer flags o → fieldKind flags = .byrefCaller
  helped : v.flags &&& blockByrefHasCopyDispose ≠ 0 → ∃ flags o, v.contents = .pointer flags o

/-- What the compiler and the runtime see to. -/
def Shape (a : Addr) : Cell → Prop
  | .block b => BlockShape b
  | .byref v => ByrefShape a v

/-- The memory of a program in which the references `own` are held outside. -/
structure Sound (m : Memory) (own : Ref → Nat) : Prop where
  fresh : ∀ a, m.next ≤ a → m.cell a = none
  shape : ∀ a c, m.cell a = some c → Shape a c
  ledger : Ledger m own

/-- One cell changes or is new. -/
theorem Sound.put {m m' : Memory} {own own' : Ref → Nat} {a : Addr} {c : Cell} (h : Sound m own)
    (hcell : m'.cell = Function.update m.cell a (some c)) (hnext : m.next ≤ m'.next) (ha : a < m'.next)
    (hshape : Shape a c) (hledger : Ledger m' own') : Sound m' own' := by
  constructor
  · intro x hx
    have hxa : x ≠ a := Nat.ne_of_gt (Nat.lt_of_lt_of_le ha hx)
    rw [hcell, Function.update_of_ne hxa]
    exact h.fresh x (hnext.trans hx)
  · intro x d hd
    rw [hcell] at hd
    by_cases hxa : x = a
    · subst hxa
      simp only [Function.update_self, Option.some.injEq] at hd
      exact hd ▸ hshape
    · rw [Function.update_of_ne hxa] at hd
      exact h.shape x d hd
  · exact hledger

theorem Sound.lt_next {m : Memory} {own : Ref → Nat} (h : Sound m own) {a : Addr} {c : Cell}
    (hc : m.cell a = some c) : a < m.next := by
  by_contra hge
  rw [h.fresh a (Nat.le_of_not_lt hge)] at hc
  cases hc

theorem holds_unfinished {a : Addr} {b : BlockLayout} (h : b.isa ≠ .mallocBlock) :
    holds a (some (.block b)) = [] := by simp [holds, h]

theorem holds_finished {a : Addr} {b : BlockLayout} (h : b.isa = .mallocBlock) (hd : ¬ Deallocating b.flags) :
    holds a (some (.block b)) = b.imported.flatMap refs := by simp [holds, h, hd]

theorem holds_deallocating {a : Addr} {b : BlockLayout} (hd : Deallocating b.flags) :
    holds a (some (.block b)) = [] := by simp [holds, hd]

theorem flagsOf_block {a : Addr} {b : BlockLayout} {r : Ref} (ha : r.addr = a) (hr : r ≠ .block a) :
    flagsOf r (some (.block b)) = none := by
  cases r with
  | object o => rfl
  | block x => exact absurd (congrArg Ref.block ha) hr
  | byref x => rfl

theorem flagsOf_byref {a : Addr} {v : BlockByref} {r : Ref} (ha : r.addr = a) (hr : r ≠ .byref a) :
    flagsOf r (some (.byref v)) = none := by
  cases r with
  | object o => rfl
  | block x => rfl
  | byref x => exact absurd (congrArg Ref.byref ha) hr

theorem flagsOf_none (r : Ref) : flagsOf r none = none := by cases r <;> rfl

theorem give_other {own : Ref → Nat} {r q : Ref} (h : q ≠ r) : give own [r] q = own q := by
  simp [give, Ne.symm h]

theorem give_self (own : Ref → Nat) (r : Ref) : give own [r] r = own r + 1 := by simp [give]

section

variable {m m' : Memory} {own own' : Ref → Nat} {a : Addr} {b : BlockLayout} {v : BlockByref}

/-- The count of a block on the heap and what that does to the ledger. -/
theorem Sound.reflagBlock (h : Sound m own) (hb : m.cell a = some (.block b))
    (hfree : b.flags &&& blockNeedsFree ≠ 0) {w : Word} (hkind : kind w = kind b.flags)
    (hother : ∀ r, r ≠ .block a → own' r + (holds a (some (.block { b with flags := w }))).count r =
      own r + (holds a (some (.block b))).count r)
    (htarget : ∀ n n', own (.block a) + (holds a (some (.block b))).count (.block a) ≤ n →
      n' + (own (.block a) + (holds a (some (.block b))).count (.block a)) =
        n + (own' (.block a) + (holds a (some (.block { b with flags := w }))).count (.block a)) →
      Accounts b.flags n → Accounts w n') :
    Sound (m.set a (.block { b with flags := w })) own' := by
  have hneeds : w &&& blockNeedsFree ≠ 0 := by
    rw [needsFree_of_kind hkind]
    exact hfree
  have hshape : BlockShape b := h.shape a _ hb
  have hglobal : w &&& blockIsGlobal = b.flags &&& blockIsGlobal := and_eq_of_kind hkind (by decide)
  have hhelp : w &&& blockHasCopyDispose = b.flags &&& blockHasCopyDispose := and_eq_of_kind hkind (by decide)
  have hlt : a < (m.set a (.block { b with flags := w })).next := h.lt_next hb
  refine h.put rfl (Nat.le_refl _) hlt ?_ ?_
  · constructor
    · intro _
      change w &&& blockIsGlobal = 0
      rw [hglobal]
      exact hshape.heap hfree
    · intro _
      exact hneeds
    · intro hg
      change w &&& blockIsGlobal ≠ 0 at hg
      rw [hglobal] at hg
      exact hshape.constant hg
    · intro flags o hmem
      change w &&& blockHasCopyDispose ≠ 0
      rw [hhelp]
      exact hshape.helped flags o hmem
    · exact hshape.pointed
  · apply h.ledger.changeTarget (.block a) (Memory.set_cell m a _) rfl
    · intro r hr hne
      rw [hb, flagsOf_block hr hne, flagsOf_block hr hne]
    · intro r hne
      rw [hb]
      exact hother r hne
    · intro n n' hle hmove hcounted
      rw [hb] at hle hmove
      simp only [Counted, hb, flagsOf, if_pos hfree] at hcounted
      simp only [Counted, Memory.set, Function.update_self, flagsOf, if_pos hneeds]
      exact htarget n n' hle hmove hcounted

/-- A block that stays alive keeps what it holds. -/
theorem holds_reflag {w : Word} (hd : Deallocating w ↔ Deallocating b.flags) :
    holds a (some (.block { b with flags := w })) = holds a (some (.block b)) := by simp [holds, hd]

/-- One more reference to a block on the heap. -/
theorem Sound.incrBlock (h : Sound m own) (hb : m.cell a = some (.block b))
    (hfree : b.flags &&& blockNeedsFree ≠ 0) (hlive : ¬ Deallocating b.flags) :
    Sound (m.set a (.block { b with flags := (apply .incr b.flags).1 })) (give own [.block a]) := by
  obtain ⟨hd, hkind⟩ := apply_incr b.flags
  refine h.reflagBlock hb hfree hkind ?_ ?_
  · intro r hne
    rw [holds_reflag hd, give_other hne]
  · intro n n' hle hmove hacc
    rw [holds_reflag hd, give_self] at hmove
    obtain rfl : n' = n + 1 := by omega
    exact hacc.incr hlive

/-- A weak reference to a block on the heap made strong, or refused. -/
theorem Sound.incrNotDeallocatingBlock (h : Sound m own) (hb : m.cell a = some (.block b))
    (hfree : b.flags &&& blockNeedsFree ≠ 0) :
    Sound (m.set a (.block { b with flags := (apply .incrNotDeallocating b.flags).1 }))
      (if (apply .incrNotDeallocating b.flags).2 = .truth true then give own [.block a] else own) := by
  by_cases hlive : Deallocating b.flags
  · rw [apply_refused hlive]
    refine h.reflagBlock hb hfree rfl ?_ ?_
    · intro r hne
      simp
    · intro n n' hle hmove hacc
      simp only [reduceCtorEq, ite_false, Reply.truth.injEq] at hmove
      obtain rfl : n' = n := by simpa using hmove
      exact hacc
  · obtain ⟨hreply, hd, hkind⟩ := apply_retained hlive
    rw [if_pos hreply]
    refine h.reflagBlock hb hfree hkind ?_ ?_
    · intro r hne
      rw [holds_reflag hd, give_other hne]
    · intro n n' hle hmove hacc
      rw [holds_reflag hd, give_self] at hmove
      obtain rfl : n' = n + 1 := by omega
      cases hacc.incrNotDeallocating with
      | inl hrefused => exact absurd hrefused.2.1 hlive
      | inr hgot => exact hgot.1

/-- A reference to a finished block is given up. If it was the last one the
caller takes over what the block held. -/
theorem Sound.decrBlock (h : Sound m (give own [.block a])) (hb : m.cell a = some (.block b))
    (hfree : b.flags &&& blockNeedsFree ≠ 0) (hisa : b.isa = .mallocBlock) :
    (((apply .decrShouldDeallocate b.flags).2 ≠ .truth true ∧
        ¬ Deallocating (apply .decrShouldDeallocate b.flags).1 ∧
        Sound (m.set a (.block { b with flags := (apply .decrShouldDeallocate b.flags).1 })) own) ∨
      ((apply .decrShouldDeallocate b.flags).2 = .truth true ∧
        Deallocating (apply .decrShouldDeallocate b.flags).1 ∧
        Sound (m.set a (.block { b with flags := (apply .decrShouldDeallocate b.flags).1 }))
          (give own (b.imported.flatMap refs)))) ∧
      ¬ Deallocating b.flags ∧ kind (apply .decrShouldDeallocate b.flags).1 = kind b.flags := by
  obtain ⟨k, _, hcounted⟩ := h.ledger (.block a)
  simp only [Counted, hb, flagsOf, if_pos hfree, give_self] at hcounted
  have hacc : Accounts b.flags ((own (.block a) + k) + 1) := by
    rw [show own (.block a) + k + 1 = own (.block a) + 1 + k by omega]
    exact hcounted
  have hlive := hacc.not_deallocating (Nat.succ_pos _)
  obtain ⟨_, htold, hkind⟩ := hacc.decr
  refine ⟨?_, hlive, hkind⟩
  by_cases hd : Deallocating (apply .decrShouldDeallocate b.flags).1
  · refine .inr ⟨htold.mpr hd, hd, h.reflagBlock hb hfree hkind ?_ ?_⟩
    · intro r hne
      rw [holds_deallocating (b := { b with flags := _ }) hd, holds_finished hisa hlive, give_other hne]
      simp [give]
    · intro n n' hle hmove hacc'
      rw [holds_deallocating (b := { b with flags := _ }) hd, holds_finished hisa hlive, give_self] at hmove
      rw [holds_finished hisa hlive, give_self] at hle
      obtain ⟨n, rfl⟩ : ∃ n₀, n = n₀ + 1 := ⟨n - 1, by omega⟩
      have hlast := hacc'.decr.1
      have hzero := hlast.eq_zero hd
      simp only [give, List.count_nil] at hmove
      obtain rfl : n' = n := by omega
      exact hlast
  · have hstill : Deallocating (apply .decrShouldDeallocate b.flags).1 ↔ Deallocating b.flags := by
      simp [hd, hlive]
    refine .inl ⟨fun ht => hd (htold.mp ht), hd, h.reflagBlock hb hfree hkind ?_ ?_⟩
    · intro r hne
      rw [holds_reflag hstill, give_other hne]
    · intro n n' hle hmove hacc'
      rw [holds_reflag hstill, give_self] at hmove
      rw [give_self] at hle
      obtain rfl : n = n' + 1 := by omega
      exact hacc'.decr.1

/-- A new block on the heap, not finished yet: the caller has the one reference. -/
theorem Sound.newBlock (h : Sound m own) (ha : m.cell a = none)
    (hcell : m'.cell = Function.update m.cell a (some (.block b)))
    (hcalls : m'.callbacks = m.callbacks) (hnext : m.next ≤ m'.next) (hlt : a < m'.next)
    (hshape : BlockShape b) (hisa : b.isa ≠ .mallocBlock) (hfree : b.flags &&& blockNeedsFree ≠ 0)
    (hcount : refcount b.flags = 1) (hfresh : ¬ Deallocating b.flags) :
    Sound m' (give own [.block a]) := by
  refine h.put hcell hnext hlt hshape ?_
  apply h.ledger.changeTarget (.block a) hcell hcalls
  · intro r hr hne
    rw [ha, flagsOf_block hr hne, flagsOf_none]
  · intro r hne
    rw [ha, holds_unfinished hisa, give_other hne]
    rfl
  · intro n n' hle hmove hcounted
    rw [ha, holds_unfinished hisa, give_self] at hmove
    simp only [Counted, ha, flagsOf] at hcounted
    subst hcounted
    simp only [holds, List.count_nil] at hmove
    obtain rfl : n' = 1 := by omega
    simp only [Counted, hcell, Function.update_self, flagsOf, if_pos hfree]
    exact .of_fresh hcount (by decide) hfresh

/-- References to a global block come and go. -/
theorem Sound.ofGlobal (h : Sound m own) (hb : m.cell a = some (.block b))
    (hstatic : b.flags &&& blockNeedsFree = 0) (hglobal : b.flags &&& blockIsGlobal ≠ 0)
    (hother : ∀ r, r ≠ .block a → own' r = own r) : Sound m own' := by
  refine ⟨h.fresh, h.shape, ?_⟩
  intro r
  obtain ⟨n, htotal, hcounted⟩ := h.ledger r
  refine ⟨n, htotal, ?_⟩
  by_cases hr : r = .block a
  · subst hr
    simp only [Counted, hb, flagsOf, if_neg (not_not_intro hstatic)]
    exact .inl hglobal
  · rw [hother r hr]
    exact hcounted

/-- A block that keeps its flags word, with what is held moving in or out of it. -/
theorem Sound.setBlock (h : Sound m own) (hb : m.cell a = some (.block b)) {b' : BlockLayout}
    (hflags : b'.flags = b.flags) (hshape : BlockShape b')
    (hown : ∀ r, own' r + (holds a (some (.block b'))).count r = own r + (holds a (some (.block b))).count r) :
    Sound (m.set a (.block b')) own' := by
  have hlt : a < (m.set a (.block b')).next := h.lt_next hb
  refine h.put rfl (Nat.le_refl _) hlt hshape ?_
  apply h.ledger.changeQuiet (Memory.set_cell m a _) rfl
  · intro r hr
    rw [hb]
    cases r with
    | object o => rfl
    | block x => simp [flagsOf, hflags]
    | byref x => rfl
  · intro r
    rw [hb]
    exact hown r

/-- A block under construction imports something. -/
theorem Sound.setUnfinished (h : Sound m own) (hb : m.cell a = some (.block b)) (hisa : b.isa ≠ .mallocBlock)
    {imported : List Variable} (hshape : BlockShape { b with imported := imported }) :
    Sound (m.set a (.block { b with imported := imported })) own := by
  refine h.setBlock hb rfl hshape ?_
  intro r
  rw [holds_unfinished hisa, holds_unfinished (b := { b with imported := imported }) hisa]

/-- The block is finished and takes over the references it imported. -/
theorem Sound.finishBlock (h : Sound m (give own (b.imported.flatMap refs))) (hb : m.cell a = some (.block b))
    (hisa : b.isa ≠ .mallocBlock) (hlive : ¬ Deallocating b.flags)
    (hshape : BlockShape { b with isa := .mallocBlock }) :
    Sound (m.set a (.block { b with isa := .mallocBlock })) own := by
  refine h.setBlock hb rfl hshape ?_
  intro r
  rw [holds_unfinished hisa, holds_finished (b := { b with isa := .mallocBlock }) rfl hlive]
  simp [give]

/-- The cell of something deallocated goes back to malloc. -/
theorem Sound.erase (h : Sound m own) (hcell : m'.cell = Function.update m.cell a none)
    (hnext : m'.next = m.next) (hledger : Ledger m' own') : Sound m' own' := by
  constructor
  · intro x hx
    rw [hcell]
    by_cases hxa : x = a
    · simp [hxa]
    · rw [Function.update_of_ne hxa]
      exact h.fresh x (hnext ▸ hx)
  · intro x d hd
    rw [hcell] at hd
    by_cases hxa : x = a
    · simp [hxa] at hd
    · rw [Function.update_of_ne hxa] at hd
      exact h.shape x d hd
  · exact hledger

theorem Sound.freeBlock (h : Sound m own) (hb : m.cell a = some (.block b))
    (hfree : b.flags &&& blockNeedsFree ≠ 0) (hd : Deallocating b.flags)
    (hcell : m'.cell = Function.update m.cell a none) (hcalls : m'.callbacks = m.callbacks)
    (hnext : m'.next = m.next) : Sound m' own := by
  refine h.erase hcell hnext ?_
  apply h.ledger.changeTarget (.block a) hcell hcalls
  · intro r hr hne
    rw [hb, flagsOf_block hr hne, flagsOf_none]
  · intro r _
    rw [hb, holds_deallocating hd]
    rfl
  · intro n n' hle hmove hcounted
    rw [hb, holds_deallocating hd] at hmove
    simp only [Counted, hb, flagsOf, if_pos hfree] at hcounted
    have hzero := hcounted.eq_zero hd
    simp only [holds] at hmove
    obtain rfl : n' = 0 := by omega
    simp only [Counted, hcell, Function.update_self, flagsOf]

/-- The flags of a variable on the heap, which forwards to itself. -/
theorem Sound.reflagByref (h : Sound m own) (hv : m.cell a = some (.byref v))
    (hfree : v.flags &&& blockByrefNeedsFree ≠ 0) {w : Word} (hkind : kind w = kind v.flags)
    (hother : ∀ r, r ≠ .byref a → own' r = own r)
    (htarget : ∀ n n', own (.byref a) ≤ n → n' + own (.byref a) = n + own' (.byref a) →
      Accounts v.flags n → Accounts w n') :
    Sound (m.set a (.byref { v with flags := w })) own' := by
  have hneeds : w &&& blockByrefNeedsFree ≠ 0 := by
    rw [show w &&& blockByrefNeedsFree = _ from needsFree_of_kind hkind]
    exact hfree
  have hshape : ByrefShape a v := h.shape a _ hv
  have hself := hshape.heap hfree
  have hlt : a < (m.set a (.byref { v with flags := w })).next := h.lt_next hv
  refine h.put rfl (Nat.le_refl _) hlt ?_ ?_
  · have hhelp : w &&& blockByrefHasCopyDispose = v.flags &&& blockByrefHasCopyDispose :=
      and_eq_of_kind hkind (by decide)
    refine ⟨fun _ => hself, fun hstack => absurd hstack hneeds, hshape.caller, ?_⟩
    intro hcopy
    change w &&& blockByrefHasCopyDispose ≠ 0 at hcopy
    rw [hhelp] at hcopy
    exact hshape.helped hcopy
  · apply h.ledger.changeTarget (.byref a) (Memory.set_cell m a _) rfl
    · intro r hr hne
      rw [hv, flagsOf_byref hr hne, flagsOf_byref hr hne]
    · intro r hne
      rw [hv, hother r hne]
      rfl
    · intro n n' hle hmove hcounted
      simp only [hv, holds, hself, ite_true, List.count_nil] at hle hmove
      simp only [Counted, hv, flagsOf, if_pos hfree] at hcounted
      simp only [Counted, Memory.set, Function.update_self, flagsOf, if_pos hneeds]
      exact htarget n n' hle hmove hcounted

theorem Sound.incrByref (h : Sound m own) (hv : m.cell a = some (.byref v))
    (hfree : v.flags &&& blockByrefNeedsFree ≠ 0) (hlive : ¬ Deallocating v.flags) :
    Sound (m.set a (.byref { v with flags := (apply .incr v.flags).1 })) (give own [.byref a]) := by
  obtain ⟨_, hkind⟩ := apply_incr v.flags
  refine h.reflagByref hv hfree hkind ?_ ?_
  · intro r hne
    exact give_other hne
  · intro n n' hle hmove hacc
    rw [give_self] at hmove
    obtain rfl : n' = n + 1 := by omega
    exact hacc.incr hlive

/-- A reference to a variable on the heap is given up. -/
theorem Sound.decrByref (h : Sound m (give own [.byref a])) (hv : m.cell a = some (.byref v))
    (hfree : v.flags &&& blockByrefNeedsFree ≠ 0) :
    Sound (m.set a (.byref { v with flags := (apply .decrShouldDeallocate v.flags).1 })) own ∧
      ((apply .decrShouldDeallocate v.flags).2 = .truth true ↔
        Deallocating (apply .decrShouldDeallocate v.flags).1) ∧
      v.flags &&& blockRefcountMask ≠ 0 ∧ kind (apply .decrShouldDeallocate v.flags).1 = kind v.flags := by
  obtain ⟨k, _, hcounted⟩ := h.ledger (.byref a)
  simp only [Counted, hv, flagsOf, if_pos hfree, give_self] at hcounted
  have hacc : Accounts v.flags ((own (.byref a) + k) + 1) := by
    rw [show own (.byref a) + k + 1 = own (.byref a) + 1 + k by omega]
    exact hcounted
  obtain ⟨_, htold, hkind⟩ := hacc.decr
  refine ⟨h.reflagByref hv hfree hkind ?_ ?_, htold, ?_, hkind⟩
  · intro r hne
    exact (give_other hne).symm
  · intro n n' hle hmove hacc'
    rw [give_self] at hle hmove
    obtain rfl : n = n' + 1 := by omega
    exact hacc'.decr.1
  · intro hzero
    have hcount := (refcount_eq_zero_iff v.flags).mp hzero
    cases hacc with
    | inl hl =>
      rw [Latched, hcount] at hl
      exact absurd hl.1 (by decide)
    | inr hr => omega

theorem Sound.freeByref (h : Sound m own) (hv : m.cell a = some (.byref v))
    (hfree : v.flags &&& blockByrefNeedsFree ≠ 0) (hd : Deallocating v.flags)
    (hcell : m'.cell = Function.update m.cell a none) (hcalls : m'.callbacks = m.callbacks)
    (hnext : m'.next = m.next) : Sound m' own := by
  have hshape : ByrefShape a v := h.shape a _ hv
  have hself := hshape.heap hfree
  refine h.erase hcell hnext ?_
  apply h.ledger.changeTarget (.byref a) hcell hcalls
  · intro r hr hne
    rw [hv, flagsOf_byref hr hne, flagsOf_none]
  · intro r _
    simp [hv, holds, hself]
  · intro n n' hle hmove hcounted
    simp only [hv, holds, hself, ite_true] at hmove
    simp only [Counted, hv, flagsOf, if_pos hfree] at hcounted
    have hzero := hcounted.eq_zero hd
    obtain rfl : n' = 0 := by omega
    simp only [Counted, hcell, Function.update_self, flagsOf]

/-- The copy of a variable and the forwarding pointer to it: the caller and the
stack have a reference each. -/
theorem Sound.newByref (h : Sound m own) (ha : m.cell a = none) {heap : BlockByref} {src : Addr}
    (hsrc : m.cell src = some (.byref v)) (hstack : v.flags &&& blockByrefNeedsFree = 0)
    (hself : v.forwarding = src)
    (hcell : m'.cell = Function.update (Function.update m.cell a (some (.byref heap))) src
      (some (.byref { v with forwarding := a })))
    (hcalls : m'.callbacks = m.callbacks) (hnext : m.next ≤ m'.next) (hlt : a < m'.next)
    (hshape : ByrefShape a heap) (hforward : heap.forwarding = a)
    (hfree : heap.flags &&& blockByrefNeedsFree ≠ 0) (hcount : refcount heap.flags = 2)
    (hfresh : ¬ Deallocating heap.flags) : Sound m' (give own [.byref a]) := by
  have hne : src ≠ a := fun he => by
    rw [he, ha] at hsrc
    cases hsrc
  have hshapeSrc : ByrefShape src v := h.shape src _ hsrc
  -- first the copy, with both references outside
  let m₁ : Memory := { m' with cell := Function.update m.cell a (some (.byref heap)) }
  have hcell₁ : m₁.cell = Function.update m.cell a (some (.byref heap)) := rfl
  have hcalls₁ : m₁.callbacks = m.callbacks := hcalls
  have hfirst : Sound m₁ (give own [.byref a, .byref a]) := by
    refine h.put rfl hnext hlt hshape ?_
    apply h.ledger.changeTarget (.byref a) hcell₁ hcalls₁
    · intro r hr hr'
      rw [ha, flagsOf_byref hr hr', flagsOf_none]
    · intro r hr'
      simp [ha, holds, hforward, give, Ne.symm hr']
    · intro n n' hle hmove hcounted
      simp only [Counted, ha, flagsOf] at hcounted
      subst hcounted
      simp only [ha, holds, hforward, ite_true, List.count_nil, give, List.count_cons_self] at hmove
      obtain rfl : n' = 2 := by omega
      simp only [Counted, m₁, Function.update_self, flagsOf, if_pos hfree]
      exact .of_fresh hcount (by decide) hfresh
  -- then the stack takes one of them
  have hsrc₁ : m₁.cell src = some (.byref v) := by simp only [m₁, Function.update_of_ne hne, hsrc]
  refine hfirst.put hcell (Nat.le_refl _) (Nat.lt_of_lt_of_le (h.lt_next hsrc) hnext) ?_ ?_
  · exact ⟨fun hf => absurd hstack hf, fun _ => hshapeSrc.stack hstack, hshapeSrc.caller, hshapeSrc.helped⟩
  · apply hfirst.ledger.changeQuiet hcell rfl
    · intro r hr
      rw [hsrc₁]
      cases r <;> rfl
    · intro r
      simp only [hsrc₁, holds, hself, ite_true, if_neg (Ne.symm hne), give, List.count_cons, List.count_nil]
      omega

/-- A variable keeps its flags word and its forwarding pointer. -/
theorem Sound.setByref (h : Sound m own) (hv : m.cell a = some (.byref v)) {v' : BlockByref}
    (hflags : v'.flags = v.flags) (hforward : v'.forwarding = v.forwarding) (hshape : ByrefShape a v') :
    Sound (m.set a (.byref v')) own := by
  have hlt : a < (m.set a (.byref v')).next := h.lt_next hv
  refine h.put rfl (Nat.le_refl _) hlt hshape ?_
  apply h.ledger.changeQuiet (Memory.set_cell m a _) rfl
  · intro r hr
    rw [hv]
    cases r with
    | object o => rfl
    | block x => rfl
    | byref x => simp [flagsOf, hflags]
  · intro r
    simp [hv, holds, hforward]

/-- An object is retained for the caller. -/
theorem Sound.retainObject (h : Sound m own) (o : Option Addr) :
    Sound (m.call (.retainObject o)) (give own (o.toList.map Ref.object)) := by
  refine ⟨h.fresh, h.shape, h.ledger.call _ ?_ ?_⟩
  · intro x
    cases o <;> simp [give]
  · intro x n hcount
    cases o with
    | none => simpa [give] using hcount
    | some y =>
      by_cases hxy : x = y
      · subst hxy
        simp [give, hcount]
        omega
      · simp [give, hcount, Ne.symm hxy]

/-- An object is released by the caller. -/
theorem Sound.releaseObject {o : Option Addr} (h : Sound m (give own (o.toList.map Ref.object))) :
    Sound (m.call (.releaseObject o)) own := by
  refine ⟨h.fresh, h.shape, h.ledger.call _ ?_ ?_⟩
  · intro x
    cases o <;> simp [give]
  · intro x n hcount
    cases o with
    | none => simpa [give] using hcount
    | some y =>
      by_cases hxy : x = y
      · subst hxy
        simp [give] at hcount ⊢
        omega
      · simpa [give, Ne.symm hxy] using hcount

theorem Sound.destructInstance (h : Sound m own) (x : Addr) : Sound (m.call (.destructInstance x)) own :=
  ⟨h.fresh, h.shape, h.ledger.call _ (fun _ => ⟨rfl, rfl⟩) fun o n hcount => by simpa using hcount⟩

end

/-- On the heap, and not finished yet or already marked. -/
def Open : Cell → Prop
  | .block b => b.flags &&& blockNeedsFree ≠ 0 ∧ (b.isa ≠ .mallocBlock ∨ Deallocating b.flags)
  | .byref v => v.flags &&& blockByrefNeedsFree ≠ 0 ∧ Deallocating v.flags

def Unsettled (m : Memory) (x : Addr) : Prop := ∃ c, m.cell x = some c ∧ Open c

/-- No block holds itself by way of others. -/
def Ranked (m : Memory) : Prop :=
  ∃ rank : Addr → Nat, ∀ x y, .block y ∈ holds x (m.cell x) → rank y < rank x

/-- Nothing is left half done, and no circle is closed. -/
structure Tidy (m m' : Memory) : Prop where
  only : ∀ x, Unsettled m' x → Unsettled m x
  ranked : Ranked m → Ranked m'

theorem Tidy.refl (m : Memory) : Tidy m m := ⟨fun _ hx => hx, fun hr => hr⟩

theorem Tidy.trans {m m₁ m₂ : Memory} (h : Tidy m m₁) (h' : Tidy m₁ m₂) : Tidy m m₂ :=
  ⟨fun x hx => h.only x (h'.only x hx), fun hr => h'.ranked (h.ranked hr)⟩

theorem Ranked.fewer {m m' : Memory} (h : Ranked m)
    (hholds : ∀ x y, .block y ∈ holds x (m'.cell x) → .block y ∈ holds x (m.cell x)) : Ranked m' := by
  obtain ⟨rank, hrank⟩ := h
  exact ⟨rank, fun x y hy => hrank x y (hholds x y hy)⟩

/-- A cell that changes without opening and without holding more blocks. -/
theorem Tidy.update {m m' : Memory} {a : Addr} {c : Cell} (hcell : m'.cell = Function.update m.cell a (some c))
    (hopen : Open c → Unsettled m a)
    (hholds : ∀ y, .block y ∈ holds a (some c) → .block y ∈ holds a (m.cell a)) : Tidy m m' := by
  constructor
  · rintro x ⟨d, hd, hopen'⟩
    rw [hcell] at hd
    by_cases hx : x = a
    · subst hx
      simp only [Function.update_self, Option.some.injEq] at hd
      subst hd
      exact hopen hopen'
    · rw [Function.update_of_ne hx] at hd
      exact ⟨d, hd, hopen'⟩
  · intro hr
    apply hr.fewer
    intro x y hy
    rw [hcell] at hy
    by_cases hx : x = a
    · subst hx
      rw [Function.update_self] at hy
      exact hholds y hy
    · rwa [Function.update_of_ne hx] at hy

/-- A finished block that only changes its count. -/
theorem Tidy.reflagBlock {m : Memory} {a : Addr} {b : BlockLayout} {w : Word} (hb : m.cell a = some (.block b))
    (hisa : b.isa = .mallocBlock) (hlive : ¬ Deallocating b.flags) (hd : ¬ Deallocating w) :
    Tidy m (m.set a (.block { b with flags := w })) := by
  have hsame : Deallocating w ↔ Deallocating b.flags := by simp [hd, hlive]
  apply Tidy.update (Memory.set_cell m a _)
  · rintro ⟨_, hopen | hopen⟩
    · exact absurd hisa hopen
    · exact absurd hopen hd
  · intro y hy
    rw [hb]
    rwa [holds_reflag hsame] at hy

/-- A cell that is taken away leaves nothing half done and closes no circle. -/
theorem Tidy.erase {m m' : Memory} {a : Addr} (hcell : m'.cell = Function.update m.cell a none) : Tidy m m' := by
  constructor
  · rintro x ⟨c, hc, hopen⟩
    by_cases hx : x = a
    · simp [hcell, hx] at hc
    · exact ⟨c, by simpa [hcell, hx] using hc, hopen⟩
  · intro hr
    apply hr.fewer
    intro x y hy
    by_cases hx : x = a
    · simp [hcell, hx, holds] at hy
    · simpa [hcell, hx] using hy

theorem exists_above {α : Type} (f : α → Nat) (l : List α) : ∃ n, ∀ x ∈ l, f x < n := by
  induction l with
  | nil => exact ⟨0, fun x hx => by cases hx⟩
  | cons y l ih =>
    obtain ⟨n, hn⟩ := ih
    refine ⟨max n (f y + 1), fun x hx => ?_⟩
    cases List.mem_cons.mp hx with
    | inl he =>
      subst he
      omega
    | inr hmem =>
      have hlt := hn x hmem
      omega

/-- A block that nobody holds yet closes no circle, whatever it holds. -/
theorem Ranked.finish {m m' : Memory} (h : Ranked m) {a : Addr} {c : Option Cell}
    (hcell : m'.cell = Function.update m.cell a c) (hnone : ∀ x, .block a ∉ holds x (m'.cell x)) :
    Ranked m' := by
  obtain ⟨rank, hrank⟩ := h
  obtain ⟨n, hn⟩ := exists_above (fun r : Ref => rank r.addr) (holds a c)
  refine ⟨fun x => if x = a then n else rank x, ?_⟩
  intro x y hy
  have hya : y ≠ a := fun he => hnone x (he ▸ hy)
  change (if y = a then n else rank y) < (if x = a then n else rank x)
  rw [if_neg hya]
  rw [hcell] at hy
  by_cases hx : x = a
  · subst hx
    rw [Function.update_self] at hy
    rw [if_pos rfl]
    exact hn _ hy
  · rw [Function.update_of_ne hx] at hy
    rw [if_neg hx]
    exact hrank x y hy

/-- The only reference to a block that was counted once is the caller's. -/
theorem Sound.unshared {m : Memory} {own : Ref → Nat} {a : Addr} {b : BlockLayout}
    (h : Sound m (give own [.block a])) (hb : m.cell a = some (.block b))
    (hfree : b.flags &&& blockNeedsFree ≠ 0) (hone : refcount b.flags = 1) (x : Addr) :
    .block a ∉ holds x (m.cell x) := by
  obtain ⟨n, htotal, hcounted⟩ := h.ledger (.block a)
  simp only [Counted, hb, flagsOf, if_pos hfree, give_self] at hcounted
  have hzero : n = 0 := by
    cases hcounted with
    | inl hl => exact absurd hl.1 (Accounts.not_latched_of_one hone)
    | inr hr => omega
  have hle := htotal.le x
  rw [hzero] at hle
  exact List.count_eq_zero.mp (Nat.le_zero.mp hle)

theorem block_notMem_byref {a y : Addr} {v : BlockByref} : .block y ∉ holds a (some (.byref v)) := by
  simp only [holds]
  split <;> simp

end BlockLedger
