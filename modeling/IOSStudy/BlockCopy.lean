import IOSStudy.BlockLedger

/-!
# Copying blocks

What `_Block_copy` does to the memory: the references stay in the ledger,
everything there was stays as it was seen from outside, and the copy means what
the block means.
-/
namespace BlockCopy

open BlockFlags BlockRuntime BlockLedger

def forwardingAt (m : Memory) (a : Addr) : Option Addr :=
  match m.cell a with
  | some (.byref v) => some v.forwarding
  | _ => none

def contentsAt (m : Memory) (a : Addr) : Option Variable :=
  match m.cell a with
  | some (.byref v) => some v.contents
  | _ => none

/-- The variable that a `__block` structure stands for, through the forwarding pointer. -/
def variableAt (m : Memory) (a : Addr) : Option Variable := (forwardingAt m a).bind (contentsAt m)

theorem variableAt_byref {m : Memory} {a : Addr} {v : BlockByref} (h : m.cell a = some (.byref v)) :
    variableAt m a = contentsAt m v.forwarding := by simp [variableAt, forwardingAt, h]

/-- The structure at a has its variable on the heap, at f. -/
def Leads (m : Memory) (a f : Addr) : Prop :=
  forwardingAt m a = some f ∧
    ∃ v, m.cell f = some (.byref v) ∧ v.flags &&& blockByrefNeedsFree ≠ 0 ∧ v.forwarding = f

theorem forwardingAt_update {m m' : Memory} {a : Addr} {c : Option Cell}
    (hcell : m'.cell = Function.update m.cell a c) (hforward : forwardingAt m' a = forwardingAt m a) :
    forwardingAt m' = forwardingAt m := by
  funext x
  by_cases hx : x = a
  · rw [hx, hforward]
  · simp [forwardingAt, hcell, hx]

/-- Nothing is read differently when a cell keeps what is read of it. -/
theorem variableAt_update {m m' : Memory} {a : Addr} {c : Option Cell}
    (hcell : m'.cell = Function.update m.cell a c)
    (hforward : forwardingAt m' a = forwardingAt m a) (hcontents : contentsAt m' a = contentsAt m a) :
    variableAt m' = variableAt m := by
  have hf := forwardingAt_update hcell hforward
  have hc : contentsAt m' = contentsAt m := by
    funext x
    by_cases hx : x = a
    · rw [hx, hcontents]
    · simp [contentsAt, hcell, hx]
  funext x
  rw [variableAt, variableAt, hf, hc]

/-- How a cell may change while blocks are copied. -/
inductive Kept (a : Addr) : Cell → Cell → Prop
  | same (c : Cell) : Kept a c c
  | block (b : BlockLayout) (w : Word) : b.isa = .mallocBlock → kind w = kind b.flags →
      (Deallocating w ↔ Deallocating b.flags) → Kept a (.block b) (.block { b with flags := w })
  | byref (v : BlockByref) (w : Word) : v.flags &&& blockByrefNeedsFree ≠ 0 → kind w = kind v.flags →
      (Deallocating w ↔ Deallocating v.flags) → Kept a (.byref v) (.byref { v with flags := w })
  | forwarded (v : BlockByref) (f : Addr) : v.flags &&& blockByrefNeedsFree = 0 → v.forwarding = a →
      Kept a (.byref v) (.byref { v with forwarding := f })

theorem Kept.trans {a : Addr} {c d e : Cell} (h : Kept a c d) (h' : Kept a d e) : Kept a c e := by
  cases h with
  | same => exact h'
  | block b w hisa hkind hd =>
    cases h' with
    | same => exact .block b w hisa hkind hd
    | block _ w' _ hkind' hd' => exact .block b w' hisa (hkind'.trans hkind) (hd'.trans hd)
  | byref v w hfree hkind hd =>
    cases h' with
    | same => exact .byref v w hfree hkind hd
    | byref _ w' _ hkind' hd' => exact .byref v w' hfree (hkind'.trans hkind) (hd'.trans hd)
    | forwarded _ f hstack _ => exact absurd ((needsFree_of_kind hkind).symm.trans hstack) hfree
  | forwarded v f hstack hself =>
    cases h' with
    | same => exact .forwarded v f hstack hself
    | byref _ w' hfree _ _ => exact absurd hstack hfree
    | forwarded _ f' _ _ => exact .forwarded v f' hstack hself

/-- The memory afterwards has what it had, a `__block` variable reads the same, and
different variables stay different. -/
structure Extends (m m' : Memory) : Prop where
  next : m.next ≤ m'.next
  room : m'.room ≤ m.room
  absent : ∀ a, a < m.next → m.cell a = none → m'.cell a = none
  cells : ∀ a c, m.cell a = some c → ∃ c', m'.cell a = some c' ∧ Kept a c c'
  reads : ∀ a x, variableAt m a = some x → variableAt m' a = some x
  apart : ∀ x y, forwardingAt m x ≠ none → forwardingAt m y ≠ none →
    forwardingAt m' x = forwardingAt m' y → forwardingAt m x = forwardingAt m y

theorem Extends.refl (m : Memory) : Extends m m :=
  ⟨Nat.le_refl _, Nat.le_refl _, fun _ _ ha => ha, fun _ c hc => ⟨c, hc, .same c⟩, fun _ _ hx => hx,
    fun _ _ _ _ he => he⟩

theorem Extends.present {m m' : Memory} (h : Extends m m') {x : Addr} (hx : forwardingAt m x ≠ none) :
    forwardingAt m' x ≠ none := by
  cases hc : m.cell x with
  | none => simp [forwardingAt, hc] at hx
  | some c =>
    obtain ⟨c', hc', hk⟩ := h.cells x c hc
    cases hk with
    | same => simpa [forwardingAt, hc, hc'] using hx
    | block => simp [forwardingAt, hc] at hx
    | byref => simp [forwardingAt, hc']
    | forwarded => simp [forwardingAt, hc']

theorem Extends.trans {m m₁ m₂ : Memory} (h : Extends m m₁) (h' : Extends m₁ m₂) : Extends m m₂ := by
  constructor
  · exact h.next.trans h'.next
  · exact h'.room.trans h.room
  · intro a hlt ha
    exact h'.absent a (Nat.lt_of_lt_of_le hlt h.next) (h.absent a hlt ha)
  · intro a c hc
    obtain ⟨c₁, hc₁, hk₁⟩ := h.cells a c hc
    obtain ⟨c₂, hc₂, hk₂⟩ := h'.cells a c₁ hc₁
    exact ⟨c₂, hc₂, hk₁.trans hk₂⟩
  · intro a x hx
    exact h'.reads a x (h.reads a x hx)
  · intro x y hx hy he
    exact h.apart x y hx hy (h'.apart x y (h.present hx) (h.present hy) he)

/-- A block that is not a finished one on the heap stays as it is. -/
theorem Extends.block {m m' : Memory} (h : Extends m m') {a : Addr} {b : BlockLayout}
    (hb : m.cell a = some (.block b)) (hisa : b.isa ≠ .mallocBlock) : m'.cell a = some (.block b) := by
  obtain ⟨c, hc, hk⟩ := h.cells a _ hb
  cases hk with
  | same => exact hc
  | block _ _ hisa' _ _ => exact absurd hisa' hisa

/-- A variable that is on the heap stays where it is. -/
theorem Extends.leads {m m' : Memory} (h : Extends m m') {a f : Addr} (hl : Leads m a f) : Leads m' a f := by
  obtain ⟨hforward, v, hv, hfree, hself⟩ := hl
  constructor
  · cases hc : m.cell a with
    | none => simp [forwardingAt, hc] at hforward
    | some c =>
      obtain ⟨c', hc', hk⟩ := h.cells a c hc
      cases hk with
      | same => simpa [forwardingAt, hc, hc'] using hforward
      | block => simp [forwardingAt, hc] at hforward
      | byref u w _ _ _ => simpa [forwardingAt, hc, hc'] using hforward
      | forwarded u g hstack hself' =>
        have hfa : a = f := by simpa [forwardingAt, hc, hself'] using hforward
        rw [← hfa, hc] at hv
        cases hv
        exact absurd hstack hfree
  · obtain ⟨c', hc', hk⟩ := h.cells f _ hv
    cases hk with
    | same => exact ⟨v, hc', hfree, hself⟩
    | byref _ w _ hkind _ =>
      have hbit : w &&& blockByrefNeedsFree = v.flags &&& blockByrefNeedsFree := needsFree_of_kind hkind
      exact ⟨_, hc', by rw [hbit]; exact hfree, hself⟩
    | forwarded _ _ hstack _ => exact absurd hstack hfree

/-- A variable in a block literal can be copied: what it points to is there. -/
def copyableVariable (m : Memory) (copyable : Addr → Bool) (deep : Bool) : Variable → Bool
  | .plain _ => true
  | .pointer flags o => match fieldKind flags, o with
    | .block, some a => copyable a
    | .byref, some a => match m.cell a with
      | some (.byref v) => deep &&
        (decide (v.flags &&& blockByrefNeedsFree = 0) || !decide (Deallocating v.flags))
      | _ => false
    | .byref, none => false
    | _, _ => true

/-- The block can be copied: it is on the heap and alive, or global, or on the
stack with all it imports still in scope. -/
def copyable (m : Memory) : Nat → Addr → Bool
  | 0, _ => false
  | fuel + 1, a => match m.cell a with
    | some (.block b) =>
      if b.flags &&& blockNeedsFree ≠ 0 then decide (b.isa = .mallocBlock) && !decide (Deallocating b.flags)
      else if b.flags &&& blockIsGlobal ≠ 0 then true
      else b.imported.all (copyableVariable m (copyable m fuel) (fuel != 0))
    | _ => false

theorem copyableVariable_extends {m m' : Memory} (h : Extends m m') {f g : Addr → Bool}
    (hfg : ∀ a, f a = true → g a = true) {deep : Bool} {v : Variable}
    (hv : copyableVariable m f deep v = true) : copyableVariable m' g deep v = true := by
  cases v with
  | plain n => rfl
  | pointer flags o =>
    simp only [copyableVariable] at hv ⊢
    cases hkind : fieldKind flags with
    | object | byrefCaller | other => simp
    | block =>
      cases o with
      | none => simp
      | some a => simpa using hfg a (by simpa [hkind] using hv)
    | byref =>
      cases o with
      | none => simp [hkind] at hv
      | some a =>
        simp only [hkind] at hv ⊢
        split at hv
        · next v hc =>
          obtain ⟨c, hc', hk⟩ := h.cells a _ hc
          cases hk with
          | same => simpa [hc'] using hv
          | byref _ w hfree hkw hd =>
            simp only [hc']
            have hsame : w &&& blockByrefNeedsFree = v.flags &&& blockByrefNeedsFree := needsFree_of_kind hkw
            simpa [hsame, hd] using hv
          | forwarded _ f _ _ => simpa [hc'] using hv
        · cases hv

theorem copyable_succ_iff {m : Memory} {k : Nat} {a : Addr} : copyable m (k + 1) a = true ↔
    ∃ b, m.cell a = some (.block b) ∧
      ((b.flags &&& blockNeedsFree ≠ 0 ∧ b.isa = .mallocBlock ∧ ¬ Deallocating b.flags) ∨
        (b.flags &&& blockNeedsFree = 0 ∧ b.flags &&& blockIsGlobal ≠ 0) ∨
        (b.flags &&& blockNeedsFree = 0 ∧ b.flags &&& blockIsGlobal = 0 ∧
          ∀ v ∈ b.imported, copyableVariable m (copyable m k) (k != 0) v = true)) := by
  simp only [copyable]
  cases hc : m.cell a with
  | none => simp
  | some c =>
    cases c with
    | byref v => simp
    | block b =>
      by_cases hfree : b.flags &&& blockNeedsFree = 0#32
      · by_cases hglobal : b.flags &&& blockIsGlobal = 0#32
        · simp [hfree, hglobal]
        · simp [hfree, hglobal]
      · simp [hfree]

theorem copyable_extends {m m' : Memory} (h : Extends m m') {k : Nat} :
    ∀ {a : Addr}, copyable m k a = true → copyable m' k a = true := by
  induction k with
  | zero => intro a ha; cases ha
  | succ k ih =>
    intro a ha
    obtain ⟨b, hb, hcase⟩ := copyable_succ_iff.mp ha
    obtain ⟨c, hc, hk⟩ := h.cells a _ hb
    have himported : (∀ v ∈ b.imported, copyableVariable m (copyable m k) (k != 0) v = true) →
        ∀ v ∈ b.imported, copyableVariable m' (copyable m' k) (k != 0) v = true :=
      fun hall v hv => copyableVariable_extends h (fun _ hx => ih hx) (hall v hv)
    cases hk with
    | same =>
      refine copyable_succ_iff.mpr ⟨b, hc, ?_⟩
      rcases hcase with hheap | hglobal | ⟨hstack, hlocal, hall⟩
      · exact .inl hheap
      · exact .inr (.inl hglobal)
      · exact .inr (.inr ⟨hstack, hlocal, himported hall⟩)
    | block _ w hisa hkw hd =>
      have hneeds := needsFree_of_kind hkw
      have hbit : w &&& blockIsGlobal = b.flags &&& blockIsGlobal := and_eq_of_kind hkw (by decide)
      refine copyable_succ_iff.mpr ⟨_, hc, ?_⟩
      simp only [hneeds, hbit, hd]
      rcases hcase with hheap | hglobal | ⟨hstack, hlocal, hall⟩
      · exact .inl hheap
      · exact .inr (.inl hglobal)
      · exact .inr (.inr ⟨hstack, hlocal, himported hall⟩)

/-- A run that ends, if not for want of memory, with a result as described. -/
def Ends {α : Type} (x : Except Fault α) (post : α → Prop) : Prop :=
  match x with
  | .ok v => post v
  | .error f => f = .noMemory

theorem Ends.bind {α β : Type} {x : Except Fault α} {f : α → Except Fault β} {post : α → Prop}
    {post' : β → Prop} (h : Ends x post) (hf : ∀ v, post v → Ends (f v) post') : Ends (x >>= f) post' := by
  cases x with
  | ok v => exact hf v h
  | error e => exact h

theorem Ends.mono {α : Type} {x : Except Fault α} {post post' : α → Prop} (h : Ends x post)
    (hpost : ∀ v, post v → post' v) : Ends x post' := by
  cases x with
  | ok v => exact hpost v h
  | error e => exact h

/-- The variable that a copied block got for one of the block it is a copy of: the
same value, the same object, a copy of the block, the same `__block` variable. -/
def SameVariable (m m' : Memory) (same : Addr → Addr → Prop) : Variable → Variable → Prop
  | .plain n, .plain n' => n' = n
  | .pointer flags o, .pointer flags' o' => flags' = flags ∧ match fieldKind flags with
    | .block => match o, o' with
      | some a, some a' => same a a'
      | none, none => True
      | _, _ => False
    | .byref => ∃ a a' x, o = some a ∧ o' = some a' ∧ Leads m' a a' ∧
      variableAt m a = some x ∧ variableAt m' a' = some x
    | _ => o' = o
  | _, _ => False

/-- What the compiler said of a block. -/
def compilerFlags : Word := 0xfe000000#32

/-- A block and what `_Block_copy` returned for it: the block itself, or one that
calls the same function with the same variables, as far as k levels down. -/
def Same (m m' : Memory) : Nat → Addr → Addr → Prop
  | 0, _, _ => True
  | k + 1, a, a' => a' = a ∨ ∃ b b', m.cell a = some (.block b) ∧ m'.cell a' = some (.block b') ∧
    b.flags &&& blockNeedsFree = 0 ∧ b.flags &&& blockIsGlobal = 0 ∧
    b'.invoke = b.invoke ∧ b'.descriptor = b.descriptor ∧
    b'.flags &&& compilerFlags = b.flags &&& compilerFlags ∧ b'.isa = .mallocBlock ∧
    List.Forall₂ (SameVariable m m' (Same m m' k)) b.imported b'.imported

/-- What a copy consists of stays while more blocks are made. -/
structure Stays (m m' : Memory) : Prop where
  finished : ∀ a b, m.cell a = some (.block b) → b.isa = .mallocBlock →
    ∃ w, m'.cell a = some (.block { b with flags := w }) ∧ kind w = kind b.flags
  reads : ∀ a x, variableAt m a = some x → variableAt m' a = some x
  leads : ∀ a f, Leads m a f → Leads m' a f

theorem Stays.trans {m m₁ m₂ : Memory} (h : Stays m m₁) (h' : Stays m₁ m₂) : Stays m m₂ := by
  constructor
  · intro a b hb hisa
    obtain ⟨w, hw, hkind⟩ := h.finished a b hb hisa
    obtain ⟨w', hw', hkind'⟩ := h'.finished a _ hw hisa
    exact ⟨w', hw', hkind'.trans hkind⟩
  · intro a x hx
    exact h'.reads a x (h.reads a x hx)
  · intro a f hl
    exact h'.leads a f (h.leads a f hl)

theorem Extends.stays {m m' : Memory} (h : Extends m m') : Stays m m' := by
  constructor
  · intro a b hb hisa
    obtain ⟨c, hc, hk⟩ := h.cells a _ hb
    cases hk with
    | same => exact ⟨b.flags, hc, rfl⟩
    | block _ w _ hkind _ => exact ⟨w, hc, hkind⟩
  · exact h.reads
  · intro a f hl
    exact h.leads hl

theorem SameVariable.mono {m m₁ m₂ : Memory} {same same' : Addr → Addr → Prop} (h : Stays m₁ m₂)
    (hs : ∀ a a', same a a' → same' a a') {v v' : Variable} (hv : SameVariable m m₁ same v v') :
    SameVariable m m₂ same' v v' := by
  cases v with
  | plain n => cases v' <;> exact hv
  | pointer flags o =>
    cases v' with
    | plain n => exact hv
    | pointer flags' o' =>
      obtain ⟨hflags, hv⟩ := hv
      refine ⟨hflags, ?_⟩
      cases hkind : fieldKind flags with
      | object | byrefCaller | other => simpa [hkind] using hv
      | block =>
        simp only [hkind] at hv ⊢
        cases o <;> cases o' <;> first | exact hv | exact hs _ _ hv
      | byref =>
        simp only [hkind] at hv ⊢
        obtain ⟨a, a', x, ho, ho', hl, hx, hx'⟩ := hv
        exact ⟨a, a', x, ho, ho', h.leads a a' hl, hx, h.reads a' x hx'⟩

/-- A copy stays a copy while more blocks are copied. -/
theorem Same.mono {m m₁ m₂ : Memory} (h : Stays m₁ m₂) {k : Nat} :
    ∀ {a a' : Addr}, Same m m₁ k a a' → Same m m₂ k a a' := by
  induction k with
  | zero => intro a a' _; trivial
  | succ k ih =>
    intro a a' hs
    cases hs with
    | inl he => exact .inl he
    | inr hs =>
      obtain ⟨b, b', hb, hb', hstack, hlocal, hinvoke, hdesc, hflags, hisa, himported⟩ := hs
      obtain ⟨w, hw, hkind⟩ := h.finished a' b' hb' hisa
      have hall := himported.imp fun _ _ hv => SameVariable.mono h (fun _ _ hx => ih hx) hv
      have hbits : w &&& compilerFlags = b'.flags &&& compilerFlags := and_eq_of_kind hkind (by decide)
      exact .inr ⟨b, _, hb, hw, hstack, hlocal, hinvoke, hdesc, hbits.trans hflags, hisa, hall⟩

theorem forall₂_of_mem {α β : Type} {P : α → Prop} {R S : α → β → Prop} {l : List α} {l' : List β}
    (h : List.Forall₂ R l l') (hp : ∀ x ∈ l, P x) (himp : ∀ x y, P x → R x y → S x y) :
    List.Forall₂ S l l' := by
  induction h with
  | nil => exact .nil
  | cons hxy _ ih =>
    exact .cons (himp _ _ (hp _ List.mem_cons_self) hxy) (ih fun x hx => hp x (List.mem_cons_of_mem _ hx))

section

variable {m m' m₀ : Memory} {own own₀ : Ref → Nat} {a : Addr} {b : BlockLayout} {v : BlockByref}

/-- A variable that is there reads something: it forwards to itself or to the heap. -/
theorem forwarding_live (h : Sound m own) (hv : m.cell a = some (.byref v))
    (hlive : v.flags &&& blockByrefNeedsFree = 0 ∨ ¬ Deallocating v.flags) :
    (v.flags &&& blockByrefNeedsFree = 0 ∧ v.forwarding = a) ∨
      ∃ f, m.cell v.forwarding = some (.byref f) ∧ f.flags &&& blockByrefNeedsFree ≠ 0 ∧
        ¬ Deallocating f.flags ∧ f.flags &&& blockRefcountMask ≠ 0 := by
  have hpositive : ∀ {w : Word} {n : Nat}, Accounts w n → ¬ Deallocating w → w &&& blockRefcountMask ≠ 0 := by
    intro w n hacc hd hzero
    have hcount := (refcount_eq_zero_iff w).mp hzero
    cases hacc with
    | inl hl =>
      rw [Latched, hcount] at hl
      exact absurd hl.1 (by decide)
    | inr hr => exact hd (hr.2.mpr (by omega))
  have hshape : ByrefShape a v := h.shape a _ hv
  by_cases hfree : v.flags &&& blockByrefNeedsFree = 0
  · by_cases hself : v.forwarding = a
    · exact .inl ⟨hfree, hself⟩
    · refine .inr ?_
      obtain ⟨n, htotal, hcounted⟩ := h.ledger (.byref v.forwarding)
      have hle := htotal.le a
      simp only [hv, holds, if_neg hself, List.count_cons_self] at hle
      simp only [Counted] at hcounted
      cases hc : m.cell v.forwarding with
      | none =>
        rw [hc] at hcounted
        simp only [flagsOf] at hcounted
        omega
      | some c =>
        cases c with
        | block b =>
          rw [hc] at hcounted
          simp only [flagsOf] at hcounted
          omega
        | byref f =>
          rw [hc] at hcounted
          simp only [flagsOf] at hcounted
          split at hcounted
          · next hf =>
            have hd := hcounted.not_deallocating (by omega)
            exact ⟨f, rfl, hf, hd, hpositive hcounted hd⟩
          · omega
  · have hd : ¬ Deallocating v.flags := hlive.resolve_left hfree
    obtain ⟨n, _, hcounted⟩ := h.ledger (.byref a)
    simp only [Counted, hv, flagsOf, if_pos hfree] at hcounted
    refine .inr ⟨v, ?_, hfree, hd, hpositive hcounted hd⟩
    rw [hshape.heap hfree]
    exact hv

theorem forwarding_lt_next (h : Sound m own) {x f : Addr} (hx : forwardingAt m x = some f) : f < m.next := by
  simp only [forwardingAt] at hx
  split at hx
  · next v hv =>
    cases hx
    have hshape : ByrefShape x v := h.shape x _ hv
    by_cases hself : v.forwarding = x
    · exact hself.symm ▸ h.lt_next hv
    · have hstack : v.flags &&& blockByrefNeedsFree = 0 := by
        by_contra hfree
        exact hself (hshape.heap hfree)
      rcases forwarding_live h hv (.inl hstack) with hlocal | ⟨f, hf, _⟩
      · exact absurd hlocal.2 hself
      · exact h.lt_next hf
  · cases hx

theorem exists_variableAt (h : Sound m own) (hv : m.cell a = some (.byref v))
    (hlive : v.flags &&& blockByrefNeedsFree = 0 ∨ ¬ Deallocating v.flags) :
    ∃ x, variableAt m a = some x := by
  rcases forwarding_live h hv hlive with ⟨_, hself⟩ | ⟨f, hf, _⟩
  · exact ⟨v.contents, by simp [variableAt_byref hv, contentsAt, hself, hv]⟩
  · exact ⟨f.contents, by simp [variableAt_byref hv, contentsAt, hf]⟩

/-- Changing the count of a variable on the heap leaves everything else. -/
theorem extends_reflagByref (hv : m.cell a = some (.byref v)) (hfree : v.flags &&& blockByrefNeedsFree ≠ 0)
    {w : Word} (hkind : kind w = kind v.flags) (hd : Deallocating w ↔ Deallocating v.flags) :
    Extends m (m.set a (.byref { v with flags := w })) := by
  constructor
  · exact Nat.le_refl _
  · exact Nat.le_refl _
  · intro x _ hnone
    have hx : x ≠ a := fun he => by
      rw [he, hv] at hnone
      cases hnone
    rw [Memory.set_cell, Function.update_of_ne hx, hnone]
  · intro x c hc
    by_cases hx : x = a
    · subst hx
      rw [hv] at hc
      cases hc
      exact ⟨_, Function.update_self _ _ _, .byref v w hfree hkind hd⟩
    · exact ⟨c, by rw [Memory.set_cell, Function.update_of_ne hx, hc], .same c⟩
  · intro x y hy
    rw [variableAt_update (Memory.set_cell m a _) (by simp [forwardingAt, Memory.set, hv])
      (by simp [contentsAt, Memory.set, hv])]
    exact hy
  · intro x y _ _ he
    rwa [forwardingAt_update (Memory.set_cell m a _) (by simp [forwardingAt, Memory.set, hv])] at he

/-- Changing the count of a finished block leaves everything else. -/
theorem extends_reflagBlock (hb : m.cell a = some (.block b)) (hisa : b.isa = .mallocBlock)
    {w : Word} (hkind : kind w = kind b.flags) (hd : Deallocating w ↔ Deallocating b.flags) :
    Extends m (m.set a (.block { b with flags := w })) := by
  constructor
  · exact Nat.le_refl _
  · exact Nat.le_refl _
  · intro x _ hnone
    have hx : x ≠ a := fun he => by
      rw [he, hb] at hnone
      cases hnone
    rw [Memory.set_cell, Function.update_of_ne hx, hnone]
  · intro x c hc
    by_cases hx : x = a
    · subst hx
      rw [hb] at hc
      cases hc
      exact ⟨_, Function.update_self _ _ _, .block b w hisa hkind hd⟩
    · exact ⟨c, by rw [Memory.set_cell, Function.update_of_ne hx, hc], .same c⟩
  · intro x y hy
    rw [variableAt_update (Memory.set_cell m a _) (by simp [forwardingAt, Memory.set, hb])
      (by simp [contentsAt, Memory.set, hb])]
    exact hy
  · intro x y _ _ he
    rwa [forwardingAt_update (Memory.set_cell m a _) (by simp [forwardingAt, Memory.set, hb])] at he

/-- What is new or under construction does not count among what there was. -/
theorem Extends.construct (h : Extends m₀ m) (hlt : m₀.next ≤ a) (ha : m₀.cell a = none)
    (hnot : ∀ v, m.cell a ≠ some (.byref v))
    (hcell : m'.cell = Function.update m.cell a (some (.block b))) (hnext : m.next ≤ m'.next)
    (hroom : m'.room ≤ m.room) : Extends m₀ m' := by
  constructor
  · exact h.next.trans hnext
  · exact hroom.trans h.room
  · intro x hx hnone
    have hxa : x ≠ a := Nat.ne_of_lt (Nat.lt_of_lt_of_le hx hlt)
    rw [hcell, Function.update_of_ne hxa]
    exact h.absent x hx hnone
  · intro x c hc
    have hx : x ≠ a := fun he => by
      rw [he, ha] at hc
      cases hc
    obtain ⟨c', hc', hk⟩ := h.cells x c hc
    exact ⟨c', by rw [hcell, Function.update_of_ne hx, hc'], hk⟩
  · intro x y hy
    rw [variableAt_update hcell (by simp [forwardingAt, hcell])
      (by simp [contentsAt, hcell])]
    exact h.reads x y hy
  · intro x y hx hy he
    rw [forwardingAt_update hcell (by simp [forwardingAt, hcell])] at he
    exact h.apart x y hx hy he

/-- malloc answers null only when there is no room. -/
theorem malloc_cases (m : Memory) :
    (m.room = 0 ∧ m.malloc = none) ∨
      (0 < m.room ∧ m.malloc = some (m.next, { m with next := m.next + 1, room := m.room - 1 })) := by
  unfold Memory.malloc
  split
  · next h => exact .inl ⟨h, rfl⟩
  · next h => exact .inr ⟨Nat.pos_of_ne_zero h, rfl⟩

/-- The keep helper of a variable stores the pointer as it is. -/
theorem objectAssign_caller {k : Nat} {dest : Addr × Nat} {o : Option Addr} {flags : Word}
    (h : fieldKind flags = .byrefCaller) : objectAssign (k + 1) m dest o flags = m.assign dest o := by
  simp [objectAssign, blockObjectAssign, h]

/-- The first copy of a variable: a structure on the heap with the same contents
that both forwarding pointers lead to. -/
theorem byrefCopy_new {k : Nat} (h : Sound m own) (hv : m.cell a = some (.byref v))
    (hstack : v.flags &&& blockByrefNeedsFree = 0) (hself : v.forwarding = a) (hroom : 0 < m.room) :
    ∃ heap m', byrefCopy (objectAssign (k + 1)) m (some a) = .ok (some m.next, m') ∧
      m'.cell = Function.update (Function.update m.cell m.next (some (.byref heap))) a
        (some (.byref { v with forwarding := m.next })) ∧
      heap.forwarding = m.next ∧ heap.contents = v.contents ∧ heap.flags = byrefCopiedFlags v.flags ∧
      m'.next = m.next + 1 ∧ m'.room = m.room - 1 ∧ m'.callbacks = m.callbacks := by
  have hshape : ByrefShape a v := h.shape a _ hv
  have hzero := (hshape.stack hstack).1
  have hne : a ≠ m.next := Nat.ne_of_lt (h.lt_next hv)
  have hmalloc := (malloc_cases m).resolve_left (fun hno => absurd hno.1 (Nat.ne_of_gt hroom))
  have hload : m.byref a = .ok v := by simp [Memory.byref, hv]
  have hload' : m.byref v.forwarding = .ok v := by rw [hself, hload]
  simp only [byrefCopy, hload, hload', hmalloc.2, hzero, bind, Except.bind, ite_true]
  by_cases hhelped : v.flags &&& blockByrefHasCopyDispose ≠ 0
  · obtain ⟨flags, o, hcontents⟩ := hshape.helped hhelped
    have hkind := hshape.caller flags o hcontents
    rw [if_pos hhelped]
    simp only [hcontents, byrefKeep, objectAssign_caller hkind, Memory.assign, Memory.set,
      Function.update_self, Variable.blank, Variable.point]
    let layout := if v.flags &&& blockByrefLayoutExtended ≠ 0 then v.layout else none
    let heap : BlockByref :=
      ⟨.null, m.next, byrefCopiedFlags v.flags, v.size, layout, .pointer flags o⟩
    refine ⟨heap, _, rfl, ?_, rfl, rfl, rfl, rfl, rfl, rfl⟩
    rw [Function.update_comm hne, Function.update_comm hne]
    simp only [Function.update_idem]
    rfl
  · rw [if_neg hhelped]
    let heap : BlockByref :=
      ⟨.null, m.next, byrefCopiedFlags v.flags, v.size, v.layout, v.contents⟩
    refine ⟨heap, _, rfl, ?_, rfl, rfl, rfl, rfl, rfl, rfl⟩
    rw [Memory.set_cell, Memory.set_cell, Memory.set_cell, Function.update_comm hne]
    simp only [Function.update_idem]
    rfl

/-- The forwarding pointer leads to the copy, and all read there what they read before. -/
theorem extends_forward (h : Sound m own) (hv : m.cell a = some (.byref v))
    (hstack : v.flags &&& blockByrefNeedsFree = 0) (hself : v.forwarding = a) {heap : BlockByref}
    (hcell : m'.cell = Function.update (Function.update m.cell m.next (some (.byref heap))) a
      (some (.byref { v with forwarding := m.next })))
    (hforward : heap.forwarding = m.next) (hcontents : heap.contents = v.contents)
    (hnext : m'.next = m.next + 1) (hroom : m'.room = m.room - 1) :
    Extends m m' ∧ variableAt m' m.next = some v.contents := by
  have hne : a ≠ m.next := Nat.ne_of_lt (h.lt_next hv)
  have hheap : m'.cell m.next = some (.byref heap) := by simp [hcell, Ne.symm hne]
  have hsrc : m'.cell a = some (.byref { v with forwarding := m.next }) := by simp [hcell]
  have hothers : ∀ x, x ≠ a → x ≠ m.next → m'.cell x = m.cell x := by
    intro x hxa hxn
    simp [hcell, hxa, hxn]
  have hnew : m.cell m.next = none := h.fresh _ (Nat.le_refl _)
  have hread : contentsAt m' m.next = some v.contents := by simp [contentsAt, hheap, hcontents]
  refine ⟨⟨hnext ▸ Nat.le_succ _, by omega, ?_, ?_, ?_, ?_⟩, ?_⟩
  · intro x hlt hnone
    have hxa : x ≠ a := fun he => by
      rw [he, hv] at hnone
      cases hnone
    exact (hothers x hxa (Nat.ne_of_lt hlt)).trans hnone
  · intro x c hc
    by_cases hx : x = a
    · subst hx
      rw [hv] at hc
      cases hc
      exact ⟨_, hsrc, .forwarded v m.next hstack hself⟩
    · have hxn : x ≠ m.next := fun he => by
        rw [he, hnew] at hc
        cases hc
      exact ⟨c, (hothers x hx hxn).trans hc, .same c⟩
  · intro x y hy
    by_cases hx : x = a
    · subst hx
      have hwas : contentsAt m v.forwarding = some y := by rw [← variableAt_byref hv, hy]
      rw [hself] at hwas
      simp only [contentsAt, hv, Option.some.injEq] at hwas
      rw [variableAt_byref hsrc, hread, hwas]
    · obtain ⟨f, hf, hfy⟩ := Option.bind_eq_some_iff.mp hy
      have hxn : x ≠ m.next := fun he => by simp [forwardingAt, he, hnew] at hf
      have hfn : f ≠ m.next := fun he => by simp [contentsAt, he, hnew] at hfy
      have hf' : forwardingAt m' x = some f := by
        rw [← hf, forwardingAt, forwardingAt, hothers x hx hxn]
      rw [variableAt, hf', Option.bind_some, ← hfy]
      by_cases hfa : f = a
      · subst hfa
        simp [contentsAt, hsrc, hv]
      · rw [contentsAt, contentsAt, hothers f hfa hfn]
  · have hmoved : forwardingAt m' a = some m.next := by simp [forwardingAt, hsrc]
    have hkept : ∀ x, x ≠ a → forwardingAt m x ≠ none → forwardingAt m' x = forwardingAt m x := by
      intro x hxa hx
      have hxn : x ≠ m.next := fun he => hx (by simp [forwardingAt, he, hnew])
      rw [forwardingAt, forwardingAt, hothers x hxa hxn]
    have hold : ∀ x, forwardingAt m x ≠ some m.next :=
      fun x hx => Nat.lt_irrefl _ (forwarding_lt_next h hx)
    intro x y hx hy he
    by_cases hxa : x = a
    · by_cases hya : y = a
      · rw [hxa, hya]
      · rw [hxa, hmoved, hkept y hya hy] at he
        exact absurd he.symm (hold y)
    · by_cases hya : y = a
      · rw [hya, hmoved, hkept x hxa hx] at he
        exact absurd he (hold x)
      · rwa [hkept x hxa hx, hkept y hya hy] at he
  · rw [variableAt_byref hheap, hforward, hread]

theorem byrefCopy_spec {k : Nat} (h : Sound m own) (hv : m.cell a = some (.byref v))
    (hlive : v.flags &&& blockByrefNeedsFree = 0 ∨ ¬ Deallocating v.flags) :
    Ends (byrefCopy (objectAssign (k + 1)) m (some a)) fun p =>
      ∃ f x, p.1 = some f ∧ Sound p.2 (give own [.byref f]) ∧ Extends m p.2 ∧ Tidy m p.2 ∧ Leads p.2 a f ∧
        variableAt m a = some x ∧ variableAt p.2 f = some x := by
  have hload : m.byref a = .ok v := by simp [Memory.byref, hv]
  rcases forwarding_live h hv hlive with ⟨hstack, hself⟩ | ⟨f, hf, hfree, hd, hcount⟩
  · have hshape : ByrefShape a v := h.shape a _ hv
    have hload' : m.byref v.forwarding = .ok v := by rw [hself, hload]
    rcases malloc_cases m with ⟨_, hmalloc⟩ | ⟨hroom, _⟩
    · simp [byrefCopy, hload, hload', hmalloc, (hshape.stack hstack).1, bind, Except.bind, Ends]
    · obtain ⟨heap, m', hrun, hcell, hforward, hcontents, hflags, hnext, hroom', hcalls⟩ :=
        byrefCopy_new (k := k) h hv hstack hself hroom
      obtain ⟨hextends, hread⟩ := extends_forward h hv hstack hself hcell hforward hcontents hnext hroom'
      rw [hrun]
      have hwas : variableAt m a = some v.contents := by
        rw [variableAt_byref hv, hself]
        simp [contentsAt, hv]
      have hfresh : ¬ Deallocating heap.flags := by
        rw [hflags]
        exact not_deallocating_byrefCopiedFlags (hshape.stack hstack).2
      have htidy : Tidy m m' := by
        let m₁ : Memory := { m' with cell := Function.update m.cell m.next (some (.byref heap)) }
        have hfirst : Tidy m m₁ :=
          .update (m := m) (a := m.next) rfl (fun ho => absurd ho.2 hfresh)
            fun y hy => absurd hy block_notMem_byref
        exact hfirst.trans (.update (m := m₁) (a := a) hcell (fun ho => absurd hstack ho.1)
          fun y hy => absurd hy block_notMem_byref)
      have hneeds : heap.flags &&& blockByrefNeedsFree ≠ 0 := by
        rw [hflags]
        exact byrefCopiedFlags_needsFree v.flags
      have hne : m.next ≠ a := Ne.symm (Nat.ne_of_lt (h.lt_next hv))
      have hleads : Leads m' a m.next :=
        ⟨by simp [forwardingAt, hcell], heap, by simp [hcell, hne], hneeds, hforward⟩
      refine ⟨m.next, v.contents, rfl, ?_, hextends, htidy, hleads, hwas, hread⟩
      have hhelp : heap.flags &&& blockByrefHasCopyDispose = v.flags &&& blockByrefHasCopyDispose := by
        rw [hflags]
        exact byrefCopiedFlags_compiler v.flags (by decide)
      refine h.newByref (h.fresh _ (Nat.le_refl _)) hv hstack hself hcell hcalls ?_ ?_ ?_ hforward hneeds ?_ ?_
      · rw [hnext]
        exact Nat.le_succ _
      · rw [hnext]
        exact Nat.lt_succ_self _
      · refine ⟨fun _ => hforward, fun hno => absurd hno hneeds, ?_, ?_⟩
        · rw [hcontents]
          exact hshape.caller
        · rw [hcontents, hhelp]
          exact hshape.helped
      · rw [hflags]
        exact refcount_byrefCopiedFlags (hshape.stack hstack).1
      · exact hfresh
  · have hload' : m.byref v.forwarding = .ok f := by simp [Memory.byref, hf]
    have hheap : f.flags &&& blockByrefNeedsFree = blockByrefNeedsFree := needsFree_eq_of_ne hfree
    obtain ⟨hd', hkind⟩ := apply_incr f.flags
    have hextends := extends_reflagByref hf hfree hkind hd'
    have hwas : variableAt m a = some f.contents := by
      rw [variableAt_byref hv]
      simp [contentsAt, hf]
    simp only [byrefCopy, hload, hload', bind, Except.bind, if_neg hcount, if_pos hheap]
    have htidy : Tidy m (m.set v.forwarding (.byref { f with flags := (apply .incr f.flags).1 })) :=
      .update (Memory.set_cell m _ _) (fun ho => absurd (hd'.mp ho.2) hd) fun y hy => absurd hy block_notMem_byref
    have hshape : ByrefShape v.forwarding f := h.shape _ _ hf
    have hleads : Leads m a v.forwarding := ⟨by simp [forwardingAt, hv], f, hf, hfree, hshape.heap hfree⟩
    refine ⟨v.forwarding, f.contents, rfl, h.incrByref hf hfree hd, hextends, htidy, hextends.leads hleads,
      hwas, ?_⟩
    refine hextends.reads v.forwarding f.contents ?_
    rw [variableAt_byref hf, hshape.heap hfree]
    simp [contentsAt, hf]

/-- What was the same seen from later is the same seen from the start. -/
theorem SameVariable.left {m₁ m₂ : Memory} (h : Sound m₀ own₀) (hext : Extends m₀ m₁)
    {same same' : Addr → Addr → Prop} {f : Addr → Bool} {deep : Bool}
    (hs : ∀ a a', f a = true → same a a' → same' a a') {x x' : Variable}
    (hx : copyableVariable m₀ f deep x = true) (hv : SameVariable m₁ m₂ same x x') :
    SameVariable m₀ m₂ same' x x' := by
  cases x with
  | plain n => cases x' <;> exact hv
  | pointer flags o =>
    cases x' with
    | plain n => exact hv
    | pointer flags' o' =>
      obtain ⟨hflags, hv⟩ := hv
      refine ⟨hflags, ?_⟩
      cases hkind : fieldKind flags with
      | object | byrefCaller | other => simpa [hkind] using hv
      | block =>
        simp only [hkind, copyableVariable] at hv hx ⊢
        cases o with
        | none => cases o' <;> exact hv
        | some y =>
          cases o' with
          | none => exact hv
          | some y' => exact hs y y' hx hv
      | byref =>
        simp only [hkind] at hv ⊢
        obtain ⟨y, y', z, ho, ho', hl, hz, hz'⟩ := hv
        subst ho
        simp only [copyableVariable, hkind] at hx
        split at hx
        · next u hu =>
          have hlive : u.flags &&& blockByrefNeedsFree = 0 ∨ ¬ Deallocating u.flags := by
            simp only [Bool.and_eq_true, Bool.or_eq_true, decide_eq_true_eq, Bool.not_eq_true',
              decide_eq_false_iff_not] at hx
            exact hx.2
          obtain ⟨z₀, hz₀⟩ := exists_variableAt h hu hlive
          have hread := hext.reads y z₀ hz₀
          rw [hz] at hread
          cases hread
          exact ⟨y, y', z, rfl, ho', hl, hz₀, hz'⟩
        · cases hx

theorem Same.left {m₁ m₂ : Memory} (h : Sound m₀ own₀) (hext : Extends m₀ m₁) {k : Nat} :
    ∀ {x x' : Addr} {j : Nat}, copyable m₀ k x = true → Same m₁ m₂ j x x' → Same m₀ m₂ j x x' := by
  induction k with
  | zero => intro x x' j hx; cases hx
  | succ k ih =>
    intro x x' j hx hs
    cases j with
    | zero => trivial
    | succ j =>
      cases hs with
      | inl he => exact .inl he
      | inr hs =>
        obtain ⟨b₁, b', hb₁, hb', hstack, hlocal, hinvoke, hdesc, hflags, hisa, himported⟩ := hs
        obtain ⟨b, hb, hcase⟩ := copyable_succ_iff.mp hx
        have hshape : BlockShape b := h.shape x _ hb
        obtain ⟨c, hc, hk⟩ := hext.cells x _ hb
        cases hk with
        | block _ w hisa₀ hkind _ =>
          rw [hc] at hb₁
          cases hb₁
          exact absurd ((needsFree_of_kind hkind).symm.trans hstack) (hshape.finished hisa₀)
        | same =>
          rw [hc] at hb₁
          cases hb₁
          rcases hcase with hheap | hglobal | hvars
          · exact absurd hstack hheap.1
          · exact absurd hlocal hglobal.2
          · refine .inr ⟨b₁, b', hb, hb', hstack, hlocal, hinvoke, hdesc, hflags, hisa, ?_⟩
            have hleft : ∀ y y', copyable m₀ k y = true → Same m₁ m₂ j y y' → Same m₀ m₂ j y y' :=
              fun _ _ hy hyy => ih hy hyy
            exact forall₂_of_mem himported hvars.2.2 fun _ _ hv hsame =>
              SameVariable.left h hext hleft hv hsame

end

/-- A block under construction, in a memory that extends the one it began in. -/
structure Building (m₀ m : Memory) (own : Ref → Nat) (result : Addr) (b : BlockLayout) : Prop where
  beyond : m₀.next ≤ result
  fresh : m₀.cell result = none
  sound : Sound m own
  kept : Extends m₀ m
  cell : m.cell result = some (.block b)
  isa : b.isa ≠ .mallocBlock
  only : ∀ x, Unsettled m x → x = result ∨ Unsettled m₀ x
  ranked : Ranked m₀ → Ranked m

section

variable {m₀ m m' : Memory} {own : Ref → Nat} {result : Addr} {b : BlockLayout}

theorem Building.extend (h : Building m₀ m own result b) {own' : Ref → Nat} (hext : Extends m m')
    (htidy : Tidy m m') (hsound : Sound m' own') : Building m₀ m' own' result b :=
  ⟨h.beyond, h.fresh, hsound, h.kept.trans hext, hext.block h.cell h.isa, h.isa,
    fun x hx => h.only x (htidy.only x hx), fun hr => htidy.ranked (h.ranked hr)⟩

theorem modify_length {α : Type} (f : α → α) (before : List α) (x : α) (after : List α) :
    (before ++ x :: after).modify before.length f = before ++ f x :: after := by
  induction before with
  | nil => rfl
  | cons y before ih => simp [ih]

theorem exists_of_forall₂ {α β : Type} {R : α → β → Prop} {l : List α} {l' : List β}
    (h : List.Forall₂ R l l') {y : β} (hy : y ∈ l') : ∃ x, R x y := by
  induction h with
  | nil => cases hy
  | cons hxy _ ih =>
    cases List.mem_cons.mp hy with
    | inl he => exact ⟨_, he ▸ hxy⟩
    | inr hmem => exact ih hmem

/-- Nothing that is finished, and no variable, is read from the block under construction. -/
theorem Building.stays_set (h : Building m₀ m own result b) (b' : BlockLayout) :
    Stays m (m.set result (.block b')) := by
  constructor
  · intro x c hc hisa
    have hx : x ≠ result := fun he => by
      rw [he, h.cell] at hc
      cases hc
      exact h.isa hisa
    exact ⟨c.flags, by rw [Memory.set_cell, Function.update_of_ne hx, hc], rfl⟩
  · intro x y hy
    rw [variableAt_update (Memory.set_cell m result _) (by simp [forwardingAt, Memory.set, h.cell])
      (by simp [contentsAt, Memory.set, h.cell])]
    exact hy
  · rintro x f ⟨hforward, v, hv, hfree, hself⟩
    have hxr : x ≠ result := fun he => by simp [forwardingAt, he, h.cell] at hforward
    have hfr : f ≠ result := fun he => by
      rw [he, h.cell] at hv
      cases hv
    exact ⟨by simpa [forwardingAt, Memory.set, hxr] using hforward, v,
      by simpa [Memory.set, hfr] using hv, hfree, hself⟩

theorem Building.only_set (h : Building m₀ m own result b) (c : Cell) :
    ∀ x, Unsettled (m.set result c) x → x = result ∨ Unsettled m₀ x := by
  rintro x ⟨d, hd, hopen⟩
  by_cases hx : x = result
  · exact .inl hx
  · rw [Memory.set_cell, Function.update_of_ne hx] at hd
    exact h.only x ⟨d, hd, hopen⟩

/-- `*dest = value` in the block under construction. -/
theorem Building.assign (h : Building m₀ m own result b) {before after : List Variable} {flags : Word}
    {o : Option Addr} (himported : b.imported = before ++ .pointer flags o :: after) (o' : Option Addr) :
    ∃ m', m.assign (result, before.length) o' = .ok m' ∧
      Building m₀ m' own result { b with imported := before ++ .pointer flags o' :: after } ∧
      Stays m m' ∧ m'.room = m.room := by
  have hshape : BlockShape b := h.sound.shape result _ h.cell
  have hnew : BlockShape { b with imported := before ++ .pointer flags o' :: after } := by
    constructor
    · exact hshape.heap
    · exact hshape.finished
    · intro hglobal
      have hnil := hshape.constant hglobal
      rw [himported] at hnil
      simp at hnil
    · intro flags' p hmem
      have hold : ∃ q, .pointer flags' q ∈ b.imported := by
        rw [himported]
        simp only [List.mem_append, List.mem_cons, Variable.pointer.injEq] at hmem ⊢
        rcases hmem with hmem | ⟨hf, _⟩ | hmem
        · exact ⟨p, .inl hmem⟩
        · exact ⟨o, .inr (.inl ⟨hf, rfl⟩)⟩
        · exact ⟨p, .inr (.inr hmem)⟩
      obtain ⟨q, hmem'⟩ := hold
      exact hshape.helped flags' q hmem'
    · intro hisa
      exact absurd hisa h.isa
  refine ⟨m.set result (.block { b with imported := before ++ .pointer flags o' :: after }), ?_, ?_, ?_, rfl⟩
  · simp [Memory.assign, h.cell, himported, modify_length, Variable.point]
  · refine ⟨h.beyond, h.fresh, h.sound.setUnfinished h.cell h.isa hnew, ?_, Function.update_self _ _ _, h.isa,
      h.only_set _, ?_⟩
    · exact h.kept.construct h.beyond h.fresh (by simp [h.cell]) (Memory.set_cell m result _) (Nat.le_refl _)
        (Nat.le_refl _)
    · intro hr
      apply (h.ranked hr).fewer
      intro x y hy
      by_cases hx : x = result
      · subst hx
        rw [Memory.set_cell, Function.update_self, holds_unfinished (by exact h.isa)] at hy
        cases hy
      · rwa [Memory.set_cell, Function.update_of_ne hx] at hy
  · exact h.stays_set _

end

/-- A `__block` variable that a block imports is always there. -/
def Pointed : Variable → Variable → Prop
  | .plain n, .plain n' => n' = n
  | .pointer flags _, .pointer flags' o' => flags' = flags ∧ (fieldKind flags = .byref → o' ≠ none)
  | _, _ => False

/-- The variable o has become the variable o' of the block under construction. -/
structure Assigned (m₀ m m' : Memory) (own : Ref → Nat) (result : Addr) (b : BlockLayout)
    (before after : List Variable) (flags : Word) (o o' : Option Addr) : Prop where
  building : Building m₀ m' (give own (refs (.pointer flags o'))) result
    { b with imported := before ++ .pointer flags o' :: after }
  pointed : Pointed (.pointer flags o) (.pointer flags o')
  same : 0 < m'.room → ∀ j, SameVariable m₀ m' (Same m₀ m' j) (.pointer flags o) (.pointer flags o')
  stays : Stays m m'
  room : m'.room ≤ m.room

/-- What `_Block_copy` returns for a block and leaves behind. -/
structure Copied (m : Memory) (own : Ref → Nat) (a : Addr) (r : Option Addr) (m' : Memory) : Prop where
  sound : Sound m' (give own (r.toList.map Ref.block))
  kept : Extends m m'
  tidy : Tidy m m'
  same : 0 < m'.room → ∃ x, r = some x ∧ ∀ j, Same m m' j a x

section

variable {m₀ m : Memory} {own own₀ : Ref → Nat} {result : Addr} {b : BlockLayout} {k : Nat}

/-- The support function for one variable, given what it does to a captured block. -/
theorem objectAssign_spec
    (hcopy : ∀ {m : Memory} {own : Ref → Nat} {a : Addr}, Sound m own → copyable m k a = true →
      Ends (blockCopy (objectAssign k) m (some a)) fun p => Copied m own a p.1 p.2)
    (h₀ : Sound m₀ own₀) (h : Building m₀ m own result b) {before after : List Variable} {flags : Word}
    {o : Option Addr} (himported : b.imported = before ++ .pointer flags o :: after)
    (hv : copyableVariable m₀ (copyable m₀ k) (k != 0) (.pointer flags o) = true) :
    Ends (objectAssign (k + 1) m (result, before.length) o flags) fun m' =>
      ∃ o', Assigned m₀ m m' own result b before after flags o o' := by
  have hnow : copyableVariable m (copyable m k) (k != 0) (.pointer flags o) = true :=
    copyableVariable_extends h.kept (fun _ hx => copyable_extends h.kept hx) hv
  simp only [objectAssign, blockObjectAssign]
  cases hkind : fieldKind flags with
  | object =>
    have hcalled : Building m₀ (m.call (.retainObject o)) (give own (refs (.pointer flags o))) result b := by
      have hkept : Extends m₀ (m.call (.retainObject o)) :=
        ⟨h.kept.next, h.kept.room, h.kept.absent, h.kept.cells, h.kept.reads, h.kept.apart⟩
      refine ⟨h.beyond, h.fresh, ?_, hkept, h.cell, h.isa, h.only, h.ranked⟩
      have hrefs : refs (.pointer flags o) = o.toList.map Ref.object := by cases o <;> simp [refs, hkind]
      rw [hrefs]
      exact h.sound.retainObject o
    obtain ⟨m', hrun, hbuilding, hstays, hroom⟩ := hcalled.assign himported o
    simp only [hrun]
    refine ⟨o, hbuilding, by simp [Pointed, hkind], ?_, ?_, Nat.le_of_eq hroom⟩
    · intro _ j
      exact ⟨rfl, by simp [hkind]⟩
    · exact ⟨hstays.finished, hstays.reads, hstays.leads⟩
  | byrefCaller =>
    obtain ⟨m', hrun, hbuilding, hstays, hroom⟩ := h.assign himported o
    have hrefs : refs (.pointer flags o) = [] := by cases o <;> simp [refs, hkind]
    simp only [hrun]
    refine ⟨o, by rw [hrefs]; exact hbuilding, by simp [Pointed, hkind], ?_, hstays, Nat.le_of_eq hroom⟩
    intro _ j
    exact ⟨rfl, by simp [hkind]⟩
  | other =>
    have hrefs : refs (.pointer flags o) = [] := by cases o <;> simp [refs, hkind]
    refine ⟨o, ?_, by simp [Pointed, hkind], ?_, (Extends.refl m).stays, Nat.le_refl _⟩
    · rw [hrefs, ← himported]
      exact h
    · intro _ j
      exact ⟨rfl, by simp [hkind]⟩
  | block =>
    cases o with
    | none =>
      obtain ⟨m', hrun, hbuilding, hstays, hroom⟩ := h.assign himported none
      simp only [blockCopy, bind, Except.bind, hrun]
      refine ⟨none, hbuilding, by simp [Pointed, hkind], ?_, hstays, Nat.le_of_eq hroom⟩
      intro _ j
      exact ⟨rfl, by simp [hkind]⟩
    | some y =>
      have hy : copyable m k y = true := by simpa [copyableVariable, hkind] using hnow
      have hy₀ : copyable m₀ k y = true := by simpa [copyableVariable, hkind] using hv
      apply (hcopy h.sound hy).bind
      intro p hp
      have hrefs : refs (.pointer flags p.1) = p.1.toList.map Ref.block := by
        cases p.1 <;> simp [refs, hkind]
      obtain ⟨m', hrun, hbuilding, hstays, hroom⟩ := (h.extend hp.kept hp.tidy hp.sound).assign himported p.1
      simp only [hrun]
      refine ⟨p.1, by rw [hrefs]; exact hbuilding, by simp [Pointed, hkind], ?_, hp.kept.stays.trans hstays, ?_⟩
      · intro hpos j
        obtain ⟨x, hx, hsame⟩ := hp.same (hroom ▸ hpos)
        refine ⟨rfl, ?_⟩
        simp only [hkind, hx]
        exact ((hsame j).left h₀ h.kept hy₀).mono hstays
      · rw [hroom]
        exact hp.kept.room
  | byref =>
    cases o with
    | none => simp [copyableVariable, hkind] at hnow
    | some y =>
      simp only [copyableVariable, hkind] at hnow
      split at hnow
      · next v hy =>
        simp only [Bool.and_eq_true, Bool.or_eq_true, decide_eq_true_eq, Bool.not_eq_true',
          decide_eq_false_iff_not, bne_iff_ne, ne_eq] at hnow
        obtain ⟨k, rfl⟩ := Nat.exists_eq_succ_of_ne_zero hnow.1
        apply (byrefCopy_spec h.sound hy hnow.2).bind
        rintro ⟨r, m₁⟩ ⟨f, x, hr, hsound, hext, htidy, hl, hx, hf⟩
        change r = some f at hr
        subst hr
        have hrefs : refs (.pointer flags (some f)) = [Ref.byref f] := by simp [refs, hkind]
        obtain ⟨m', hrun, hbuilding, hstays, hroom⟩ := (h.extend hext htidy hsound).assign himported (some f)
        simp only [hrun]
        refine ⟨some f, by rw [hrefs]; exact hbuilding, by simp [Pointed], ?_, hext.stays.trans hstays, ?_⟩
        · intro _ j
          have hlater : SameVariable m m' (Same m₀ m' j) (.pointer flags (some y)) (.pointer flags (some f)) := by
            refine ⟨rfl, ?_⟩
            simp only [hkind]
            exact ⟨y, f, x, rfl, rfl, hstays.leads y f hl, hx, hstays.reads f x hf⟩
          exact SameVariable.left h₀ h.kept (fun _ _ _ hs => hs) hv hlater
        · rw [hroom]
          exact hext.room
      · cases hnow

/-- The copy helper, variable by variable. -/
theorem copyHelper_spec
    (hcopy : ∀ {m : Memory} {own : Ref → Nat} {a : Addr}, Sound m own → copyable m k a = true →
      Ends (blockCopy (objectAssign k) m (some a)) fun p => Copied m own a p.1 p.2)
    (h₀ : Sound m₀ own₀) : ∀ (after : List Variable) {m : Memory} {own : Ref → Nat} {b : BlockLayout}
      {before : List Variable}, Building m₀ m own result b → b.imported = before ++ after →
      (∀ v ∈ after, copyableVariable m₀ (copyable m₀ k) (k != 0) v = true) →
      Ends (copyHelper (objectAssign (k + 1)) result m before.length after) fun m' =>
        ∃ after', Building m₀ m' (give own (after'.flatMap refs)) result { b with imported := before ++ after' } ∧
          List.Forall₂ Pointed after after' ∧
          (0 < m'.room → ∀ j, List.Forall₂ (SameVariable m₀ m' (Same m₀ m' j)) after after') ∧
          Stays m m' ∧ m'.room ≤ m.room := by
  intro after
  induction after with
  | nil =>
    intro m own b before h himported _
    refine ⟨[], ?_, .nil, fun _ _ => .nil, (Extends.refl m).stays, Nat.le_refl _⟩
    rw [List.flatMap_nil, give_nil, ← himported]
    exact h
  | cons v after ih =>
    intro m own b before h himported hall
    have hrest : ∀ v ∈ after, copyableVariable m₀ (copyable m₀ k) (k != 0) v = true :=
      fun v hv => hall v (List.mem_cons_of_mem _ hv)
    have hlength : before.length + 1 = (before ++ [v]).length := by simp
    cases v with
    | plain n =>
      have hsplit : b.imported = (before ++ [.plain n]) ++ after := by simp [himported]
      simp only [copyHelper, hlength]
      apply (ih h hsplit hrest).mono
      rintro m' ⟨after', hbuilding, hpointed, hsame, hstays, hroom⟩
      refine ⟨.plain n :: after', ?_, .cons rfl hpointed, ?_, hstays, hroom⟩
      · simpa [refs] using hbuilding
      · intro hpos j
        exact .cons rfl (hsame hpos j)
    | pointer flags o =>
      simp only [copyHelper]
      apply (objectAssign_spec hcopy h₀ h himported (hall _ List.mem_cons_self)).bind
      rintro m₁ ⟨o', hassigned⟩
      have hlength' : before.length + 1 = (before ++ [Variable.pointer flags o']).length := by simp
      have hsplit : before ++ Variable.pointer flags o' :: after =
          (before ++ [Variable.pointer flags o']) ++ after := by simp
      rw [hlength']
      apply (ih hassigned.building hsplit hrest).mono
      rintro m' ⟨after', hbuilding, hpointed, hsame, hstays, hroom⟩
      refine ⟨.pointer flags o' :: after', ?_, .cons hassigned.pointed hpointed, ?_,
        hassigned.stays.trans hstays, hroom.trans hassigned.room⟩
      · rw [List.flatMap_cons, give_append]
        simpa using hbuilding
      · intro hpos j
        have hfirst := hassigned.same (Nat.lt_of_lt_of_le hpos hroom) j
        exact .cons (SameVariable.mono hstays (fun _ _ hs => hs.mono hstays) hfirst) (hsame hpos j)

end

/-- A helper that is not there would have had nothing to do. -/
theorem blockCallCopyHelper_eq {b : BlockLayout} (h : BlockShape b) (assign : Assign) (m : Memory)
    (result : Addr) : blockCallCopyHelper assign m result b = copyHelper assign result m 0 b.imported := by
  unfold blockCallCopyHelper
  split
  · next hno =>
    have hplain : ∀ l : List Variable, (∀ flags o, .pointer flags o ∉ l) → ∀ i,
        copyHelper assign result m i l = .ok m := by
      intro l
      induction l with
      | nil => intro _ i; rfl
      | cons v l ih =>
        intro hl i
        cases v with
        | plain n => exact ih (fun flags o hmem => hl flags o (List.mem_cons_of_mem _ hmem)) (i + 1)
        | pointer flags o => exact absurd List.mem_cons_self (hl flags o)
    exact (hplain b.imported (fun flags o hmem => h.helped flags o hmem hno) 0).symm
  · rfl

theorem same_self (m m' : Memory) (j : Nat) (a : Addr) : Same m m' j a a := by
  cases j with
  | zero => trivial
  | succ j => exact .inl rfl

/-- `_Block_copy` of a block that can be copied ends, if not for want of memory,
with the references in order, all there was as it was, and, as long as there is
memory, the block itself or a copy that means the same. -/
theorem blockCopy_spec (k : Nat) : ∀ {m : Memory} {own : Ref → Nat} {a : Addr}, Sound m own →
    copyable m k a = true →
    Ends (blockCopy (objectAssign k) m (some a)) fun p => Copied m own a p.1 p.2 := by
  induction k with
  | zero => intro m own a _ ha; cases ha
  | succ k ih =>
    intro m own a h ha
    obtain ⟨b, hb, hcase⟩ := copyable_succ_iff.mp ha
    have hload : m.block a = .ok b := by simp [Memory.block, hb]
    have hshape : BlockShape b := h.shape a _ hb
    simp only [blockCopy, hload, bind, Except.bind]
    rcases hcase with ⟨hfree, hisa, hlive⟩ | ⟨hfree, hglobal⟩ | ⟨hfree, hlocal, hall⟩
    · obtain ⟨hd, hkind⟩ := apply_incr b.flags
      rw [if_pos hfree]
      have htidy : Tidy m (m.set a (.block { b with flags := (apply .incr b.flags).1 })) :=
        .reflagBlock hb hisa hlive fun hd' => hlive (hd.mp hd')
      exact ⟨h.incrBlock hb hfree hlive, extends_reflagBlock hb hisa hkind hd, htidy,
        fun _ => ⟨a, rfl, fun j => same_self _ _ j a⟩⟩
    · rw [if_neg (not_not_intro hfree), if_pos hglobal]
      refine ⟨h.ofGlobal hb hfree hglobal fun r hr => give_other hr, Extends.refl m, Tidy.refl m,
        fun _ => ⟨a, rfl, fun j => same_self _ _ j a⟩⟩
    · have hisa : b.isa ≠ .mallocBlock := fun he => hshape.finished he hfree
      have hne : a ≠ m.next := Nat.ne_of_lt (h.lt_next hb)
      have hnew : m.cell m.next = none := h.fresh _ (Nat.le_refl _)
      rw [if_neg (not_not_intro hfree), if_neg (not_not_intro hlocal)]
      rcases malloc_cases m with ⟨hroom, hmalloc⟩ | ⟨hroom, hmalloc⟩
      · rw [hmalloc]
        refine ⟨h, Extends.refl m, Tidy.refl m, fun hpos => ?_⟩
        exact absurd hroom (Nat.ne_of_gt hpos)
      · rw [hmalloc]
        simp only [blockCallCopyHelper_eq hshape]
        -- the copy before the helper is called
        have hcompiler : ∀ bit, ~~~(blockRefcountMask ||| blockDeallocating) &&& bit = bit →
            (blockNeedsFree ||| 2) &&& bit = 0 → copiedFlags b.flags &&& bit = b.flags &&& bit :=
          fun bit => copiedFlags_compiler b.flags
        have hglobalBit := hcompiler blockIsGlobal (by decide) (by decide)
        have hhelpBit := hcompiler blockHasCopyDispose (by decide) (by decide)
        have hshape' : BlockShape { b with flags := copiedFlags b.flags } := by
          constructor
          · intro _
            change copiedFlags b.flags &&& blockIsGlobal = 0
            rw [hglobalBit, hlocal]
          · intro he
            exact absurd he hisa
          · intro hglobal
            change copiedFlags b.flags &&& blockIsGlobal ≠ 0 at hglobal
            rw [hglobalBit] at hglobal
            exact absurd hlocal hglobal
          · intro flags o hmem
            change copiedFlags b.flags &&& blockHasCopyDispose ≠ 0
            rw [hhelpBit]
            exact hshape.helped flags o hmem
          · intro he
            exact absurd he hisa
        have hbuilding : Building m
            (Memory.set { m with next := m.next + 1, room := m.room - 1 } m.next
              (.block { b with flags := copiedFlags b.flags }))
            (give own [.block m.next]) m.next { b with flags := copiedFlags b.flags } := by
          refine ⟨Nat.le_refl _, hnew, ?_, ?_, Function.update_self _ _ _, hisa, ?_, ?_⟩
          · exact h.newBlock hnew rfl rfl (Nat.le_succ _) (Nat.lt_succ_self _) hshape' hisa
              (copiedFlags_needsFree _) (refcount_copiedFlags _) (not_deallocating_copiedFlags _)
          · exact (Extends.refl m).construct (Nat.le_refl _) hnew (by simp [hnew]) rfl (Nat.le_succ _)
              (Nat.sub_le _ _)
          · rintro x ⟨d, hd, hopen⟩
            by_cases hx : x = m.next
            · exact .inl hx
            · rw [Memory.set_cell, Function.update_of_ne hx] at hd
              exact .inr ⟨d, hd, hopen⟩
          · intro hr
            apply hr.fewer
            intro x y hy
            by_cases hx : x = m.next
            · rw [hx, Memory.set_cell, Function.update_self, holds_unfinished (by exact hisa)] at hy
              cases hy
            · rwa [Memory.set_cell, Function.update_of_ne hx] at hy
        have hhelper := copyHelper_spec ih h b.imported hbuilding (List.nil_append b.imported).symm hall
        apply hhelper.bind
        rintro m' ⟨imported', hbuilt, hpointed, hsame, hstays, hroom'⟩
        have hcell := hbuilt.cell
        simp only [List.nil_append] at hbuilt hcell
        have hload' : m'.block m.next = .ok { b with flags := copiedFlags b.flags, imported := imported' } := by
          simp [Memory.block, hcell]
        simp only [hload']
        have hold : BlockShape { b with flags := copiedFlags b.flags, imported := imported' } :=
          hbuilt.sound.shape _ _ hcell
        have hdone : BlockShape
            { b with isa := .mallocBlock, flags := copiedFlags b.flags, imported := imported' } := by
          constructor
          · exact hold.heap
          · intro _
            exact copiedFlags_needsFree b.flags
          · exact hold.constant
          · exact hold.helped
          · intro _ flags hmem
            obtain ⟨v, hv⟩ := exists_of_forall₂ hpointed hmem
            cases v with
            | plain n => cases hv
            | pointer flags' o =>
              obtain ⟨rfl, hsome⟩ := hv
              exact fun he => hsome he rfl
        have hfinished := hbuilt.sound.finishBlock hcell hisa (not_deallocating_copiedFlags _) hdone
        refine ⟨hfinished, ?_, ?_, ?_⟩
        · exact hbuilt.kept.construct (Nat.le_refl _) hnew (by simp [hcell]) (Memory.set_cell m' _ _)
            (Nat.le_refl _) (Nat.le_refl _)
        · constructor
          · intro x hx
            refine (hbuilt.only_set _ x hx).resolve_left ?_
            rintro rfl
            obtain ⟨d, hd, hopen⟩ := hx
            rw [Memory.set_cell, Function.update_self] at hd
            cases hd
            rcases hopen.2 with hopen | hopen
            · exact hopen rfl
            · exact not_deallocating_copiedFlags _ hopen
          · intro hr
            exact (hbuilt.ranked hr).finish (Memory.set_cell m' _ _) (hfinished.unshared
              (Function.update_self _ _ _) (copiedFlags_needsFree _) (refcount_copiedFlags _))
        · intro hpos
          refine ⟨m.next, rfl, fun j => ?_⟩
          cases j with
          | zero => trivial
          | succ j =>
            refine .inr ⟨b, _, hb, Function.update_self _ _ _, hfree, hlocal, rfl, rfl, ?_, rfl, ?_⟩
            · exact hcompiler compilerFlags (by decide) (by decide)
            · have hlater := hbuilt.stays_set
                { b with isa := .mallocBlock, flags := copiedFlags b.flags, imported := imported' }
              exact (hsame hpos j).imp fun _ _ hv => SameVariable.mono hlater (fun _ _ hs => hs.mono hlater) hv

end BlockCopy
