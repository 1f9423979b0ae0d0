import IOSStudy.BlockLedger

/-!
# Releasing blocks

What `_Block_release` does to the memory: the last reference to go takes the
block and what only the block held with it, and nothing else.
-/
namespace BlockDispose

open BlockFlags BlockRuntime BlockLedger

def cellFlags : Cell → Word
  | .block b => b.flags
  | .byref v => v.flags

def reflag (w : Word) : Cell → Cell
  | .block b => .block { b with flags := w }
  | .byref v => .byref { v with flags := w }

/-- The blocks on the heap that can still be deallocated. -/
def alive : Option Cell → Nat
  | some (.block b) => if b.flags &&& blockNeedsFree ≠ 0 ∧ ¬ Deallocating b.flags then 1 else 0
  | _ => 0

/-- The memory afterwards: what is on the stack or already marked is as it was,
the rest keeps all but its count, or is gone. -/
structure Shrinks (m m' : Memory) : Prop where
  next : m'.next = m.next
  room : m.room ≤ m'.room
  absent : ∀ a, m.cell a = none → m'.cell a = none
  frozen : ∀ a c, m.cell a = some c → cellFlags c &&& blockNeedsFree = 0 ∨ Deallocating (cellFlags c) →
    m'.cell a = some c
  others : ∀ a c, m.cell a = some c →
    m'.cell a = none ∨ ∃ w, m'.cell a = some (reflag w c) ∧ kind w = kind (cellFlags c)

theorem reflag_self (c : Cell) : reflag (cellFlags c) c = c := by cases c <;> rfl

theorem reflag_reflag (w w' : Word) (c : Cell) : reflag w' (reflag w c) = reflag w' c := by cases c <;> rfl

theorem cellFlags_reflag (w : Word) (c : Cell) : cellFlags (reflag w c) = w := by cases c <;> rfl

theorem Shrinks.refl (m : Memory) : Shrinks m m :=
  ⟨rfl, Nat.le_refl _, fun _ h => h, fun _ _ h _ => h, fun _ c h => .inr ⟨_, (reflag_self c).symm ▸ h, rfl⟩⟩

theorem Shrinks.trans {m m₁ m₂ : Memory} (h : Shrinks m m₁) (h' : Shrinks m₁ m₂) : Shrinks m m₂ := by
  constructor
  · exact h'.next.trans h.next
  · exact h.room.trans h'.room
  · intro a ha
    exact h'.absent a (h.absent a ha)
  · intro a c hc hfrozen
    exact h'.frozen a c (h.frozen a c hc hfrozen) hfrozen
  · intro a c hc
    rcases h.others a c hc with hgone | ⟨w, hw, hkind⟩
    · exact .inl (h'.absent a hgone)
    · rcases h'.others a _ hw with hgone | ⟨w', hw', hkind'⟩
      · exact .inl hgone
      · rw [reflag_reflag] at hw'
        rw [cellFlags_reflag] at hkind'
        exact .inr ⟨w', hw', hkind'.trans hkind⟩

/-- One cell that is alive on the heap changes its count or goes. -/
theorem Shrinks.update {m m' : Memory} {a : Addr} {c : Cell} {d : Option Cell} (hc : m.cell a = some c)
    (hcell : m'.cell = Function.update m.cell a d) (hfree : cellFlags c &&& blockNeedsFree ≠ 0)
    (hlive : ¬ Deallocating (cellFlags c))
    (hd : d = none ∨ ∃ w, d = some (reflag w c) ∧ kind w = kind (cellFlags c))
    (hnext : m'.next = m.next) (hroom : m.room ≤ m'.room) : Shrinks m m' := by
  constructor
  · exact hnext
  · exact hroom
  · intro x hx
    have hxa : x ≠ a := fun he => by
      rw [he, hc] at hx
      cases hx
    rw [hcell, Function.update_of_ne hxa, hx]
  · intro x e he hfrozen
    have hxa : x ≠ a := fun hxa => by
      rw [hxa, hc] at he
      cases he
      rcases hfrozen with hstack | hmark
      · exact hfree hstack
      · exact hlive hmark
    rw [hcell, Function.update_of_ne hxa, he]
  · intro x e he
    by_cases hxa : x = a
    · subst hxa
      rw [hc] at he
      cases he
      rw [hcell, Function.update_self]
      exact hd
    · exact .inr ⟨_, by rw [hcell, Function.update_of_ne hxa, he, reflag_self], rfl⟩

/-- One cell that was alive on the heap has gone in the end. -/
theorem Shrinks.remove {m m₁ m₂ m' : Memory} {a : Addr} {c : Cell} {d : Option Cell} (h : Shrinks m₁ m₂)
    (hc : m.cell a = some c) (hcell : m₁.cell = Function.update m.cell a d)
    (hfree : cellFlags c &&& blockNeedsFree ≠ 0) (hlive : ¬ Deallocating (cellFlags c))
    (hgone : m'.cell = Function.update m₂.cell a none) (hnext : m'.next = m.next)
    (hroom : m.room ≤ m'.room) : Shrinks m m' := by
  have hsame : ∀ x, x ≠ a → m₁.cell x = m.cell x := fun x hx => by rw [hcell, Function.update_of_ne hx]
  have hend : ∀ x, x ≠ a → m'.cell x = m₂.cell x := fun x hx => by rw [hgone, Function.update_of_ne hx]
  constructor
  · exact hnext
  · exact hroom
  · intro x hx
    have hxa : x ≠ a := fun he => by
      rw [he, hc] at hx
      cases hx
    rw [hend x hxa]
    exact h.absent x ((hsame x hxa).trans hx)
  · intro x e he hfrozen
    have hxa : x ≠ a := fun hxa => by
      rw [hxa, hc] at he
      cases he
      rcases hfrozen with hstack | hmark
      · exact hfree hstack
      · exact hlive hmark
    rw [hend x hxa]
    exact h.frozen x e ((hsame x hxa).trans he) hfrozen
  · intro x e he
    by_cases hxa : x = a
    · exact .inl (by rw [hxa, hgone, Function.update_self])
    · rw [hend x hxa]
      exact h.others x e ((hsame x hxa).trans he)

/-- The release of one reference: what the caller relies on. -/
structure Released (m : Memory) (own : Ref → Nat) (k : Nat) (m' : Memory) : Prop where
  sound : Sound m' own
  shrinks : Shrinks m m'
  tidy : Tidy m m'
  fewer : ∃ k' ≤ k, Tally.Total (fun a => alive (m'.cell a)) k'

theorem Released.trans {m m₁ m₂ : Memory} {own own' : Ref → Nat} {k k' : Nat} (h : Released m own' k m₁)
    (h' : Released m₁ own k' m₂) (hk : k' ≤ k) : Released m own k m₂ := by
  obtain ⟨n, hn, htotal⟩ := h'.fewer
  exact ⟨h'.sound, h.shrinks.trans h'.shrinks, h.tidy.trans h'.tidy, n, hn.trans hk, htotal⟩

theorem alive_update {m m' : Memory} {a : Addr} {c : Option Cell} (hcell : m'.cell = Function.update m.cell a c) :
    (fun x => alive (m'.cell x)) = Function.update (fun x => alive (m.cell x)) a (alive c) := by
  funext x
  by_cases hx : x = a
  · simp [hcell, hx]
  · simp [hcell, hx]

/-- What a reference that is held refers to. -/
theorem held_block {m : Memory} {own : Ref → Nat} {a : Addr} (h : Sound m (give own [.block a])) :
    ∃ b, m.cell a = some (.block b) ∧
      (b.flags &&& blockNeedsFree ≠ 0 ∨ b.flags &&& blockNeedsFree = 0 ∧ b.flags &&& blockIsGlobal ≠ 0) := by
  obtain ⟨n, _, hcounted⟩ := h.ledger (.block a)
  rw [give_self] at hcounted
  simp only [Counted] at hcounted
  cases hc : m.cell a with
  | none =>
    rw [hc] at hcounted
    simp only [flagsOf] at hcounted
    omega
  | some c =>
    cases c with
    | byref v =>
      rw [hc] at hcounted
      simp only [flagsOf] at hcounted
      omega
    | block b =>
      rw [hc] at hcounted
      simp only [flagsOf] at hcounted
      refine ⟨b, rfl, ?_⟩
      by_cases hfree : b.flags &&& blockNeedsFree = 0
      · rw [if_neg (not_not_intro hfree)] at hcounted
        exact .inr ⟨hfree, hcounted.resolve_right (by omega)⟩
      · exact .inl hfree

theorem held_byref {m : Memory} {own : Ref → Nat} {a : Addr} (h : Sound m (give own [.byref a])) :
    ∃ v, m.cell a = some (.byref v) ∧ v.flags &&& blockByrefNeedsFree ≠ 0 ∧ ¬ Deallocating v.flags := by
  obtain ⟨n, _, hcounted⟩ := h.ledger (.byref a)
  rw [give_self] at hcounted
  simp only [Counted] at hcounted
  cases hc : m.cell a with
  | none =>
    rw [hc] at hcounted
    simp only [flagsOf] at hcounted
    omega
  | some c =>
    cases c with
    | block b =>
      rw [hc] at hcounted
      simp only [flagsOf] at hcounted
      omega
    | byref v =>
      rw [hc] at hcounted
      simp only [flagsOf] at hcounted
      split at hcounted
      · next hfree => exact ⟨v, rfl, hfree, hcounted.not_deallocating (by omega)⟩
      · omega

section

variable {m : Memory} {own : Ref → Nat} {a : Addr} {f k : Nat}

/-- The destroy helper of a variable releases nothing. -/
theorem byrefDestroy_eq {v : BlockByref} (h : ByrefShape a v) (m : Memory) :
    byrefDestroy (objectDispose (f + 1)) m v.contents = .ok m := by
  cases hc : v.contents with
  | plain n => rfl
  | pointer flags o => simp [byrefDestroy, objectDispose, blockObjectDispose, h.caller flags o hc]

/-- What is left when one reference to a variable on the heap is given up. -/
def dropByref (m : Memory) (a : Addr) (v : BlockByref) : Memory :=
  if (apply .decrShouldDeallocate v.flags).2 = .truth true then
    { m with cell := Function.update m.cell a none, room := m.room + 1 }
  else m.set a (.byref { v with flags := (apply .decrShouldDeallocate v.flags).1 })

/-- The release through any pointer that is forwarded there. -/
theorem byrefRelease_eq {x : Addr} {u v : BlockByref} (hx : m.cell x = some (.byref u))
    (hforward : u.forwarding = a) (hv : m.cell a = some (.byref v)) (hshape : ByrefShape a v)
    (hfree : v.flags &&& blockByrefNeedsFree ≠ 0) (hcount : v.flags &&& blockRefcountMask ≠ 0) :
    byrefRelease (objectDispose (f + 1)) m (some x) = .ok (dropByref m a v) := by
  subst hforward
  have hload : m.byref x = .ok u := by simp [Memory.byref, hx]
  have hload' : m.byref u.forwarding = .ok v := by simp [Memory.byref, hv]
  simp only [byrefRelease, hload, hload', bind, Except.bind, if_pos hfree, if_neg hcount, dropByref]
  by_cases hlast : (apply .decrShouldDeallocate v.flags).2 = .truth true
  · rw [if_pos hlast, if_pos hlast]
    have hdestroy := byrefDestroy_eq (f := f) hshape
    split
    · simp only [hdestroy, Memory.free, Memory.set, Function.update_self, Function.update_idem]
    · simp only [Memory.free, Memory.set, Function.update_self, Function.update_idem]
  · rw [if_neg hlast, if_neg hlast]

theorem dropByref_spec {v : BlockByref} (h : Sound m (give own [.byref a])) (hv : m.cell a = some (.byref v))
    (htotal : Tally.Total (fun a => alive (m.cell a)) k) : Released m own k (dropByref m a v) := by
  obtain ⟨u, hu, hfree, hlive⟩ := held_byref h
  rw [hv] at hu
  cases hu
  obtain ⟨hsound, htold, _, hkind⟩ := h.decrByref hv hfree
  have hneeds : (apply .decrShouldDeallocate v.flags).1 &&& blockByrefNeedsFree ≠ 0 := by
    rw [show (apply .decrShouldDeallocate v.flags).1 &&& blockByrefNeedsFree = _ from needsFree_of_kind hkind]
    exact hfree
  rw [dropByref]
  by_cases hlast : (apply .decrShouldDeallocate v.flags).2 = .truth true
  · rw [if_pos hlast]
    have hcell : Function.update m.cell a none = Function.update
        (m.set a (.byref { v with flags := (apply .decrShouldDeallocate v.flags).1 })).cell a none := by
      rw [Memory.set_cell, Function.update_idem]
    constructor
    · exact hsound.freeByref (Function.update_self _ _ _) hneeds (htold.mp hlast) hcell rfl rfl
    · exact .update hv rfl hfree hlive (.inl rfl) rfl (Nat.le_succ _)
    · exact .erase rfl
    · refine ⟨k, Nat.le_refl k, ?_⟩
      rw [alive_update (m := m) rfl]
      exact htotal.update a _ (by simp [alive, hv])
  · rw [if_neg hlast]
    have hnot : ¬ Deallocating (apply .decrShouldDeallocate v.flags).1 := fun hd => hlast (htold.mpr hd)
    constructor
    · exact hsound
    · exact .update hv rfl hfree hlive (.inr ⟨_, rfl, hkind⟩) rfl (Nat.le_refl _)
    · exact .update (Memory.set_cell m a _) (fun ho => absurd ho.2 hnot) fun y hy => absurd hy block_notMem_byref
    · refine ⟨k, Nat.le_refl k, ?_⟩
      rw [alive_update (m := m) (Memory.set_cell m a _)]
      exact htotal.update a _ (by simp [alive, hv])

end

/-- Every block on the heap is finished. -/
def Finished (m : Memory) : Prop :=
  ∀ a b, m.cell a = some (.block b) → b.flags &&& blockNeedsFree ≠ 0 → b.isa = .mallocBlock

theorem Shrinks.finished {m m' : Memory} (h : Shrinks m m') (hm : Finished m) : Finished m' := by
  intro a b hb hfree
  cases hc : m.cell a with
  | none =>
    rw [h.absent a hc] at hb
    cases hb
  | some c =>
    rcases h.others a c hc with hgone | ⟨w, hw, hkind⟩
    · rw [hgone] at hb
      cases hb
    · rw [hw] at hb
      cases c with
      | byref v => cases hb
      | block b₀ =>
        cases hb
        have hbit : w &&& blockNeedsFree = b₀.flags &&& blockNeedsFree := needsFree_of_kind hkind
        exact hm a b₀ hc (hbit ▸ hfree)

/-- A helper that is not there would have had nothing to dispose of. -/
theorem blockCallDisposeHelper_eq {b : BlockLayout} (h : BlockShape b) (dispose : Dispose) (m : Memory) :
    blockCallDisposeHelper dispose m b = disposeHelper dispose m b.imported := by
  unfold blockCallDisposeHelper
  split
  · next hno =>
    have hplain : ∀ l : List Variable, (∀ flags o, .pointer flags o ∉ l) → disposeHelper dispose m l = .ok m := by
      intro l
      induction l with
      | nil => intro _; rfl
      | cons v l ih =>
        intro hl
        cases v with
        | plain n => exact ih fun flags o hmem => hl flags o (List.mem_cons_of_mem _ hmem)
        | pointer flags o => exact absurd List.mem_cons_self (hl flags o)
    exact (hplain b.imported fun flags o hmem => h.helped flags o hmem hno).symm
  · rfl

/-- The release of blocks with this much recursion to go. -/
def Releases (f : Nat) : Prop :=
  ∀ {m : Memory} {own : Ref → Nat} {a : Addr} {k : Nat}, Sound m (give own [.block a]) → Finished m →
    Tally.Total (fun a => alive (m.cell a)) k → k < f →
    ∃ m', blockRelease (objectDispose f) m (some a) = .ok m' ∧ Released m own k m'

section

variable {m : Memory} {own : Ref → Nat} {a : Addr} {f k : Nat}

/-- The support function gives up the reference that a variable stands for. -/
theorem objectDispose_spec (hrelease : Releases (f + 1)) {flags : Word} {o : Option Addr}
    (h : Sound m (give own (refs (.pointer flags o)))) (hpointed : fieldKind flags = .byref → o ≠ none)
    (hfinished : Finished m) (htotal : Tally.Total (fun a => alive (m.cell a)) k) (hk : k < f + 1) :
    ∃ m', objectDispose (f + 2) m o flags = .ok m' ∧ Released m own k m' := by
  have hnothing : Sound m own → Released m own k m :=
    fun hs => ⟨hs, .refl m, .refl m, k, Nat.le_refl k, htotal⟩
  simp only [objectDispose, blockObjectDispose]
  cases hkind : fieldKind flags with
  | object =>
    have hrefs : refs (.pointer flags o) = o.toList.map Ref.object := by cases o <;> simp [refs, hkind]
    rw [hrefs] at h
    exact ⟨_, rfl, h.releaseObject, ⟨rfl, Nat.le_refl _, fun _ hx => hx, fun _ _ hx _ => hx,
      (Shrinks.refl m).others⟩, ⟨fun _ hx => hx, fun hr => hr⟩, k, Nat.le_refl k, htotal⟩
  | byrefCaller =>
    have hrefs : refs (.pointer flags o) = [] := by cases o <;> simp [refs, hkind]
    rw [hrefs] at h
    exact ⟨m, rfl, hnothing h⟩
  | other =>
    have hrefs : refs (.pointer flags o) = [] := by cases o <;> simp [refs, hkind]
    rw [hrefs] at h
    exact ⟨m, rfl, hnothing h⟩
  | block =>
    cases o with
    | none => exact ⟨m, rfl, hnothing (by simpa [refs] using h)⟩
    | some y =>
      have hrefs : refs (.pointer flags (some y)) = [Ref.block y] := by simp [refs, hkind]
      rw [hrefs] at h
      exact hrelease h hfinished htotal hk
  | byref =>
    cases o with
    | none => exact absurd rfl (hpointed hkind)
    | some y =>
      have hrefs : refs (.pointer flags (some y)) = [Ref.byref y] := by simp [refs, hkind]
      rw [hrefs] at h
      obtain ⟨v, hv, hfree, _⟩ := held_byref h
      have hshape : ByrefShape y v := h.shape y _ hv
      have hrun := byrefRelease_eq (f := f) hv (hshape.heap hfree) hv hshape hfree (h.decrByref hv hfree).2.2.1
      exact ⟨_, hrun, dropByref_spec h hv htotal⟩

/-- The dispose helper gives up the references one after the other. -/
theorem disposeHelper_spec (hrelease : Releases (f + 1)) : ∀ (imported : List Variable) {m : Memory} {k : Nat},
    Sound m (give own (imported.flatMap refs)) →
    (∀ flags, .pointer flags none ∈ imported → fieldKind flags ≠ .byref) → Finished m →
    Tally.Total (fun a => alive (m.cell a)) k → k < f + 1 →
    ∃ m', disposeHelper (objectDispose (f + 2)) m imported = .ok m' ∧ Released m own k m' := by
  intro imported
  induction imported with
  | nil =>
    intro m k h _ _ htotal _
    exact ⟨m, rfl, h, .refl m, .refl m, k, Nat.le_refl k, htotal⟩
  | cons v imported ih =>
    intro m k h hpointed hfinished htotal hk
    have hrest : ∀ flags, .pointer flags none ∈ imported → fieldKind flags ≠ .byref :=
      fun flags hmem => hpointed flags (List.mem_cons_of_mem _ hmem)
    cases v with
    | plain n => exact ih h hrest hfinished htotal hk
    | pointer flags o =>
      rw [List.flatMap_cons] at h
      have hsplit : give own (refs (.pointer flags o) ++ imported.flatMap refs) =
          give (give own (imported.flatMap refs)) (refs (.pointer flags o)) := by
        funext r
        simp only [give, List.count_append]
        omega
      rw [hsplit] at h
      have hhead : fieldKind flags = .byref → o ≠ none := by
        rintro hbyref rfl
        exact hpointed flags List.mem_cons_self hbyref
      obtain ⟨m₁, hrun, hreleased⟩ := objectDispose_spec hrelease h hhead hfinished htotal hk
      obtain ⟨k₁, hle, htotal₁⟩ := hreleased.fewer
      obtain ⟨m₂, hrun', hreleased'⟩ := ih hreleased.sound hrest (hreleased.shrinks.finished hfinished)
        htotal₁ (Nat.lt_of_le_of_lt hle hk)
      refine ⟨m₂, ?_, hreleased.trans hreleased' hle⟩
      simp only [disposeHelper, hrun, bind, Except.bind]
      exact hrun'

/-- The count of the block, and nothing else, changes. -/
theorem Released.reflag {b : BlockLayout} {w : Word} (hsound : Sound (m.set a (.block { b with flags := w })) own)
    (hb : m.cell a = some (.block b)) (hfree : b.flags &&& blockNeedsFree ≠ 0) (hlive : ¬ Deallocating b.flags)
    (hisa : b.isa = .mallocBlock) (hkind : kind w = kind b.flags) (hd : ¬ Deallocating w)
    (htotal : Tally.Total (fun a => alive (m.cell a)) k) :
    Released m own k (m.set a (.block { b with flags := w })) := by
  have hneeds : w &&& blockNeedsFree ≠ 0 := by
    rw [needsFree_of_kind hkind]
    exact hfree
  constructor
  · exact hsound
  · exact .update hb rfl hfree hlive (.inr ⟨w, rfl, hkind⟩) rfl (Nat.le_refl _)
  · exact .reflagBlock hb hisa hlive hd
  · refine ⟨k, Nat.le_refl k, ?_⟩
    rw [alive_update (m := m) (Memory.set_cell m a _)]
    have hwas : alive (m.cell a) = 1 := by
      rw [hb]
      exact if_pos ⟨hfree, hlive⟩
    have his : alive (some (.block { b with flags := w })) = 1 := if_pos ⟨hneeds, hd⟩
    exact htotal.update a _ (by rw [hwas, his])

/-- The block is marked, what it held is given up, and its cell goes back to malloc. -/
theorem Released.last {m₁ : Memory} {b : BlockLayout} {w : Word} (hb : m.cell a = some (.block b))
    (hfree : b.flags &&& blockNeedsFree ≠ 0) (hlive : ¬ Deallocating b.flags) (hkind : kind w = kind b.flags)
    (hd : Deallocating w) (h : Released (m.set a (.block { b with flags := w })) own k m₁) :
    Memory.free (m₁.call (.destructInstance a)) a =
        .ok { m₁.call (.destructInstance a) with cell := Function.update m₁.cell a none, room := m₁.room + 1 } ∧
      Released m own k
        { m₁.call (.destructInstance a) with cell := Function.update m₁.cell a none, room := m₁.room + 1 } := by
  have hneeds : w &&& blockNeedsFree ≠ 0 := by
    rw [needsFree_of_kind hkind]
    exact hfree
  have hmarked : m₁.cell a = some (.block { b with flags := w }) :=
    h.shrinks.frozen a _ (Function.update_self _ _ _) (.inr hd)
  refine ⟨?_, ?_, ?_, ?_, ?_⟩
  · have hcell : (m₁.call (.destructInstance a)).cell a = some (.block { b with flags := w }) := hmarked
    simp only [Memory.free, hcell]
    rfl
  · exact (h.sound.destructInstance a).freeBlock hmarked hneeds hd rfl rfl rfl
  · exact h.shrinks.remove hb rfl hfree hlive rfl h.shrinks.next (h.shrinks.room.trans (Nat.le_succ _))
  · have hfirst : Tidy (m.set a (.block { b with flags := w })) { m₁.call (.destructInstance a) with
        cell := Function.update m₁.cell a none, room := m₁.room + 1 } :=
      h.tidy.trans (.erase rfl)
    constructor
    · intro x hx
      have hxa : x ≠ a := by
        rintro rfl
        obtain ⟨c, hc, _⟩ := hx
        simp at hc
      obtain ⟨c, hc, hopen⟩ := hfirst.only x hx
      rw [Memory.set_cell, Function.update_of_ne hxa] at hc
      exact ⟨c, hc, hopen⟩
    · intro hr
      apply hfirst.ranked
      apply hr.fewer
      intro x y hy
      by_cases hx : x = a
      · rw [hx, Memory.set_cell, Function.update_self, holds_deallocating (by exact hd)] at hy
        cases hy
      · rwa [Memory.set_cell, Function.update_of_ne hx] at hy
  · obtain ⟨k', hle, htotal⟩ := h.fewer
    refine ⟨k', hle, ?_⟩
    rw [alive_update (m := m₁) rfl]
    have hwas : alive (m₁.cell a) = 0 := by
      rw [hmarked]
      exact if_neg fun hno => hno.2 hd
    exact htotal.update a _ (by rw [hwas]; rfl)

/-- `_Block_release` ends, with the references in order and all that was only
kept by what it released gone. -/
theorem blockRelease_spec (f : Nat) : Releases f := by
  induction f with
  | zero =>
    intro m own a k _ _ _ hk
    exact absurd hk (Nat.not_lt_zero k)
  | succ f ih =>
    intro m own a k h hfinished htotal hk
    obtain ⟨b, hb, hcase⟩ := held_block h
    have hload : m.block a = .ok b := by simp [Memory.block, hb]
    have hshape : BlockShape b := h.shape a _ hb
    simp only [blockRelease, hload, bind, Except.bind]
    rcases hcase with hfree | ⟨hstatic, hglobal⟩
    · rw [if_neg (not_not_intro (hshape.heap hfree)), if_neg hfree]
      have hisa := hfinished a b hb hfree
      obtain ⟨hsound, hlive, hkind⟩ := h.decrBlock hb hfree hisa
      rcases hsound with ⟨hkeep, hd, hsound⟩ | ⟨hlast, hd, hsound⟩
      · rw [if_neg hkeep]
        exact ⟨_, rfl, .reflag hsound hb hfree hlive hisa hkind hd htotal⟩
      · rw [if_pos hlast]
        have hone : alive (m.cell a) = 1 := by
          rw [hb]
          exact if_pos ⟨hfree, hlive⟩
        have hpos := htotal.le a
        simp only [hone] at hpos
        obtain ⟨k, rfl⟩ := Nat.exists_eq_add_of_le' hpos
        obtain ⟨f, rfl⟩ := Nat.exists_eq_add_of_le' (show 1 ≤ f by omega)
        let w := (apply .decrShouldDeallocate b.flags).1
        have hmarked : Tally.Total (fun x => alive ((m.set a (.block { b with flags := w })).cell x)) k := by
          rw [alive_update (m := m) (Memory.set_cell m a _)]
          have hnone : alive (some (.block { b with flags := w })) = 0 := if_neg fun hno => hno.2 hd
          exact htotal.update a _ (by rw [hone, hnone])
        have hfinished' : Finished (m.set a (.block { b with flags := w })) := by
          intro x c hc hneeds
          by_cases hx : x = a
          · rw [hx, Memory.set_cell, Function.update_self] at hc
            cases hc
            exact hisa
          · rw [Memory.set_cell, Function.update_of_ne hx] at hc
            exact hfinished x c hc hneeds
        have hshape' : BlockShape { b with flags := w } := hsound.shape a _ (Function.update_self _ _ _)
        obtain ⟨m₁, hrun, hreleased⟩ :=
          disposeHelper_spec ih b.imported hsound (hshape.pointed hisa) hfinished' hmarked (by omega)
        obtain ⟨hgone, hdone⟩ := Released.last hb hfree hlive hkind hd hreleased
        obtain ⟨k', hle, htotal'⟩ := hdone.fewer
        rw [blockCallDisposeHelper_eq hshape']
        simp only [hrun, hgone]
        exact ⟨_, rfl, hdone.sound, hdone.shrinks, hdone.tidy, k', hle.trans (Nat.le_succ k), htotal'⟩
    · rw [if_pos hglobal]
      have hsound : Sound m own := h.ofGlobal hb hstatic hglobal fun r hr => (give_other hr).symm
      exact ⟨m, rfl, hsound, .refl m, .refl m, k, Nat.le_refl k, htotal⟩

end

end BlockDispose
