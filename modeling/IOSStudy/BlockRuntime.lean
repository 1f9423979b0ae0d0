import Mathlib.Logic.Function.Basic
import IOSStudy.BlockFlags

/-!
# The block runtime

`_Block_copy`, `_Block_release` and the support functions the compiler's copy
and dispose helpers call, over a memory of blocks and `__block` variables. A
function that calls back into a helper takes the support function as an
argument; the helpers call it once for each variable that needs it.
-/
namespace BlockRuntime

open CasLoop BlockFlags

abbrev Addr := Nat

inductive Isa where
  | null | stackBlock | mallocBlock | globalBlock
  deriving DecidableEq, Repr

def blockFieldIsObject : Word := 3
def blockFieldIsBlock : Word := 7
def blockFieldIsByref : Word := 8
def blockFieldIsWeak : Word := 16
def blockByrefCaller : Word := 128
def blockAllCopyDisposeFlags : Word :=
  blockFieldIsObject ||| blockFieldIsBlock ||| blockFieldIsByref ||| blockFieldIsWeak ||| blockByrefCaller

def blockByrefNeedsFree : Word := blockNeedsFree
def blockByrefHasCopyDispose : Word := 1#32 <<< 25
def blockByrefLayoutExtended : Word := 1#32 <<< 28

/-- The cases the two support functions switch over. -/
inductive FieldKind where
  | object | block | byref | byrefCaller | other
  deriving DecidableEq, Repr

def fieldKind (flags : Word) : FieldKind :=
  let case := flags &&& blockAllCopyDisposeFlags
  if case = blockFieldIsObject then .object
  else if case = blockFieldIsBlock then .block
  else if case = blockFieldIsByref ||| blockFieldIsWeak ∨ case = blockFieldIsByref then .byref
  else if case = blockByrefCaller ||| blockFieldIsObject ∨
      case = blockByrefCaller ||| blockFieldIsBlock ∨
      case = blockByrefCaller ||| blockFieldIsObject ||| blockFieldIsWeak ∨
      case = blockByrefCaller ||| blockFieldIsBlock ||| blockFieldIsWeak then .byrefCaller
  else .other

/-- A variable in a block or in a `__block` structure: copied bit by bit, or a
pointer for which the compiler's helper passes these flags. -/
inductive Variable where
  | plain (value : Int)
  | pointer (flags : Word) (object : Option Addr)
  deriving DecidableEq, Repr

/-- `*dest = value` -/
def Variable.point (value : Option Addr) : Variable → Variable
  | .plain n => .plain n
  | .pointer flags _ => .pointer flags value

/-- Memory that malloc has not filled in. -/
def Variable.blank : Variable → Variable
  | .plain _ => .plain 0
  | .pointer flags _ => .pointer flags none

structure Descriptor where
  size : Nat
  signature : Option String
  layout : Option String
  deriving DecidableEq, Repr

structure BlockLayout where
  isa : Isa
  flags : Word
  invoke : Nat
  descriptor : Descriptor
  imported : List Variable
  deriving DecidableEq, Repr

structure BlockByref where
  isa : Isa
  forwarding : Addr
  flags : Word
  size : Nat
  layout : Option String
  contents : Variable
  deriving DecidableEq, Repr

inductive Cell where
  | block (b : BlockLayout)
  | byref (v : BlockByref)
  deriving DecidableEq, Repr

/-- What the runtime asks of the functions registered with `_Block_use_RR2`. -/
inductive Callback where
  | retainObject (ptr : Option Addr)
  | releaseObject (ptr : Option Addr)
  | destructInstance (aBlock : Addr)
  deriving DecidableEq, Repr

/-- Ways a run of the C code ends without a result. -/
inductive Fault where
  | badAccess
  | noMemory
  | assertion
  | outOfFuel
  deriving DecidableEq, Repr

/-- Stack, data segment and heap together. malloc grants as many more objects
as there is room for, each at a new address. -/
structure Memory where
  cell : Addr → Option Cell
  next : Addr
  room : Nat
  callbacks : List Callback

namespace Memory

def block (m : Memory) (a : Addr) : Except Fault BlockLayout :=
  match m.cell a with
  | some (.block b) => .ok b
  | _ => .error .badAccess

def byref (m : Memory) (a : Addr) : Except Fault BlockByref :=
  match m.cell a with
  | some (.byref v) => .ok v
  | _ => .error .badAccess

def set (m : Memory) (a : Addr) (c : Cell) : Memory :=
  { m with cell := Function.update m.cell a (some c) }

theorem set_cell (m : Memory) (a : Addr) (c : Cell) :
    (m.set a c).cell = Function.update m.cell a (some c) := rfl

def malloc (m : Memory) : Option (Addr × Memory) :=
  if m.room = 0 then none else some (m.next, { m with next := m.next + 1, room := m.room - 1 })

def free (m : Memory) (a : Addr) : Except Fault Memory :=
  match m.cell a with
  | some _ => .ok { m with cell := Function.update m.cell a none, room := m.room + 1 }
  | none => .error .badAccess

def call (m : Memory) (c : Callback) : Memory := { m with callbacks := c :: m.callbacks }

/-- Store a pointer into a variable of a block, or into that of a `__block` structure. -/
def assign (m : Memory) (dest : Addr × Nat) (value : Option Addr) : Except Fault Memory :=
  match m.cell dest.1 with
  | some (.block b) =>
    .ok (m.set dest.1 (.block { b with imported := b.imported.modify dest.2 (Variable.point value) }))
  | some (.byref v) => .ok (m.set dest.1 (.byref { v with contents := v.contents.point value }))
  | none => .error .badAccess

end Memory

abbrev Assign := Memory → Addr × Nat → Option Addr → Word → Except Fault Memory
abbrev Dispose := Memory → Option Addr → Word → Except Fault Memory

/-- The copy helper assigns the variables one after the other. -/
def copyHelper (assign : Assign) (result : Addr) : Memory → Nat → List Variable → Except Fault Memory
  | m, _, [] => .ok m
  | m, i, .plain _ :: imported => copyHelper assign result m (i + 1) imported
  | m, i, .pointer flags object :: imported => do
    let m ← assign m (result, i) object flags
    copyHelper assign result m (i + 1) imported

def blockCallCopyHelper (assign : Assign) (m : Memory) (result : Addr) (aBlock : BlockLayout) :
    Except Fault Memory :=
  if aBlock.flags &&& blockHasCopyDispose = 0 then .ok m
  else copyHelper assign result m 0 aBlock.imported

def blockCopy (assign : Assign) (m : Memory) : Option Addr → Except Fault (Option Addr × Memory)
  | none => .ok (none, m)
  | some arg => do
    let aBlock ← m.block arg
    if aBlock.flags &&& blockNeedsFree ≠ 0 then
      .ok (some arg, m.set arg (.block { aBlock with flags := (apply .incr aBlock.flags).1 }))
    else if aBlock.flags &&& blockIsGlobal ≠ 0 then .ok (some arg, m)
    else match m.malloc with
      | none => .ok (none, m)
      | some (result, m) => do
        -- bitcopy first
        let m := m.set result (.block { aBlock with flags := copiedFlags aBlock.flags })
        let m ← blockCallCopyHelper assign m result aBlock
        -- isa last
        let copied ← m.block result
        .ok (some result, m.set result (.block { copied with isa := .mallocBlock }))

/-- The keep helper assigns the one variable. -/
def byrefKeep (assign : Assign) (m : Memory) (copy : Addr) : Variable → Except Fault Memory
  | .plain _ => .ok m
  | .pointer flags object => assign m (copy, 0) object flags

def byrefCopy (assign : Assign) (m : Memory) : Option Addr → Except Fault (Option Addr × Memory)
  | none => .error .badAccess
  | some arg => do
    let src ← m.byref arg
    let forwarded ← m.byref src.forwarding
    if forwarded.flags &&& blockRefcountMask = 0 then
      match m.malloc with
      -- the code writes through the null pointer
      | none => .error .noMemory
      | some (copy, m) => do
        let heap : BlockByref :=
          { isa := .null, forwarding := copy, flags := byrefCopiedFlags src.flags,
            size := src.size, layout := none, contents := src.contents.blank }
        let m := (m.set copy (.byref heap)).set arg (.byref { src with forwarding := copy })
        if src.flags &&& blockByrefHasCopyDispose ≠ 0 then do
          let layout := if src.flags &&& blockByrefLayoutExtended ≠ 0 then src.layout else none
          let m := m.set copy (.byref { heap with layout := layout })
          let m ← byrefKeep assign m copy src.contents
          .ok (some copy, m)
        else
          .ok (some copy, m.set copy (.byref { heap with layout := src.layout, contents := src.contents }))
    else if forwarded.flags &&& blockByrefNeedsFree = blockByrefNeedsFree then
      .ok (some src.forwarding,
        m.set src.forwarding (.byref { forwarded with flags := (apply .incr forwarded.flags).1 }))
    else .ok (some src.forwarding, m)

def blockObjectAssign (copy copyByref : Memory → Option Addr → Except Fault (Option Addr × Memory)) : Assign :=
  fun m dest object flags => match fieldKind flags with
    | .object => (m.call (.retainObject object)).assign dest object
    | .block => do
      let (value, m) ← copy m object
      m.assign dest value
    | .byref => do
      let (value, m) ← copyByref m object
      m.assign dest value
    | .byrefCaller => m.assign dest object
    | .other => .ok m

/-- The support function calls itself through the copies it makes. -/
def objectAssign : Nat → Assign
  | 0 => fun _ _ _ _ => .error .outOfFuel
  | fuel + 1 => blockObjectAssign (blockCopy (objectAssign fuel)) (byrefCopy (objectAssign fuel))

def disposeHelper (dispose : Dispose) : Memory → List Variable → Except Fault Memory
  | m, [] => .ok m
  | m, .plain _ :: imported => disposeHelper dispose m imported
  | m, .pointer flags object :: imported => do
    let m ← dispose m object flags
    disposeHelper dispose m imported

def blockCallDisposeHelper (dispose : Dispose) (m : Memory) (aBlock : BlockLayout) : Except Fault Memory :=
  if aBlock.flags &&& blockHasCopyDispose = 0 then .ok m
  else disposeHelper dispose m aBlock.imported

def blockRelease (dispose : Dispose) (m : Memory) : Option Addr → Except Fault Memory
  | none => .ok m
  | some arg => do
    let aBlock ← m.block arg
    if aBlock.flags &&& blockIsGlobal ≠ 0 then .ok m
    else if aBlock.flags &&& blockNeedsFree = 0 then .ok m
    else
      let (flags, shouldDeallocate) := apply .decrShouldDeallocate aBlock.flags
      let aBlock := { aBlock with flags := flags }
      let m := m.set arg (.block aBlock)
      if shouldDeallocate = .truth true then do
        let m ← blockCallDisposeHelper dispose m aBlock
        let m := m.call (.destructInstance arg)
        m.free arg
      else .ok m

/-- The destroy helper disposes of the one variable. -/
def byrefDestroy (dispose : Dispose) (m : Memory) : Variable → Except Fault Memory
  | .plain _ => .ok m
  | .pointer flags object => dispose m object flags

def byrefRelease (dispose : Dispose) (m : Memory) : Option Addr → Except Fault Memory
  | none => .error .badAccess
  | some arg => do
    let forwarding := (← m.byref arg).forwarding
    let byref ← m.byref forwarding
    if byref.flags &&& blockByrefNeedsFree ≠ 0 then
      if byref.flags &&& blockRefcountMask = 0 then .error .assertion
      else
        let (flags, shouldDeallocate) := apply .decrShouldDeallocate byref.flags
        let byref := { byref with flags := flags }
        let m := m.set forwarding (.byref byref)
        if shouldDeallocate = .truth true then do
          let m ← if byref.flags &&& blockByrefHasCopyDispose ≠ 0 then
              byrefDestroy dispose m byref.contents
            else .ok m
          m.free forwarding
        else .ok m
    else .ok m

def blockObjectDispose (release releaseByref : Memory → Option Addr → Except Fault Memory) : Dispose :=
  fun m object flags => match fieldKind flags with
    | .byref => releaseByref m object
    | .block => release m object
    | .object => .ok (m.call (.releaseObject object))
    | .byrefCaller => .ok m
    | .other => .ok m

def objectDispose : Nat → Dispose
  | 0 => fun _ _ _ => .error .outOfFuel
  | fuel + 1 => blockObjectDispose (blockRelease (objectDispose fuel)) (byrefRelease (objectDispose fuel))

def blockTryRetain (m : Memory) (arg : Addr) : Except Fault (Bool × Memory) := do
  let aBlock ← m.block arg
  let (flags, retained) := apply .incrNotDeallocating aBlock.flags
  .ok (retained == .truth true, m.set arg (.block { aBlock with flags := flags }))

def blockIsDeallocating (m : Memory) (arg : Addr) : Except Fault Bool := do
  let aBlock ← m.block arg
  .ok (aBlock.flags &&& blockDeallocating ≠ 0)

end BlockRuntime
