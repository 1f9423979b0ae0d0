import IOSStudy.Transition
import IOSStudy.BarrierQueue
import Mathlib.Data.List.Forall2

/-!
# The multi-reader single-writer property of RwQueueDemo

The setter submits a barrier and does not wait; the getter submits an
ordinary block and waits for it. What the getter reads is therefore always
the last assignment. The first loop of `testRwLock` reads the instance
variable itself, around the queue.
-/
namespace RwQueueDemo

open Transition BarrierQueue

/-- The blocks that the two loops of `testRwLock` submit to the main queue. -/
inductive MainBlock where
  | setAndLog (i : Nat)
  | readAndLog
  deriving DecidableEq, Repr

def testRwLock (iterations : Nat) : List MainBlock :=
  (List.range iterations).map .setAndLog ++ List.replicate iterations .readAndLog

/-- `stringWithFormat:@"这个是在设置字符串：%d"` -/
def title (i : Nat) : String := "这个是在设置字符串：" ++ toString i

/-- The blocks that the accessors submit to `rwqueue`. -/
inductive RwBlock where
  | setDataString (dataString : String)
  | dataString
  deriving DecidableEq, Repr

/-- The formats `打印---%@`, of the instance variable, and `打印---读取%@`, of the getter. -/
inductive Format where
  | ivar | getter
  deriving DecidableEq, Repr

structure Line where
  format : Format
  value : Option String
  deriving DecidableEq, Repr

/-- Where the main thread is in its current block. -/
inductive Main where
  | idle
  | setDataString (i : Nat)
  | readIvar
  | getDataString
  | dispatchSync
  | log (line : Line)
  deriving DecidableEq, Repr

/-- `toSubmit` are the blocks that `testRwLock` has still to hand to the main
queue; `str` is the `__block` variable of the getter. -/
structure State where
  toSubmit : List MainBlock
  mainQueue : List MainBlock
  main : Main
  rwqueue : Queue RwBlock
  dataString : Option String
  str : Option String
  log : List Line

inductive Action where
  | submit
  | next
  | main
  | rwqueue (i : Nat)
  deriving DecidableEq, Repr

def MainBlock.begin : MainBlock → Main
  | .setAndLog i => .setDataString i
  | .readAndLog => .getDataString

def Item.isRead (x : Item RwBlock) : Bool := decide (x.body = .dataString)

def mainStep (s : State) : Option State :=
  match s.main with
  | .idle => none
  | .setDataString i =>
      some { s with main := .readIvar, rwqueue := s.rwqueue.submit true (.setDataString (title i)) }
  | .readIvar => some { s with main := .log ⟨.ivar, s.dataString⟩ }
  | .getDataString =>
      some { s with main := .dispatchSync, str := none, rwqueue := s.rwqueue.submit false .dataString }
  -- The main thread waits for its own block, the only read there is.
  | .dispatchSync => if s.rwqueue.items.any Item.isRead then none else
      some { s with main := .log ⟨.getter, s.str⟩ }
  | .log line => some { s with main := .idle, log := s.log ++ [line] }

/-- The body of a block runs when the block goes on from executing. -/
def runBody (x : Item RwBlock) (s : State) : State :=
  match x.phase, x.body with
  | .executing, .setDataString d => { s with dataString := some d }
  | .executing, .dataString => { s with str := s.dataString }
  | _, _ => s

def step (s : State) : Action → Option State
  | .submit => match s.toSubmit with
    | [] => none
    | b :: bs => some { s with toSubmit := bs, mainQueue := s.mainQueue ++ [b] }
  | .next => match s.main, s.mainQueue with
    | .idle, b :: bs => some { s with main := b.begin, mainQueue := bs }
    | _, _ => none
  | .main => mainStep s
  | .rwqueue i => (s.rwqueue.advance i).map fun (x, q) => { runBody x s with rwqueue := q }

def initialState (iterations : Nat) : State where
  toSubmit := testRwLock iterations
  mainQueue := []
  main := .idle
  rwqueue := .empty
  dataString := none
  str := none
  log := []

def system (iterations : Nat) : System State Action := ⟨initialState iterations, step⟩

/-- What the blocks log when they run one after the other on a plain variable. -/
def sequentialLog : Option String → List MainBlock → List Line
  | _, [] => []
  | _, .setAndLog i :: bs => ⟨.ivar, some (title i)⟩ :: sequentialLog (some (title i)) bs
  | v, .readAndLog :: bs => ⟨.getter, v⟩ :: sequentialLog v bs

/-- A write block is executing or pending. -/
def WriteOutstanding (s : State) : Prop :=
  ∃ x ∈ s.rwqueue.items, ∃ d, x.body = .setDataString d

/-- The step reads `_dataString`, directly or in the block of the getter. -/
def Reads (s : State) : Action → Prop
  | .main => s.main = .readIvar
  | .rwqueue i => ∃ x ∈ s.rwqueue.items[i]?, x.phase = .executing ∧ x.body = .dataString
  | .submit | .next => False

def ReadsApart (s : State) (a : Action) : Prop := Reads s a → ¬ WriteOutstanding s

/-- No read meets a write, and what is logged is the last assignment. -/
structure Sound (iterations : Nat) (h : List (State × Action)) (s : State) : Prop where
  apart : System.Meets ReadsApart h
  logged : s.log <+: sequentialLog none (testRwLock iterations)

/-- The main thread reads the instance variable only after `rwqueue` has run dry. -/
def DrainedAtIvar (s : State) (a : Action) : Prop :=
  a = .main → s.main = .readIvar → s.rwqueue.items = []

/-- Everything a step can do, guards included. -/
inductive Fires (s : State) : Action → State → Prop where
  | submit {b : MainBlock} {bs : List MainBlock} (hb : s.toSubmit = b :: bs) :
      Fires s .submit { s with toSubmit := bs, mainQueue := s.mainQueue ++ [b] }
  | next {b : MainBlock} {bs : List MainBlock} (hm : s.main = .idle) (hb : s.mainQueue = b :: bs) :
      Fires s .next { s with main := b.begin, mainQueue := bs }
  | setDataString {i : Nat} (hm : s.main = .setDataString i) :
      Fires s .main
        { s with main := .readIvar, rwqueue := s.rwqueue.submit true (.setDataString (title i)) }
  | readIvar (hm : s.main = .readIvar) :
      Fires s .main { s with main := .log ⟨.ivar, s.dataString⟩ }
  | getDataString (hm : s.main = .getDataString) :
      Fires s .main
        { s with main := .dispatchSync, str := none, rwqueue := s.rwqueue.submit false .dataString }
  | dispatchSync (hm : s.main = .dispatchSync) (hr : ∀ x ∈ s.rwqueue.items, x.body ≠ .dataString) :
      Fires s .main { s with main := .log ⟨.getter, s.str⟩ }
  | log {line : Line} (hm : s.main = .log line) :
      Fires s .main { s with main := .idle, log := s.log ++ [line] }
  | start {i : Nat} {x : Item RwBlock} {q : Queue RwBlock} (hq : s.rwqueue.advance i = some (x, q))
      (hx : x.phase = .queued) : Fires s (.rwqueue i) { s with rwqueue := q }
  | write {i : Nat} {x : Item RwBlock} {q : Queue RwBlock} {d : String}
      (hq : s.rwqueue.advance i = some (x, q)) (hx : x.phase = .executing)
      (hd : x.body = .setDataString d) :
      Fires s (.rwqueue i) { s with rwqueue := q, dataString := some d }
  | read {i : Nat} {x : Item RwBlock} {q : Queue RwBlock} (hq : s.rwqueue.advance i = some (x, q))
      (hx : x.phase = .executing) (hd : x.body = .dataString) :
      Fires s (.rwqueue i) { s with rwqueue := q, str := s.dataString }
  | finish {i : Nat} {x : Item RwBlock} {q : Queue RwBlock} (hq : s.rwqueue.advance i = some (x, q))
      (hx : x.phase = .executed) : Fires s (.rwqueue i) { s with rwqueue := q }

theorem main_fires {s s' : State} (h : mainStep s = some s') : Fires s .main s' := by
  simp only [mainStep] at h
  cases hm : s.main with
  | idle => simp [hm] at h
  | setDataString i => simp only [hm, Option.some.injEq] at h; subst h; exact .setDataString hm
  | readIvar => simp only [hm, Option.some.injEq] at h; subst h; exact .readIvar hm
  | getDataString => simp only [hm, Option.some.injEq] at h; subst h; exact .getDataString hm
  | dispatchSync =>
    simp only [hm, Option.ite_none_left_eq_some, Option.some.injEq] at h
    obtain ⟨hr, rfl⟩ := h
    refine .dispatchSync hm fun x hx hd => hr ?_
    exact List.any_eq_true.mpr ⟨x, hx, decide_eq_true hd⟩
  | log line => simp only [hm, Option.some.injEq] at h; subst h; exact .log hm

theorem rwqueue_fires {s s' : State} {i : Nat} (h : step s (.rwqueue i) = some s') :
    Fires s (.rwqueue i) s' := by
  simp only [step, Option.map_eq_some_iff] at h
  obtain ⟨⟨x, q⟩, hq, rfl⟩ := h
  cases hx : x.phase with
  | queued => simp only [runBody, hx]; exact .start hq hx
  | executing =>
    cases hd : x.body with
    | setDataString d => simp only [runBody, hx, hd]; exact .write hq hx hd
    | dataString => simp only [runBody, hx, hd]; exact .read hq hx hd
  | executed => simp only [runBody, hx]; exact .finish hq hx

theorem system_fires {iterations : Nat} {s s' : State} {a : Action}
    (h : (system iterations).step s a = some s') : Fires s a s' := by
  cases a with
  | submit =>
    simp only [system, step] at h
    cases hb : s.toSubmit with
    | nil => simp [hb] at h
    | cons b bs => simp only [hb, Option.some.injEq] at h; subst h; exact .submit hb
  | next =>
    simp only [system, step] at h
    cases hm : s.main with
    | idle =>
      cases hb : s.mainQueue with
      | nil => simp [hm, hb] at h
      | cons b bs => simp only [hm, hb, Option.some.injEq] at h; subst h; exact .next hm hb
    | _ => simp [hm] at h
  | main => exact main_fires h
  | rwqueue i => exact rwqueue_fires h

/-- The kinds of blocks on `rwqueue`; a read is there only while the main thread
waits for it, and nothing is submitted after it meanwhile. -/
structure Synced (s : State) : Prop where
  kinds : ∀ x ∈ s.rwqueue.items, x.barrier = true ∧ (∃ d, x.body = .setDataString d) ∨
    x.body = .dataString ∧ s.main = .dispatchSync
  reads_last : s.rwqueue.items.Pairwise fun x _ => x.body ≠ .dataString
  executed : ∀ x ∈ s.rwqueue.items, x.phase = .executed →
    (∀ d, x.body = .setDataString d → s.dataString = some d) ∧
    (x.body = .dataString → s.str = s.dataString)
  returned : s.main = .dispatchSync → (∀ x ∈ s.rwqueue.items, x.body ≠ .dataString) →
    s.rwqueue.items = [] ∧ s.str = s.dataString

theorem Synced.writes {s : State} (h : Synced s) (hm : s.main ≠ .dispatchSync) :
    ∀ x ∈ s.rwqueue.items, x.barrier = true ∧ ∃ d, x.body = .setDataString d := by
  intro x hx
  rcases h.kinds x hx with hw | ⟨_, hsync⟩
  · exact hw
  · exact absurd hsync hm

theorem Synced.no_reads {s : State} (h : Synced s) (hm : s.main ≠ .dispatchSync) :
    ∀ x ∈ s.rwqueue.items, x.body ≠ .dataString := by
  intro x hx hd
  obtain ⟨_, d, hw⟩ := h.writes hm x hx
  simp [hw] at hd

/-- A block that has started is the first one, and those after it have not started. -/
theorem Synced.started_first {s : State} {before after : List (Item RwBlock)} {x : Item RwBlock}
    (h : Synced s) (hq : s.rwqueue.items = before ++ x :: after) (hx : x.phase ≠ .queued) :
    before = [] ∧ ∀ y ∈ after, y.phase = .queued := by
  obtain ⟨_, hrest, hcross⟩ := List.pairwise_append.mp (hq ▸ h.reads_last)
  rcases h.kinds x (by simp [hq]) with ⟨hb, _⟩ | ⟨hread, _⟩
  · exact Queue.barrier_alone hq hx hb
  · constructor
    · apply List.eq_nil_iff_forall_not_mem.mpr
      intro z hz
      have hfree := Queue.started_after_barriers hq hx z hz
      rcases h.kinds z (by simp [hq, hz]) with ⟨hb, _⟩ | ⟨hzread, _⟩
      · simp [hb] at hfree
      · exact hcross z hz x (by simp) hzread
    · intro y hy
      exact absurd hread ((List.pairwise_cons.mp hrest).1 y hy)

theorem Synced.read_alone {s : State} {before after : List (Item RwBlock)} {x : Item RwBlock}
    (h : Synced s) (hq : s.rwqueue.items = before ++ x :: after) (hx : x.phase ≠ .queued)
    (hread : x.body = .dataString) : s.rwqueue.items = [x] := by
  obtain ⟨_, hrest, _⟩ := List.pairwise_append.mp (hq ▸ h.reads_last)
  have hbefore := (h.started_first hq hx).1
  have hafter : after = [] := by
    apply List.eq_nil_iff_forall_not_mem.mpr
    intro y hy
    exact (List.pairwise_cons.mp hrest).1 y hy hread
  rw [hq, hbefore, hafter]
  rfl

theorem synced_initial (iterations : Nat) : Synced (initialState iterations) where
  kinds := by simp [initialState]
  reads_last := .nil
  executed := by simp [initialState]
  returned := by simp [initialState]

/-- The part of the invariant that does not depend on what a block has done. -/
theorem Synced.advance {s : State} {i : Nat} {x : Item RwBlock} {q : Queue RwBlock} (h : Synced s)
    (hq : s.rwqueue.advance i = some (x, q)) :
    (∀ y ∈ q.items, y.barrier = true ∧ (∃ d, y.body = .setDataString d) ∨
      y.body = .dataString ∧ s.main = .dispatchSync) ∧
    q.items.Pairwise fun y _ => y.body ≠ .dataString := by
  constructor
  · intro y hy
    obtain ⟨z, hz, hbarrier, hbody⟩ := Queue.mem_advance hq hy
    rw [hbarrier, hbody]
    exact h.kinds z hz
  · obtain ⟨before, after, hitems, hnext⟩ := Queue.advance_some hq
    obtain ⟨hbefore, hrest, hcross⟩ := List.pairwise_append.mp (hitems ▸ h.reads_last)
    obtain ⟨hx, hafter⟩ := List.pairwise_cons.mp hrest
    rw [hnext]
    apply List.pairwise_append.mpr
    refine ⟨hbefore, List.pairwise_append.mpr ⟨next_pairwise _ x, hafter, ?_⟩, ?_⟩
    · intro y hy z hz
      rw [(mem_next hy).2]
      exact hx z hz
    · intro z hz y _
      exact hcross z hz x (by simp)

theorem Synced.of_main {s s' : State} (h : Synced s) (hm : s.main ≠ .dispatchSync)
    (hm' : s'.main ≠ .dispatchSync) (hq : s'.rwqueue = s.rwqueue)
    (hd : s'.dataString = s.dataString) (hs : s'.str = s.str) : Synced s' where
  kinds := by
    intro x hx
    exact .inl (h.writes hm x (hq ▸ hx))
  reads_last := hq ▸ h.reads_last
  executed := by rw [hq, hd, hs]; exact h.executed
  returned := fun hsync => absurd hsync hm'

/-- A submission waits behind everything that is there. -/
theorem Synced.submit_pairwise {s : State} (h : Synced s) (hm : s.main ≠ .dispatchSync)
    (x : Item RwBlock) : (s.rwqueue.items ++ [x]).Pairwise fun y _ => y.body ≠ .dataString := by
  apply List.pairwise_append.mpr
  refine ⟨h.reads_last, List.pairwise_singleton _ _, ?_⟩
  intro y hy _ _
  exact h.no_reads hm y hy

/-- Right after a block has run, no other one is past its body. -/
theorem Synced.executed_body {s : State} {i : Nat} {x y : Item RwBlock} {q : Queue RwBlock}
    (h : Synced s) (hq : s.rwqueue.advance i = some (x, q)) (hx : x.phase = .executing)
    (hy : y ∈ q.items) (hp : y.phase = .executed) : y.body = x.body := by
  obtain ⟨before, after, hitems, hnext⟩ := Queue.advance_some hq
  obtain ⟨rfl, hafter⟩ := h.started_first hitems (by simp [hx])
  simp only [Item.next, hx] at hnext
  simp only [hnext, List.nil_append, List.mem_append, List.mem_singleton] at hy
  rcases hy with hy | hy
  · rw [hy]
  · simp [hafter y hy] at hp

/-- While the main thread waits, its block stays until it has been executed. -/
theorem Synced.waits {s : State} {i : Nat} {x : Item RwBlock} {q : Queue RwBlock}
    {P : Prop} (h : Synced s) (hq : s.rwqueue.advance i = some (x, q)) (hx : x.phase ≠ .executed)
    (hm : s.main = .dispatchSync) (hreads : ∀ y ∈ q.items, y.body ≠ .dataString) : P := by
  obtain ⟨before, after, hitems, _⟩ := Queue.advance_some hq
  have hempty := (h.returned hm (by
    intro z hz hread
    obtain ⟨y, hy, hbody⟩ := Queue.mem_of_advance hq hx hz
    exact hreads y hy (hbody.trans hread))).1
  simp [hitems] at hempty

theorem synced_step {s s' : State} {a : Action} (h : Synced s) (hf : Fires s a s') : Synced s' := by
  cases hf with
  | submit _ => exact ⟨h.kinds, h.reads_last, h.executed, h.returned⟩
  | @next b _ hm _ => exact h.of_main (by simp [hm]) (by cases b <;> simp [MainBlock.begin]) rfl rfl rfl
  | readIvar hm => exact h.of_main (by simp [hm]) (by simp) rfl rfl rfl
  | log hm => exact h.of_main (by simp [hm]) (by simp) rfl rfl rfl
  | @setDataString i hm =>
    have hsync : s.main ≠ .dispatchSync := by simp [hm]
    refine ⟨?_, h.submit_pairwise hsync _, ?_, by simp⟩
    · intro x hx
      rcases List.mem_append.mp hx with hx | hx
      · exact .inl (h.writes hsync x hx)
      · rw [List.mem_singleton.mp hx]
        exact .inl ⟨rfl, _, rfl⟩
    · intro x hx hp
      rcases List.mem_append.mp hx with hx | hx
      · exact h.executed x hx hp
      · simp [List.mem_singleton.mp hx] at hp
  | getDataString hm =>
    have hsync : s.main ≠ .dispatchSync := by simp [hm]
    refine ⟨?_, h.submit_pairwise hsync _, ?_, ?_⟩
    · intro x hx
      rcases List.mem_append.mp hx with hx | hx
      · exact .inl (h.writes hsync x hx)
      · rw [List.mem_singleton.mp hx]
        exact .inr ⟨rfl, rfl⟩
    · intro x hx hp
      rcases List.mem_append.mp hx with hx | hx
      · exact ⟨(h.executed x hx hp).1, fun hread => absurd hread (h.no_reads hsync x hx)⟩
      · simp [List.mem_singleton.mp hx] at hp
    · intro _ hreads
      exact absurd rfl (hreads ⟨false, .queued, .dataString⟩ (by simp))
  | dispatchSync hm hreads =>
    obtain ⟨hempty, _⟩ := h.returned hm hreads
    exact ⟨by simp [hempty], hempty ▸ .nil, by simp [hempty], by simp⟩
  | @start i x q hq hx =>
    obtain ⟨hkinds, hlast⟩ := h.advance hq
    refine ⟨hkinds, hlast, ?_, h.waits hq (by simp [hx])⟩
    obtain ⟨before, after, hitems, hnext⟩ := Queue.advance_some hq
    simp only [Item.next, hx] at hnext
    intro y hy hp
    simp only [hnext, List.mem_append, List.mem_singleton] at hy
    rcases hy with hy | hy | hy
    · exact h.executed y (by simp [hitems, hy]) hp
    · simp [hy] at hp
    · exact h.executed y (by simp [hitems, hy]) hp
  | write hq hx hd =>
    obtain ⟨hkinds, hlast⟩ := h.advance hq
    refine ⟨hkinds, hlast, ?_, h.waits hq (by simp [hx])⟩
    intro y hy hp
    have hbody := h.executed_body hq hx hy hp
    simp [hbody, hd]
  | read hq hx hd =>
    obtain ⟨hkinds, hlast⟩ := h.advance hq
    refine ⟨hkinds, hlast, ?_, h.waits hq (by simp [hx])⟩
    intro y hy hp
    have hbody := h.executed_body hq hx hy hp
    simp [hbody, hd]
  | @finish i x q hq hx =>
    obtain ⟨hkinds, hlast⟩ := h.advance hq
    obtain ⟨before, after, hitems, hnext⟩ := Queue.advance_some hq
    obtain ⟨rfl, hafter⟩ := h.started_first hitems (by simp [hx])
    simp only [Item.next, hx, List.nil_append] at hnext
    refine ⟨hkinds, hlast, ?_, ?_⟩
    · intro y hy hp
      have hy : y ∈ after := hnext ▸ hy
      simp [hafter y hy] at hp
    · intro hm hreads
      have hx' : x.body = .dataString := by
        by_contra hwrite
        have hempty := (h.returned hm (by
          intro y hy
          rw [hitems] at hy
          rcases List.mem_cons.mp hy with rfl | hy
          · exact hwrite
          · exact hreads y (hnext ▸ hy))).1
        simp [hitems] at hempty
      have halone := h.read_alone hitems (by simp [hx]) hx'
      have hnil : after = [] := by simpa [hitems] using halone
      exact ⟨hnext.trans hnil, (h.executed x (by simp [hitems]) hx).2 hx'⟩

def RwBlock.assign (v : Option String) : RwBlock → Option String
  | .setDataString d => some d
  | .dataString => v

/-- The last assignment: what `_dataString` is once `rwqueue` has run dry. -/
def latest (s : State) : Option String :=
  s.rwqueue.items.foldl (fun v x => x.body.assign v) s.dataString

theorem latest_empty {s : State} (h : s.rwqueue.items = []) : latest s = s.dataString := by
  simp [latest, h]

/-- The steps on `rwqueue` only carry out what was assigned before. -/
theorem latest_rwqueue {s s' : State} {i : Nat} (h : Synced s) (hf : Fires s (.rwqueue i) s') :
    latest s' = latest s := by
  cases hf with
  | @start _ x q hq hx =>
    obtain ⟨before, after, hitems, hnext⟩ := Queue.advance_some hq
    simp [latest, hitems, hnext, Item.next, hx]
  | @write _ x q d hq hx hd =>
    obtain ⟨before, after, hitems, hnext⟩ := Queue.advance_some hq
    obtain ⟨rfl, _⟩ := h.started_first hitems (by simp [hx])
    simp [latest, hitems, hnext, Item.next, hx, hd, RwBlock.assign]
  | @read _ x q hq hx hd =>
    obtain ⟨before, after, hitems, hnext⟩ := Queue.advance_some hq
    simp [latest, hitems, hnext, Item.next, hx]
  | @finish _ x q hq hx =>
    obtain ⟨before, after, hitems, hnext⟩ := Queue.advance_some hq
    obtain ⟨rfl, _⟩ := h.started_first hitems (by simp [hx])
    have hassigned : x.body.assign s.dataString = s.dataString := by
      cases hd : x.body with
      | setDataString d => exact ((h.executed x (by simp [hitems]) hx).1 d hd).symm
      | dataString => rfl
    simp [latest, hitems, hnext, Item.next, hx, hassigned]

/-- A line against the line of the sequential order: those of the getter have
the right value, in strict mode those of the instance variable too. -/
structure Agrees (strict : Prop) (l d : Line) : Prop where
  format : l.format = d.format
  value : strict ∨ l.format = .getter → l.value = d.value

def remaining (s : State) : List MainBlock := s.mainQueue ++ s.toSubmit

/-- The sequential log from here on, with every assignment carried out. -/
def toLog (s : State) : List Line :=
  match s.main with
  | .idle => sequentialLog (latest s) (remaining s)
  | .setDataString i => sequentialLog (latest s) (.setAndLog i :: remaining s)
  | .readIvar => ⟨.ivar, latest s⟩ :: sequentialLog (latest s) (remaining s)
  | .getDataString | .dispatchSync => ⟨.getter, latest s⟩ :: sequentialLog (latest s) (remaining s)
  | .log line => ⟨line.format, latest s⟩ :: sequentialLog (latest s) (remaining s)

structure Follows (strict : Prop) (iterations : Nat) (s : State) : Prop where
  logged : ∃ done, List.Forall₂ (Agrees strict) s.log done ∧
    sequentialLog none (testRwLock iterations) = done ++ toLog s
  line : ∀ line, s.main = .log line → Agrees strict line ⟨line.format, latest s⟩

theorem follows_initial (strict : Prop) (iterations : Nat) :
    Follows strict iterations (initialState iterations) where
  logged := ⟨[], .nil, rfl⟩
  line := by simp [initialState]

/-- A step that logs nothing and leaves the sequential log as it is. -/
theorem Follows.quiet {strict : Prop} {iterations : Nat} {s s' : State}
    (h : Follows strict iterations s) (hlog : s'.log = s.log) (hto : toLog s' = toLog s)
    (hline : ∀ line, s'.main = .log line → Agrees strict line ⟨line.format, latest s'⟩) :
    Follows strict iterations s' := by
  obtain ⟨done, hdone, heq⟩ := h.logged
  refine ⟨⟨done, ?_, ?_⟩, hline⟩
  · rw [hlog]
    exact hdone
  · rw [hto]
    exact heq

theorem follows_step {strict : Prop} {iterations : Nat} {s s' : State} {a : Action} (hs : Synced s)
    (h : Follows strict iterations s) (hc : strict → DrainedAtIvar s a) (hf : Fires s a s') :
    Follows strict iterations s' := by
  cases a with
  | rwqueue i =>
    have hlatest := latest_rwqueue hs hf
    have hquiet : s'.log = s.log ∧ s'.main = s.main ∧ remaining s' = remaining s := by
      cases hf <;> exact ⟨rfl, rfl, rfl⟩
    obtain ⟨hlog, hmain, hremaining⟩ := hquiet
    refine h.quiet hlog ?_ ?_
    · simp only [toLog, hmain, hlatest, hremaining]
    · rw [hmain, hlatest]
      exact h.line
  | submit =>
    cases hf with
    | @submit b bs hb =>
      refine h.quiet rfl ?_ h.line
      simp [toLog, remaining, latest, hb]
  | next =>
    cases hf with
    | @next b bs hm hb =>
      cases b with
      | setAndLog i =>
        refine h.quiet rfl ?_ (by simp [MainBlock.begin])
        simp [toLog, remaining, latest, hm, hb, MainBlock.begin]
      | readAndLog =>
        refine h.quiet rfl ?_ (by simp [MainBlock.begin])
        simp [toLog, remaining, latest, hm, hb, MainBlock.begin, sequentialLog]
  | main =>
    cases hf with
    | setDataString hm =>
      refine h.quiet rfl ?_ (by simp)
      simp [toLog, remaining, latest, hm, sequentialLog, RwBlock.assign]
    | readIvar hm =>
      refine h.quiet rfl ?_ ?_
      · simp [toLog, remaining, latest, hm]
      · intro line hline
        cases hline
        refine ⟨rfl, fun hstrict => ?_⟩
        rcases hstrict with hstrict | hgetter
        · exact (latest_empty (hc hstrict rfl hm)).symm
        · cases hgetter
    | getDataString hm =>
      refine h.quiet rfl ?_ (by simp)
      simp [toLog, remaining, latest, hm, RwBlock.assign]
    | dispatchSync hm hreads =>
      obtain ⟨hempty, hstr⟩ := hs.returned hm hreads
      refine h.quiet rfl ?_ ?_
      · simp [toLog, remaining, latest, hm]
      · intro line hline
        cases hline
        refine ⟨rfl, fun _ => ?_⟩
        exact hstr.trans (latest_empty hempty).symm
    | @log line hm =>
      obtain ⟨done, hdone, heq⟩ := h.logged
      refine ⟨⟨done ++ [⟨line.format, latest s⟩], ?_, ?_⟩, by simp⟩
      · exact List.rel_append hdone (.cons (h.line line hm) .nil)
      · rw [heq]
        simp [toLog, remaining, latest, hm]

/-- No condition is needed for what goes through the getter. -/
theorem run_follows {iterations : Nat} {h : List (State × Action)} {s : State}
    (r : (system iterations).Run h s) : Follows False iterations s :=
  (r.throughout (I := fun s => Synced s ∧ Follows False iterations s)
    ⟨synced_initial iterations, follows_initial False iterations⟩
    (fun _ _ _ hi hs => ⟨synced_step hi.1 (system_fires hs),
      follows_step hi.1 hi.2 False.elim (system_fires hs)⟩)).1.2

theorem run_synced {iterations : Nat} {h : List (State × Action)} {s : State}
    (r : (system iterations).Run h s) : System.Throughout Synced h s :=
  r.throughout (synced_initial iterations) fun _ _ _ hi hs => synced_step hi (system_fires hs)

/-- The block of the getter runs alone, whatever the schedule. -/
theorem getter_reads_apart {s : State} {i : Nat} (h : Synced s) (hr : Reads s (.rwqueue i)) :
    ¬ WriteOutstanding s := by
  obtain ⟨x, hx, hp, hread⟩ := hr
  have halone := h.read_alone (split_at hx) (by simp [hp]) hread
  rintro ⟨y, hy, d, hd⟩
  simp only [halone, List.mem_singleton] at hy
  simp [hy, hread] at hd

theorem Agrees.eq {strict : Prop} {l d : Line} (h : Agrees strict l d)
    (hl : strict ∨ l.format = .getter) : l = d := by
  obtain ⟨format, value⟩ := l
  obtain ⟨hformat, hvalue⟩ := h
  have hvalue := hvalue hl
  cases d
  simp_all

theorem agrees_getElem {strict : Prop} {log done : List Line} {k : Nat} {l : Line}
    (h : List.Forall₂ (Agrees strict) log done) (hl : log[k]? = some l)
    (hg : strict ∨ l.format = .getter) : done[k]? = some l := by
  induction h generalizing k with
  | nil => simp at hl
  | cons hx _ ih =>
    cases k with
    | zero =>
      simp only [List.getElem?_cons_zero, Option.some.injEq] at hl ⊢
      subst hl
      exact (hx.eq hg).symm
    | succ k => exact ih hl

/-- What the getter logs is the last assignment, for every number of
iterations and every schedule. -/
theorem getter_logs_last_assignment {iterations : Nat} {s : State}
    (h : (system iterations).Reachable s) {k : Nat} {l : Line} (hl : s.log[k]? = some l)
    (hg : l.format = .getter) : (sequentialLog none (testRwLock iterations))[k]? = some l := by
  obtain ⟨hist, r⟩ := h
  obtain ⟨done, hdone, heq⟩ := (run_follows r).logged
  have hget := agrees_getElem hdone hl (.inr hg)
  have hk : k < done.length := (List.getElem?_eq_some_iff.mp hget).1
  rw [heq, List.getElem?_append_left hk]
  exact hget

/-- The direct read comes before the write, the getter logs what is written. -/
theorem getter_logs_last_assignment_early : ∃ s, (system 1).Reachable s ∧
    s.log = [⟨.ivar, none⟩, ⟨.getter, some (title 0)⟩] ∧
    (sequentialLog none (testRwLock 1))[1]? = some ⟨.getter, some (title 0)⟩ := by
  obtain ⟨s, hs, hp⟩ := System.exists_of_exec (show ((system 1).exec (system 1).initial
    [.submit, .next, .main, .main, .main, .submit, .next, .main, .rwqueue 0, .rwqueue 0, .rwqueue 0,
      .rwqueue 0, .rwqueue 0, .rwqueue 0, .main, .main]).any
    (fun s => s.log == [⟨.ivar, none⟩, ⟨.getter, some (title 0)⟩]) = true by decide)
  have hlog : s.log = [⟨.ivar, none⟩, ⟨.getter, some (title 0)⟩] := by simpa using hp
  have hline : s.log[1]? = some ⟨.getter, some (title 0)⟩ := by rw [hlog]; rfl
  exact ⟨s, hs, hlog, getter_logs_last_assignment hs hline rfl⟩

theorem Follows.prefix_of_strict {iterations : Nat} {s : State} (h : Follows True iterations s) :
    s.log <+: sequentialLog none (testRwLock iterations) := by
  obtain ⟨done, hdone, heq⟩ := h.logged
  have hsame : s.log = done :=
    List.forall₂_eq_eq_eq ▸ hdone.imp fun _ _ hagrees => hagrees.eq (.inl trivial)
  exact ⟨toLog s, by rw [hsame, heq]⟩

theorem sound_of_drained {iterations : Nat} {h : List (State × Action)} {s : State}
    (r : (system iterations).Run h s) (hm : System.Meets DrainedAtIvar h) : Sound iterations h s where
  apart := by
    rintro ⟨s, a⟩ hp hr
    have hsynced := (run_synced r).2 _ hp
    cases a with
    | main =>
      rintro ⟨x, hx, _⟩
      rw [hm _ hp rfl hr] at hx
      cases hx
    | rwqueue i => exact getter_reads_apart hsynced hr
    | submit | next => exact hr.elim
  logged := by
    have hfollows := r.throughout_of_meets (I := fun s => Synced s ∧ Follows True iterations s)
      ⟨synced_initial iterations, follows_initial True iterations⟩
      (fun _ _ _ hi hc hs => ⟨synced_step hi.1 (system_fires hs),
        follows_step hi.1 hi.2 (fun _ => hc) (system_fires hs)⟩) hm
    exact hfollows.1.2.prefix_of_strict

/-- A run is sound exactly when the instance variable is read directly only
after `rwqueue` has run dry. -/
theorem sound_iff {iterations : Nat} {h : List (State × Action)} {s : State}
    (r : (system iterations).Run h s) : Sound iterations h s ↔ System.Meets DrainedAtIvar h := by
  refine ⟨fun hsound => ?_, sound_of_drained r⟩
  rintro ⟨s, a⟩ hp ha hm
  have hsynced := (run_synced r).2 _ hp
  apply List.eq_nil_iff_forall_not_mem.mpr
  intro x hx
  obtain ⟨_, d, hd⟩ := hsynced.writes (by simp [show s.main = .readIvar from hm]) x hx
  have hreads : Reads s a := by
    cases ha
    exact hm
  exact hsound.apart _ hp hreads ⟨x, hx, d, hd⟩

/-- The first iteration reads the instance variable with its write still pending. -/
def readEarly : List Action := [.submit, .next, .main, .main, .main]

theorem exists_early_read (iterations : Nat) :
    ∃ s, (system (iterations + 1)).Reachable s ∧ s.log = [⟨.ivar, none⟩] := by
  have hblocks : ∃ bs, testRwLock (iterations + 1) = .setAndLog 0 :: bs := by
    simp [testRwLock, List.range_succ_eq_map]
  obtain ⟨bs, hbs⟩ := hblocks
  have hexec : ∃ s, (system (iterations + 1)).exec (initialState (iterations + 1)) readEarly = some s ∧
      s.log = [⟨.ivar, none⟩] := by
    simp [readEarly, system, step, mainStep, initialState, hbs, MainBlock.begin]
  obtain ⟨s, he, hlog⟩ := hexec
  exact ⟨s, System.Reachable.start.exec he, hlog⟩

theorem early_read_unsound {iterations : Nat} {h : List (State × Action)} {s : State}
    (hlog : s.log = [⟨.ivar, none⟩]) : ¬ Sound (iterations + 1) h s := by
  intro hsound
  have hprefix := hsound.logged
  simp [hlog, testRwLock, List.range_succ_eq_map, sequentialLog] at hprefix

/-- With the 300 iterations of the source. -/
theorem early_read_logs_null : ¬ ∀ h s, (system 300).Run h s → Sound 300 h s := by
  intro hall
  obtain ⟨s, ⟨h, r⟩, hlog⟩ := exists_early_read 299
  exact early_read_unsound hlog (hall h s r)

/-- A scheduler that lets `rwqueue` run dry before the direct read. -/
def whenDrained (s : State) (a : Action) : Bool :=
  decide (a = .main → s.main = .readIvar → s.rwqueue.items.isEmpty)

theorem whenDrained_drained (s : State) (a : Action) (h : whenDrained s a = true) :
    DrainedAtIvar s a := by
  intro ha hm
  have himp := of_decide_eq_true h
  exact List.isEmpty_iff.mp (himp ha hm)

/-- One iteration to the end, both lines logged. -/
theorem sound_one_iteration : ∃ h s, (system 1).Run h s ∧ Sound 1 h s ∧ s.log.length = 2 := by
  have hrun : (((system 1).restrict whenDrained).exec (initialState 1)
      [.submit, .next, .main, .submit, .rwqueue 0, .rwqueue 0, .rwqueue 0, .main, .main,
        .next, .main, .rwqueue 0, .rwqueue 0, .rwqueue 0, .main, .main]).any
      (fun s => decide (s.log.length = 2)) = true := by decide
  obtain ⟨h, s, r, hm, hp⟩ := System.exists_run_of_exec hrun
  exact ⟨h, s, r, (sound_iff r).mpr (hm.mono whenDrained_drained), of_decide_eq_true hp⟩

end RwQueueDemo
