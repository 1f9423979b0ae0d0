import Mathlib.Data.List.Nodup
import IOSStudy.TicketSale
import IOSStudy.AtomicObjects

/-!
# The demos that sell under one lock

The lock owns the counter and the log. At rest both are determined by the
list of calls that have entered; inside a critical section the holder's
program counter says how far they are ahead of or behind that list.
-/
namespace TicketDemos

open Transition Locks TicketSale

def PthreadMutexDemo.ticketRun : Method := ⟨.lock, .defaultLock, .oldTicketsCount⟩
def NSLockDemo.ticketTest : Method := ⟨.lock, .lock, .ticketCount⟩
def OsUnfairLockDemo.ticketTest : Method := ⟨.lock, .defaultLock, .ticketCount⟩
def OsUnfairLockDemo.ticketTest1 : Method := ⟨.trylock, .defaultLock, .ticketCount⟩
def SerialQueueDemo.ticketTest : Method := ⟨.sync, .queue, .ticketCount⟩

inductive Demo where
  | pthreadMutexDemo | nsLockDemo | osUnfairLockDemo | serialQueueDemo
  deriving DecidableEq, Repr

def Demo.methods : Demo → List Method
  | .pthreadMutexDemo => [PthreadMutexDemo.ticketRun]
  | .nsLockDemo => [NSLockDemo.ticketTest]
  | .osUnfairLockDemo => [OsUnfairLockDemo.ticketTest, OsUnfairLockDemo.ticketTest1]
  | .serialQueueDemo => [SerialQueueDemo.ticketTest]

def Demo.lock : Demo → LockName
  | .pthreadMutexDemo => .defaultLock
  | .nsLockDemo => .lock
  | .osUnfairLockDemo => .defaultLock
  | .serialQueueDemo => .queue

theorem Demo.methods_lock (d : Demo) : ∀ m ∈ d.methods, m.lock = d.lock := by
  cases d <;> decide

variable {τ : Type*}

/-- The log that sells the tickets one by one to the callers in this order. -/
def receipts (initial : Int) (callers : List τ) : List (τ × Int) :=
  callers.mapIdx fun i t => (t, initial - (i + 1))

theorem receipts_append (initial : Int) (callers : List τ) (t : τ) :
    receipts initial (callers ++ [t]) =
      receipts initial callers ++ [(t, initial - (callers.length + 1))] := by
  simp [receipts, List.mapIdx_append]

@[simp] theorem receipts_length (initial : Int) (callers : List τ) :
    (receipts initial callers).length = callers.length := by simp [receipts]

/-- No remaining number is printed twice. -/
theorem receipts_nodup (initial : Int) (callers : List τ) :
    ((receipts initial callers).map Prod.snd).Nodup := by
  have h : (receipts initial callers).map Prod.snd =
      (List.range callers.length).map fun i : Nat => initial - ((i : Int) + 1) := by
    apply List.ext_getElem <;> simp [receipts]
  rw [h]
  refine List.nodup_range.map fun i j hij => ?_
  have hij : initial - ((i : Int) + 1) = initial - ((j : Int) + 1) := hij
  omega

variable [DecidableEq τ]

/-- The counter and the log while nobody is inside. -/
def Settled (initial : Int) (s : State τ) : Prop :=
  s.ticketCount = initial - s.entered.length ∧ s.printed = receipts initial s.entered

/-- The counter and the log while thread t is inside: the sales of the callers
before t are complete, its own is half done. -/
def InSale (initial : Int) (s : State τ) (t : τ) : Thread → Prop
  | .read _ => ∃ before, s.entered = before ++ [t] ∧
      s.ticketCount = initial - before.length ∧ s.printed = receipts initial before
  | .write _ oldTicketsCount => ∃ before, s.entered = before ++ [t] ∧
      oldTicketsCount = initial - before.length ∧ s.printed = receipts initial before
  | .log _ oldTicketsCount => ∃ before, s.entered = before ++ [t] ∧
      oldTicketsCount = initial - (before.length + 1) ∧ s.ticketCount = oldTicketsCount ∧
      s.printed = receipts initial before
  | .release _ => Settled initial s
  | .idle | .submit _ | .acquire _ => True

structure Orderly (l : LockName) (initial : Int) (s : State τ) : Prop where
  uses : ∀ t, UsesOnly l (s.thread t)
  guarded : Guarded (s.mutex l) (Thread.holds l) s.thread (Settled initial s) (InSale initial s)

theorem orderly_initial (l : LockName) (initial : Int) :
    Orderly l initial (initialState initial : State τ) where
  uses _ := trivial
  guarded := by
    refine ⟨.free fun t => rfl, fun _ => ⟨?_, rfl⟩, fun t ht => ?_⟩
    · simp [initialState]
    · simp [initialState] at ht

/-- One step of any thread keeps the books in order. -/
theorem orderly_step {methods : List Method} {l : LockName} (hm : ∀ m ∈ methods, m.lock = l)
    {initial : Int} {s s' : State τ} {a : Action τ} (hi : Orderly l initial s)
    (h : Fires methods s a s') : Orderly l initial s' := by
  obtain ⟨hu, hg⟩ := hi
  have hcall : ∀ t m, a = .call t m → m.lock = l := by
    rintro t m rfl
    cases h with
    | call _ hmem => exact hm m hmem
  refine ⟨uses_step hu hcall h, ?_⟩
  cases h with
  | @call t m ht _ =>
    refine hg.outside ?_ ?_ id fun _ _ h => h
    · simp [ht]
    · simp
  | @submit t m ht =>
    refine hg.outside ?_ ?_ id fun _ _ h => h
    · simp [ht]
    · simp
  | @enter t m mutex ht _ hlock | @enterSync t m mutex ht _ _ hlock =>
    have hl : m.lock = l := by simpa [ht, UsesOnly] using hu t
    subst hl
    simp only [State.enter, Function.update_self]
    refine hg.acquire hlock ?_ ?_ fun hs => ?_
    · simp [ht]
    · simp
    · exact ⟨s.entered, rfl, hs⟩
  | @giveUp t m ht _ _ =>
    refine hg.outside ?_ ?_ id fun _ _ h => h
    · simp [ht]
    · simp
  | @read t m ht =>
    have hl : m.lock = l := by simpa [ht, UsesOnly] using hu t
    refine hg.inside ?_ ?_ ?_
    · simp [ht, hl]
    · simp [ht]
    · rw [ht]
      exact fun h => h
  | @write t m old ht =>
    have hl : m.lock = l := by simpa [ht, UsesOnly] using hu t
    refine hg.inside ?_ ?_ ?_
    · simp [ht, hl]
    · simp [ht]
    · rw [ht]
      rintro ⟨before, he, ho, hp⟩
      exact ⟨before, he, by omega, rfl, hp⟩
  | @log t m old value ht hv =>
    have hl : m.lock = l := by simpa [ht, UsesOnly] using hu t
    refine hg.inside ?_ ?_ ?_
    · simp [ht, hl]
    · simp [ht]
    · rw [ht]
      rintro ⟨before, he, ho, hc, hp⟩
      have hvalue : value = initial - (before.length + 1) := by
        rcases hv with hv | hv
        · rw [hv, ho]
        · rw [hv, hc, ho]
      refine ⟨?_, ?_⟩
      · change s.ticketCount = initial - (s.entered.length : Nat)
        rw [he, hc, ho]
        simp
      · change s.printed ++ [(t, value)] = receipts initial s.entered
        rw [he, receipts_append, hp, hvalue]
  | @release t m mutex ht hlock =>
    have hl : m.lock = l := by simpa [ht, UsesOnly] using hu t
    subst hl
    simp only [State.goto, Function.update_self]
    refine hg.release hlock ?_ ?_ ?_
    · simp [ht]
    · simp
    · rw [ht]
      exact fun h => h

theorem reachable_orderly {methods : List Method} {l : LockName} (hm : ∀ m ∈ methods, m.lock = l)
    {initial : Int} {s : State τ} (h : (system methods initial).Reachable s) :
    Orderly l initial s :=
  h.invariant (orderly_initial l initial) fun _ _ _ hi hs => orderly_step hm hi (system_fires hs)

/-- With nobody inside, every sale is in the counter and in the log. -/
theorem Orderly.settled {l : LockName} {initial : Int} {s : State τ} (h : Orderly l initial s)
    (hn : ∀ t, (s.thread t).inside = none) : Settled initial s := by
  apply h.guarded.free
  rw [h.guarded.tracks.eq_free_iff]
  intro t
  simp [Thread.holds, hn t]

/-- At any time the log is the beginning of the log that the entered calls will leave. -/
theorem Orderly.printed_prefix {l : LockName} {initial : Int} {s : State τ}
    (h : Orderly l initial s) : s.printed <+: receipts initial s.entered := by
  rcases h.guarded.rest_or_held with ⟨_, hs⟩ | ⟨t, ht, hq⟩
  · exact hs.2 ▸ List.prefix_rfl
  · have happend : ∀ before : List τ, s.entered = before ++ [t] →
        s.printed = receipts initial before → s.printed <+: receipts initial s.entered := by
      intro before he hp
      rw [he, receipts_append, hp]
      exact List.prefix_append _ _
    cases hx : s.thread t with
    | read m => rw [hx] at hq; obtain ⟨before, he, _, hp⟩ := hq; exact happend before he hp
    | write m old => rw [hx] at hq; obtain ⟨before, he, _, hp⟩ := hq; exact happend before he hp
    | log m old => rw [hx] at hq; obtain ⟨before, he, _, _, hp⟩ := hq; exact happend before he hp
    | release m => rw [hx] at hq; exact hq.2 ▸ List.prefix_rfl
    | idle => simp [hx] at ht
    | submit m => simp [hx] at ht
    | acquire m => simp [hx] at ht

/-- A failed trylock ends the call and changes nothing else. -/
theorem trylock_fails (methods : List Method) {s : State τ} {t : τ} {m : Method}
    (ht : s.thread t = .acquire m) (hm : m.acquire = .trylock) (hl : s.mutex m.lock ≠ .free) :
    step methods s (.run t) = some (s.goto t .idle) := by
  cases hx : s.mutex m.lock with
  | free => exact absurd hx hl
  | held u n => simp [step, runStep, acquireStep, ht, hm, hx, Mutex.lock]

/-- `@synchronized (self)` takes the recursive lock of the object; no call of
this method takes it twice. -/
def SyncDemo.ticketTest : Method := ⟨.lock, .lock, .ticketCount⟩

theorem synchronized_settled {initial : Int} {s : State τ}
    (h : (system [SyncDemo.ticketTest] initial).Reachable s)
    (hn : ∀ t, (s.thread t).inside = none) : Settled initial s := by
  have hlock : ∀ m ∈ [SyncDemo.ticketTest], m.lock = .lock := by decide
  exact (reachable_orderly hlock h).settled hn

/-- The log of a demo is that of a counter whose sales take one step each. -/
def sellerSimulation (d : Demo) (initial : Int) :
    Simulation (system d.methods initial : System (State τ) (Action τ))
      (AtomicObjects.seller τ initial) where
  rel s sales := Orderly d.lock initial s ∧ s.printed = sales
  start := ⟨orderly_initial d.lock initial, rfl⟩
  step := by
    rintro s sales a s' ⟨hi, rfl⟩ hs
    have hf := system_fires hs
    have hi' := orderly_step d.methods_lock hi hf
    cases hf with
    | @log t m old value ht hv =>
      have hl : m.lock = d.lock := by simpa [ht, UsesOnly] using hi.uses t
      have hsale := hi.guarded.held t (by simp [ht, hl])
      rw [ht] at hsale
      obtain ⟨before, _, hold, hcount, hprinted⟩ := hsale
      have hvalue : value = initial - (s.printed.length + 1) := by
        rw [hprinted, receipts_length]
        rcases hv with hv | hv
        · rw [hv, hold]
        · rw [hv, hcount, hold]
      exact ⟨[t], _, rfl, hi', by rw [← hvalue]⟩
    | call _ _ | submit _ | enter _ _ _ | enterSync _ _ _ _ | giveUp _ _ _ | read _ | write _ | release _ _ =>
      exact ⟨[], _, rfl, hi', rfl⟩

/-- The k-th line of the log prints the number that the k-th sale leaves. -/
theorem printed_in_turn (d : Demo) {initial : Int} {s : State τ}
    (h : (system d.methods initial).Reachable s) :
    ∀ (k : Nat) (p : τ × Int), s.printed[k]? = some p → p.2 = initial - (k + 1) := by
  obtain ⟨sales, hsales, _, rfl⟩ := (sellerSimulation d initial).reachable h
  exact AtomicObjects.seller_numbers hsales

/-- No sale is lost in any of the single-lock demos. -/
theorem no_lost_sale (d : Demo) (initial : Int) {s : State τ}
    (h : (system d.methods initial).Reachable s) :
    ((∀ t, (s.thread t).inside = none) →
      s.ticketCount = initial - s.entered.length ∧ s.printed = receipts initial s.entered) ∧
    s.printed <+: receipts initial s.entered ∧
    (s.printed.map Prod.snd).Nodup ∧
    ∀ t m, s.thread t = .acquire m → m.acquire = .trylock → s.mutex m.lock ≠ .free →
      ∃ s', step d.methods s (.run t) = some s' ∧ s'.thread t = .idle ∧
        s'.ticketCount = s.ticketCount ∧ s'.printed = s.printed ∧ s'.entered = s.entered := by
  have ho := reachable_orderly d.methods_lock h
  refine ⟨ho.settled, ho.printed_prefix, ?_, ?_⟩
  · exact (ho.printed_prefix.map Prod.snd).sublist.nodup (receipts_nodup initial s.entered)
  · intro t m ht hm hl
    exact ⟨_, trylock_fails d.methods ht hm hl, by simp, rfl, rfl, rfl⟩

/-- Two threads of OsUnfairLockDemo: the second one's trylock fails at first. -/
def contendedSchedule : List (Action Bool) :=
  [.call false OsUnfairLockDemo.ticketTest, .run false, .call true OsUnfairLockDemo.ticketTest1,
    .run false, .run true, .run false, .run false, .run false, .call true OsUnfairLockDemo.ticketTest1,
    .run true, .run true, .run true, .run true, .run true]

/-- Two threads of SerialQueueDemo: both submit before the first block runs. -/
def queuedSchedule : List (Action Bool) :=
  [.call false SerialQueueDemo.ticketTest, .call true SerialQueueDemo.ticketTest, .run true, .run false,
    .run true, .run true, .run true, .run true, .run true, .run false, .run false, .run false, .run false,
    .run false]

theorem no_lost_sale_contended : (∃ s : State Bool,
    (system Demo.osUnfairLockDemo.methods 15).Reachable s ∧ s.entered = [false, true] ∧
      s.ticketCount = 13 ∧ s.printed = [(false, 14), (true, 13)]) ∧
    ∃ s : State Bool, (system Demo.serialQueueDemo.methods 15).Reachable s ∧ s.entered = [true, false] ∧
      s.ticketCount = 13 ∧ s.printed = [(true, 14), (false, 13)] := by
  constructor
  · have hrun : ((system Demo.osUnfairLockDemo.methods 15).exec (initialState 15)
        contendedSchedule).any (fun s => decide (s.entered = [false, true] ∧
          (s.thread false).inside = none ∧ (s.thread true).inside = none)) = true := by decide
    obtain ⟨s, hr, hp⟩ := System.exists_of_exec hrun
    obtain ⟨he, hf, ht⟩ := of_decide_eq_true hp
    obtain ⟨hc, hprinted⟩ := (no_lost_sale .osUnfairLockDemo 15 hr).1 (Bool.forall_bool.mpr ⟨hf, ht⟩)
    exact ⟨s, hr, he, by simpa [he] using hc, by simpa [he, receipts] using hprinted⟩
  · have hrun : ((system Demo.serialQueueDemo.methods 15).exec (initialState 15)
        queuedSchedule).any (fun s => decide (s.entered = [true, false] ∧
          (s.thread false).inside = none ∧ (s.thread true).inside = none)) = true := by decide
    obtain ⟨s, hr, hp⟩ := System.exists_of_exec hrun
    obtain ⟨he, hf, ht⟩ := of_decide_eq_true hp
    obtain ⟨hc, hprinted⟩ := (no_lost_sale .serialQueueDemo 15 hr).1 (Bool.forall_bool.mpr ⟨hf, ht⟩)
    exact ⟨s, hr, he, by simpa [he] using hc, by simpa [he, receipts] using hprinted⟩

end TicketDemos
