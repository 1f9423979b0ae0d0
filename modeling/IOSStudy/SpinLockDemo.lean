import IOSStudy.TicketSale

/-!
# OSSPinLockDemo: one counter, two locks

`ticketTest` and `ticketTest2` sell under the spin lock, `ticketTest3` under an
`NSLock`. Each lock keeps its own methods apart; nothing keeps the two groups
apart. The run rule shows that overlapping reads across the two locks are the
only way in which a sale gets lost.
-/
namespace SpinLockDemo

open Transition Locks TicketSale

def ticketTest : Method := ⟨.lock, .lock, .ticketCount⟩
def ticketTest2 : Method := ⟨.trylock, .lock, .ticketCount⟩
def ticketTest3 : Method := ⟨.trylock, .nslock, .ticketCount⟩

def methods : List Method := [ticketTest, ticketTest2, ticketTest3]

variable {τ : Type*} [DecidableEq τ]

/-- Between the read and the write of `ticketCount`. -/
def Selling : Thread → Prop
  | .write _ _ => True
  | _ => False

/-- Entered, and the decremented value not yet written. -/
def Unsold : Thread → Prop
  | .read _ | .write _ _ => True
  | _ => False

/-- The value a selling call is about to decrement is still the current one. -/
def Fresh (count : Int) : Thread → Prop
  | .write _ old => old = count
  | _ => True

/-- The two promises: sales do not overlap, and at rest none is missing. -/
def NoLostSale (initial : Int) (s : State τ) : Prop :=
  AtMostOne Selling s.thread ∧
  ((∀ t, (s.thread t).inside = none) → s.ticketCount = initial - s.entered.length)

/-- A read finds no call under another lock between its read and its write. -/
def ReadsApart (s : State τ) : Action τ → Prop
  | .call _ _ => True
  | .run t => ∀ m, s.thread t = .read m →
      ∀ u m' old, s.thread u = .write m' old → m'.lock = m.lock

structure Exact (initial : Int) (s : State τ) : Prop where
  owns : ∀ l, Tracks (s.mutex l) (Thread.holds l) s.thread
  alone : AtMostOne Selling s.thread
  fresh : ∀ t, Fresh s.ticketCount (s.thread t)
  account : ∃ unsold : Finset τ, (∀ t, t ∈ unsold ↔ Unsold (s.thread t)) ∧
    s.ticketCount = initial - s.entered.length + unsold.card

theorem exact_initial (initial : Int) : Exact initial (initialState initial : State τ) where
  owns _ := .free fun _ => rfl
  alone _ _ h := h.elim
  fresh _ := trivial
  account := ⟨∅, fun t => by simp [initialState, Unsold], by simp [initialState]⟩

/-- A thread moves without reading, writing or entering. -/
theorem Exact.quiet {initial : Int} {s : State τ} (h : Exact initial s) {t : τ} {x : Thread}
    {mutex : LockName → Mutex τ} {line : LockName → List τ} {printed : List (τ × Int)}
    (ho : ∀ l, Tracks (mutex l) (Thread.holds l) (Function.update s.thread t x))
    (hx : ¬ Unsold x) (ht : ¬ Unsold (s.thread t)) :
    Exact initial { s.goto t x with mutex := mutex, line := line, printed := printed } := by
  have hsell : ¬ Selling x := by
    intro hs
    cases x <;> simp_all [Selling, Unsold]
  obtain ⟨unsold, hu, hc⟩ := h.account
  refine ⟨ho, ?_, ?_, unsold, ?_, hc⟩
  · exact h.alone.move (fun _ _ hu => hu) fun hs => absurd hs hsell
  · exact forall_move (fun u _ => h.fresh u) (by cases x <;> simp_all [Fresh, Selling])
  · exact Collects.move hu (by simp [hx, ht])

/-- A step that meets the condition keeps every clause. -/
theorem exact_step {methods : List Method} {initial : Int} {s s' : State τ} {a : Action τ}
    (hi : Exact initial s) (hc : ReadsApart s a) (h : Fires methods s a s') :
    Exact initial s' := by
  have ho := tracks_step hi.owns h
  obtain ⟨unsold, hu, hcount⟩ := hi.account
  cases h with
  | @call t m ht _ =>
    exact hi.quiet ho (by unfold Method.begin; cases m.acquire <;> simp [Unsold]) (by simp [ht, Unsold])
  | @submit t m ht => exact hi.quiet ho (by simp [Unsold]) (by simp [ht, Unsold])
  | @giveUp t m ht _ _ => exact hi.quiet ho (by simp [Unsold]) (by simp [ht, Unsold])
  | @log t m old value ht _ => exact hi.quiet ho (by simp [Unsold]) (by simp [ht, Unsold])
  | @release t m mutex ht _ => exact hi.quiet ho (by simp [Unsold]) (by simp [ht, Unsold])
  | @enter t m mutex ht _ _ | @enterSync t m mutex ht _ _ _ =>
    have hcard := Collects.card_insert hu (show ¬ Unsold (s.thread t) by simp [ht, Unsold])
    refine ⟨ho, ?_, ?_, insert t unsold, ?_, ?_⟩
    · exact hi.alone.move (fun _ _ hu => hu) fun hs => hs.elim
    · exact forall_move (fun u _ => hi.fresh u) trivial
    · exact Collects.insert hu trivial
    · simp only [State.enter, List.length_append, List.length_singleton]
      omega
  | @read t m ht =>
    refine ⟨ho, ?_, ?_, unsold, ?_, hcount⟩
    · refine hi.alone.move (fun _ _ hu => hu) fun _ u hsell => ?_
      -- The same lock excludes u; the condition excludes every other lock.
      cases hw : s.thread u with
      | write m' old =>
        have hlock := hc m ht u m' old hw
        exact (hi.owns m.lock).exclusive (by simp [hw, hlock])
          (by simp [ht])
      | _ => simp [hw, Selling] at hsell
    · exact forall_move (fun u _ => hi.fresh u) rfl
    · exact Collects.move hu (by simp [ht, Unsold])
  | @write t m old ht =>
    have hold : old = s.ticketCount := by simpa [ht, Fresh] using hi.fresh t
    have hcard := Collects.card_erase hu (show Unsold (s.thread t) by simp [ht, Unsold])
    refine ⟨ho, ?_, ?_, unsold.erase t, ?_, ?_⟩
    · exact hi.alone.move (fun _ _ hu => hu) fun hs => hs.elim
    · refine forall_move (fun u hut => ?_) trivial
      cases hw : s.thread u with
      | write m' old' => exact absurd (hi.alone u t (by simp [hw, Selling]) (by simp [ht, Selling])) hut
      | _ => trivial
    · exact Collects.erase hu (by simp [Unsold])
    · simp only [State.goto]
      omega

theorem Exact.noLostSale {initial : Int} {s : State τ} (h : Exact initial s) :
    NoLostSale initial s := by
  refine ⟨h.alone, fun hn => ?_⟩
  obtain ⟨unsold, hu, hc⟩ := h.account
  have hempty : unsold = ∅ := by
    refine Finset.eq_empty_of_forall_notMem fun t ht => ?_
    have hun := (hu t).mp ht
    have hin := hn t
    cases hx : s.thread t <;> simp_all [Unsold, Thread.inside]
  simpa [hempty] using hc

/-- Reading beside an unfinished sale puts two calls between read and write. -/
theorem overlap_breaks {methods : List Method} {initial : Int} {s s' : State τ} {a : Action τ}
    (hc : ¬ ReadsApart s a) (h : Fires methods s a s') : ¬ NoLostSale initial s' := by
  cases a with
  | call t m => exact absurd trivial hc
  | run t =>
    simp only [ReadsApart, not_forall] at hc
    obtain ⟨m, ht, u, m', old, hw, hlock⟩ := hc
    have hut : u ≠ t := by
      rintro rfl
      simp [ht] at hw
    cases h with
    | read ht' =>
      intro hp
      refine hut (hp.1 u t ?_ ?_)
      · simp [hut, hw, Selling]
      · simp [Selling]
    | _ => simp_all

/-- No sale is lost in a run exactly when no call of it reads `ticketCount`
while a call under the other lock is between its read and its write. -/
theorem no_lost_sale_iff (initial : Int) {h : List (State τ × Action τ)} {s : State τ}
    (r : (system methods initial).Run h s) :
    System.Throughout (NoLostSale initial) h s ↔ System.Meets ReadsApart h :=
  r.throughout_iff_meets (exact_initial initial)
    (fun _ _ _ hi hc hs => exact_step hi hc (system_fires hs))
    (fun _ hi => hi.noLostSale)
    (fun _ _ _ _ hc hs => overlap_breaks hc (system_fires hs))

/-- The method of a call takes this lock. -/
def Names (l : LockName) : Action τ → Prop
  | .call _ m => m.lock = l
  | .run _ => True

/-- Calls that all name one lock, the spin lock or the other, never overlap. -/
theorem one_lock_reads_apart (l : LockName) {initial : Int} {h : List (State τ × Action τ)} {s : State τ}
    (r : (system methods initial).Run h s) (hnames : System.Meets (fun _ a => Names l a) h) :
    System.Meets ReadsApart h := by
  have hstart : ∀ t, UsesOnly l ((initialState initial : State τ).thread t) := fun _ => trivial
  have hinv := r.throughout_of_meets (I := fun s : State τ => ∀ t, UsesOnly l (s.thread t)) hstart
    (fun s a s' hi hl hs => ?_) hnames
  · rintro ⟨s, a⟩ hstep
    have huses : ∀ t, UsesOnly l (s.thread t) := hinv.2 (s, a) hstep
    change ReadsApart s a
    cases a with
    | call t m => trivial
    | run t =>
      intro m ht u m' old hw
      have hl : m.lock = l := by simpa [ht, UsesOnly] using huses t
      have hl' : m'.lock = l := by simpa [hw, UsesOnly] using huses u
      exact hl'.trans hl.symm
  · refine uses_step hi ?_ (system_fires hs)
    rintro t m rfl
    exact hl

/-- `ticketTest` enters, `ticketTest3` enters beside it, and both read 15. -/
def overlapSchedule : List (Action Bool) :=
  [.call false ticketTest, .call true ticketTest3, .run false, .run true, .run false, .run true,
    .run false, .run true, .run false, .run true, .run false, .run true]

/-- Two tickets are sold and the counter goes down by one. -/
theorem two_locks_lose_a_sale : ¬ ∀ s : State Bool,
    (system methods 15).Reachable s → NoLostSale 15 s := by
  intro hall
  have hrun : ((system methods 15).exec (initialState 15) overlapSchedule).any
      (fun s => decide (s.entered.length = 2 ∧ s.ticketCount = 14 ∧
        (s.thread false).inside = none ∧ (s.thread true).inside = none)) = true := by decide
  obtain ⟨s, hr, hp⟩ := System.exists_of_exec hrun
  obtain ⟨hentered, hcount, hf, ht⟩ := of_decide_eq_true hp
  have hsold := (hall s hr).2 (Bool.forall_bool.mpr ⟨hf, ht⟩)
  omega

/-- A scheduler for two threads that lets one read only while the other is not selling. -/
def turns (s : State Bool) : Action Bool → Bool
  | .call _ _ => true
  | .run t => match s.thread t, s.thread (!t) with
    | .read _, .write _ _ => false
    | _, _ => true

theorem turns_reads_apart (s : State Bool) (a : Action Bool) (h : turns s a = true) :
    ReadsApart s a := by
  cases a with
  | call t m => trivial
  | run t =>
    intro m ht u m' old hw
    have hut : u = !t := by
      cases u <;> cases t <;> simp_all
    subst hut
    simp [turns, ht, hw] at h

/-- Both locks in one run, the two sales one after the other. -/
theorem no_lost_sale_in_turns : ∃ h, ∃ s : State Bool, (system methods 15).Run h s ∧
    System.Throughout (NoLostSale 15) h s ∧ s.entered = [false, true] ∧ s.ticketCount = 13 := by
  have hrun : (((system methods 15).restrict turns).exec (initialState 15)
      [.call false ticketTest, .call true ticketTest3, .run false, .run true, .run false,
        .run false, .run true, .run true]).any
      (fun s => decide (s.entered = [false, true] ∧ s.ticketCount = 13)) = true := by decide
  obtain ⟨h, s, hr, hm, hp⟩ := System.exists_run_of_exec hrun
  obtain ⟨hentered, hcount⟩ := of_decide_eq_true hp
  exact ⟨h, s, hr, (no_lost_sale_iff 15 hr).mpr (hm.mono turns_reads_apart), hentered, hcount⟩

end SpinLockDemo
