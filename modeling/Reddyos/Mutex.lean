import Reddyos.Spinlock

/-! The mutexes of `acpi/uacpi_kernel.c`: each round of the busy-wait is one step. -/
namespace Reddyos

open Transitions

/-- `outside` keeps whether the last call got the mutex. `acquiring` counts the rounds so far. -/
inductive MutexPc where
  | outside (status : Option Bool)
  | acquiring (timeout : BitVec 16) (iterations : Nat)
  | holding
  deriving DecidableEq, Repr

/-- `callAcquire` and `round` are the steps of `uacpi_kernel_acquire_mutex`, `release` is
`uacpi_kernel_release_mutex`. -/
inductive MutexAct where
  | callAcquire (timeout : BitVec 16)
  | round
  | release
  deriving DecidableEq, Repr

/-- `__sync_bool_compare_and_swap(&mutex->locked, 0, 1)` and what is done when it fails. -/
def mutexSwap (locked : BitVec 32) (failed : MutexPc) : BitVec 32 × MutexPc :=
  match compareAndSwap locked 0#32 1#32 with
  | (true,locked) => (locked,.holding)
  | (false,locked) => (locked,failed)

def mutexRound (locked : BitVec 32) (timeout : BitVec 16) (iterations : Nat) : BitVec 32 × MutexPc :=
  if timeout = 0#16 then mutexSwap locked (.outside (some false))
  else if iterations < timeout.toNat * 1000 then mutexSwap locked (.acquiring timeout (iterations + 1))
  else (locked,.outside (some false))

def mutexAct (locked : BitVec 32) (pc : MutexPc) : MutexAct → Option (BitVec 32 × MutexPc)
  | .callAcquire timeout =>
    match pc with
    | .outside _ => some (locked,.acquiring timeout 0)
    | _ => none
  | .round =>
    match pc with
    | .acquiring timeout iterations => some (mutexRound locked timeout iterations)
    | _ => none
  | .release =>
    match pc with
    | .holding => some ((compareAndSwap locked 1#32 0#32).2,.outside (some true))
    | _ => none

/-- A call that has a round left. -/
def MutexPc.Tries : MutexPc → Prop
  | .acquiring timeout iterations => timeout = 0#16 ∨ iterations < timeout.toNat * 1000
  | _ => False

/-- The ways a step can go. A round takes the mutex, is the only one or not the last of a call that finds it
taken, or comes after the last. -/
inductive MutexMove : BitVec 32 → MutexPc → MutexAct → BitVec 32 → MutexPc → Prop where
  | call {locked : BitVec 32} {status : Option Bool} {timeout : BitVec 16} :
      MutexMove locked (.outside status) (.callAcquire timeout) locked (.acquiring timeout 0)
  | take {timeout : BitVec 16} {iterations : Nat} : (MutexPc.acquiring timeout iterations).Tries →
      MutexMove 0#32 (.acquiring timeout iterations) .round 1#32 .holding
  | refuse {locked : BitVec 32} {iterations : Nat} : locked ≠ 0#32 →
      MutexMove locked (.acquiring 0#16 iterations) .round locked (.outside (some false))
  | again {locked : BitVec 32} {timeout : BitVec 16} {iterations : Nat} : locked ≠ 0#32 →
      iterations < timeout.toNat * 1000 →
      MutexMove locked (.acquiring timeout iterations) .round locked (.acquiring timeout (iterations + 1))
  | expire {locked : BitVec 32} {timeout : BitVec 16} {iterations : Nat} : ¬(MutexPc.acquiring timeout iterations).Tries →
      MutexMove locked (.acquiring timeout iterations) .round locked (.outside (some false))
  | release {locked : BitVec 32} :
      MutexMove locked .holding .release (compareAndSwap locked 1#32 0#32).2 (.outside (some true))

def maxTries (timeout : BitVec 16) : Nat := if timeout = 0#16 then 1 else timeout.toNat * 1000

/-- The timeout of the last call that was not followed by a release, and the rounds since. -/
def callStep (call : Option (BitVec 16 × Nat)) : MutexAct → Option (BitVec 16 × Nat)
  | .callAcquire timeout => some (timeout,0)
  | .round => call.map fun (timeout,rounds) => (timeout,rounds + 1)
  | .release => none

def callOf {P : Type*} [DecidableEq P] (p : P) (events : List (P × MutexAct)) : Option (BitVec 16 × Nat) :=
  events.foldl (fun call e => if e.1 = p then callStep call e.2 else call) none

/-- What has become of a call by its rounds. A call that waits leaves its loop in a round of its own. -/
inductive AcquireOk : Option (BitVec 16 × Nat) → MutexPc → Prop where
  | idle : AcquireOk none (.outside none)
  | released : AcquireOk none (.outside (some true))
  | acquiring {timeout : BitVec 16} {rounds : Nat} : rounds ≤ timeout.toNat * 1000 →
      AcquireOk (some (timeout,rounds)) (.acquiring timeout rounds)
  | holding {timeout : BitVec 16} {rounds : Nat} : 0 < rounds → rounds ≤ maxTries timeout →
      AcquireOk (some (timeout,rounds)) .holding
  | timedOut {timeout : BitVec 16} {rounds : Nat} : rounds = (if timeout = 0#16 then 1 else maxTries timeout + 1) →
      AcquireOk (some (timeout,rounds)) (.outside (some false))

variable {P : Type*} {g next : Global P (BitVec 32) MutexPc} {e : P × MutexAct} {events : List (P × MutexAct)}
variable {pc pc' : MutexPc} {locked locked' : BitVec 32} {a : MutexAct} {p q : P}

def MutexCreated (g : Global P (BitVec 32) MutexPc) : Prop := g.shared = 0#32 ∧ ∀ p, g.own p = .outside none

theorem mutexSwap_cases (locked : BitVec 32) (failed : MutexPc) :
    locked = 0#32 ∧ mutexSwap locked failed = (1#32,.holding) ∨
      locked ≠ 0#32 ∧ mutexSwap locked failed = (locked,failed) := by
  unfold mutexSwap compareAndSwap
  by_cases zero : locked = 0#32
  · exact .inl ⟨zero,by rw [if_pos zero]⟩
  · exact .inr ⟨zero,by rw [if_neg zero]⟩

theorem mutexRound_moves (locked : BitVec 32) (timeout : BitVec 16) (iterations : Nat) :
    MutexMove locked (.acquiring timeout iterations) .round (mutexRound locked timeout iterations).1
      (mutexRound locked timeout iterations).2 := by
  unfold mutexRound
  by_cases once : timeout = 0#16
  · subst once
    rw [if_pos rfl]
    rcases mutexSwap_cases locked (.outside (some false)) with ⟨rfl,swapped⟩ | ⟨taken,swapped⟩
    · rw [swapped]
      exact .take (.inl rfl)
    · rw [swapped]
      exact .refuse taken
  · rw [if_neg once]
    by_cases left : iterations < timeout.toNat * 1000
    · rw [if_pos left]
      rcases mutexSwap_cases locked (.acquiring timeout (iterations + 1)) with ⟨rfl,swapped⟩ | ⟨taken,swapped⟩
      · rw [swapped]
        exact .take (.inr left)
      · rw [swapped]
        exact .again taken left
    · rw [if_neg left]
      exact .expire fun tries => tries.elim once left

theorem mutexAct_moves (acts : mutexAct locked pc a = some (locked',pc')) : MutexMove locked pc a locked' pc' := by
  cases a with
  | callAcquire timeout =>
    cases pc with
    | outside status =>
      obtain ⟨rfl,rfl⟩ := Prod.mk.inj (Option.some.inj acts)
      exact .call
    | acquiring timeout iterations => cases acts
    | holding => cases acts
  | round =>
    cases pc with
    | outside status => cases acts
    | acquiring timeout iterations =>
      have moves := mutexRound_moves locked timeout iterations
      rwa [Option.some.inj acts] at moves
    | holding => cases acts
  | release =>
    cases pc with
    | outside status => cases acts
    | acquiring timeout iterations => cases acts
    | holding =>
      obtain ⟨rfl,rfl⟩ := Prod.mk.inj (Option.some.inj acts)
      exact .release

structure MutexInv (g : Global P (BitVec 32) MutexPc) : Prop where
  exclusive : ∀ p q, g.own p = .holding → g.own q = .holding → p = q
  free : (∀ p, g.own p ≠ .holding) → g.shared = 0#32
  taken : ∀ p, g.own p = .holding → g.shared = 1#32

theorem MutexInv.zero_iff (inv : MutexInv g) : g.shared = 0#32 ↔ ∀ p, g.own p ≠ .holding := by
  refine ⟨fun zero p holds => ?_,inv.free⟩
  rw [inv.taken p holds] at zero
  cases zero

/-- A step that leaves the word and does not make its party a holder or take that from it. -/
theorem MutexInv.idle (inv : MutexInv g) (shared : next.shared = g.shared) (old : g.own p ≠ .holding)
    (new : next.own p ≠ .holding) (others : ∀ q, q ≠ p → next.own q = g.own q) : MutexInv next := by
  have same : ∀ q, next.own q = .holding ↔ g.own q = .holding := by
    intro q
    by_cases self : q = p
    · subst self
      exact iff_of_false new old
    · rw [others q self]
  refine ⟨fun q r left right => inv.exclusive q r ((same q).mp left) ((same r).mp right),fun nobody => ?_,fun q holds => ?_⟩
  · rw [shared]
    exact inv.free fun q holds => nobody q ((same q).mpr holds)
  · rw [shared]
    exact inv.taken q ((same q).mp holds)

theorem MutexInv.step [DecidableEq P] (inv : MutexInv g) (moves : Interleaved mutexAct g e next) : MutexInv next := by
  obtain ⟨p,a⟩ := e
  obtain ⟨word,l,acts,shared,mine,others⟩ := moves.cases
  dsimp only at acts mine others
  have move := mutexAct_moves acts
  generalize old : g.own p = before at move
  generalize found : g.shared = value at move
  cases move with
  | call => exact inv.idle (shared.trans found.symm) (by simp [old]) (by simp [mine]) others
  | take tries =>
    have nobody := inv.zero_iff.mp found
    have only : ∀ q, next.own q = .holding → q = p := by
      intro q holds
      by_contra other
      exact nobody q (others q other ▸ holds)
    exact ⟨fun q r left right => (only q left).trans (only r right).symm,fun none => absurd mine (none p),
      fun _ _ => shared⟩
  | refuse => exact inv.idle (shared.trans found.symm) (by simp [old]) (by simp [mine]) others
  | again => exact inv.idle (shared.trans found.symm) (by simp [old]) (by simp [mine]) others
  | expire => exact inv.idle (shared.trans found.symm) (by simp [old]) (by simp [mine]) others
  | release =>
    have nobody : ∀ q, next.own q ≠ .holding := by
      intro q holds
      by_cases self : q = p
      · subst self
        exact absurd (mine.symm.trans holds) (by simp)
      · exact self (inv.exclusive q p (others q self ▸ holds) old)
    have set : value = 1#32 := found.symm.trans (inv.taken p old)
    exact ⟨fun q _ left => absurd left (nobody q),fun _ => by rw [shared,set]; rfl,
      fun q holds => absurd holds (nobody q)⟩

theorem MutexMove.counts (move : MutexMove locked pc a locked' pc') (counted : AcquireOk made pc) :
    AcquireOk (callStep made a) pc' := by
  cases move with
  | call => exact .acquiring (Nat.zero_le _)
  | take tries =>
    cases counted with
    | acquiring bound =>
      refine .holding (Nat.succ_pos _) ?_
      unfold maxTries
      split
      · rename_i once
        rw [once] at bound
        exact Nat.succ_le_succ bound
      · exact tries.resolve_left ‹_›
  | refuse =>
    cases counted with
    | acquiring bound => exact .timedOut (congrArg (· + 1) (Nat.le_zero.mp bound))
  | again _ left =>
    cases counted with
    | acquiring => exact .acquiring left
  | expire spent =>
    cases counted with
    | acquiring bound =>
      obtain ⟨waits,past⟩ := not_or.mp spent
      refine .timedOut ?_
      rw [if_neg waits,maxTries,if_neg waits]
      omega
  | release => exact .released

theorem callOf_append [DecidableEq P] (p : P) (events : List (P × MutexAct)) (e : P × MutexAct) :
    callOf p (events ++ [e]) = if e.1 = p then callStep (callOf p events) e.2 else callOf p events :=
  List.foldl_append

theorem counts_step [DecidableEq P] (counted : ∀ p, AcquireOk (callOf p events) (g.own p))
    (moves : Interleaved mutexAct g e next) (p : P) : AcquireOk (callOf p (events ++ [e])) (next.own p) := by
  obtain ⟨word,l,acts,_,mine,others⟩ := moves.cases
  rw [callOf_append]
  by_cases same : e.1 = p
  · rw [if_pos same,← same,mine]
    exact (mutexAct_moves acts).counts (counted e.1)
  · rw [if_neg same,others p (Ne.symm same)]
    exact counted p

theorem MutexCreated.inv (created : MutexCreated g) : MutexInv g := by
  have nobody : ∀ p, g.own p ≠ .holding := fun p => by simp [created.2 p]
  exact ⟨fun p _ left => absurd left (nobody p),fun _ => created.1,fun p holds => absurd holds (nobody p)⟩

/-- What a round makes of a call. -/
structure RoundOk (g next : Global P (BitVec 32) MutexPc) (p : P) (timeout : BitVec 16) (rounds : Nat) : Prop where
  takes : rounds < maxTries timeout → (next.own p = .holding ↔ ∀ q, g.own q ≠ .holding)
  waits : rounds < maxTries timeout → (∃ q, g.own q = .holding) →
    next.own p = if timeout = 0#16 then .outside (some false) else .acquiring timeout (rounds + 1)
  expires : maxTries timeout ≤ rounds → next.own p = .outside (some false)

theorem tries_iff (bound : rounds ≤ timeout.toNat * 1000) :
    (MutexPc.acquiring timeout rounds).Tries ↔ rounds < maxTries timeout := by
  change timeout = 0#16 ∨ rounds < timeout.toNat * 1000 ↔ _
  unfold maxTries
  split
  · rename_i once
    rw [once] at bound
    exact iff_of_true (.inl once) (Nat.lt_succ_of_le bound)
  · exact or_iff_right ‹_›

/-- A round that is left takes the mutex exactly when nobody holds it. -/
theorem MutexInv.round [DecidableEq P] (inv : MutexInv g) (old : g.own p = .acquiring timeout rounds)
    (bound : rounds ≤ timeout.toNat * 1000) (moves : Interleaved mutexAct g (p,.round) next) :
    RoundOk g next p timeout rounds := by
  obtain ⟨word,l,acts,_,mine,_⟩ := moves.cases
  dsimp only at acts mine
  have tries := tries_iff bound
  have move := mutexAct_moves acts
  have somebody : (∃ q, g.own q = .holding) ↔ g.shared ≠ 0#32 := by
    rw [Ne,inv.zero_iff]
    simp
  rw [old] at move
  refine ⟨fun left => ?_,fun left held => ?_,fun spent => ?_⟩
  · rw [← inv.zero_iff,mine]
    generalize g.shared = value at move
    cases move with
    | take => simp
    | refuse taken => simp [taken]
    | again taken => simp [taken]
    | expire spent => exact absurd (tries.mpr left) spent
  · rw [mine]
    have taken := somebody.mp held
    generalize g.shared = value at move taken
    cases move with
    | take => exact absurd rfl taken
    | refuse => rw [if_pos rfl]
    | again _ inside =>
      rw [if_neg]
      rintro rfl
      exact absurd inside (Nat.not_lt_zero _)
    | expire spent => exact absurd (tries.mpr left) spent
  · rw [mine]
    have past := fun left => Nat.not_lt.mpr spent (tries.mp left)
    generalize g.shared = value at move
    cases move with
    | take left => exact absurd left past
    | refuse => rfl
    | again _ inside => exact absurd (.inr inside) past
    | expire => rfl

/-- The mutex excludes. A call tries the word at most as often as its timeout allows, gets the mutex in the
first of these rounds in which nobody holds it, and otherwise returns the timeout status. -/
theorem mutex_exclusive [DecidableEq P] (run : Run MutexCreated (Interleaved mutexAct) free events g) :
    (∀ p q, g.own p = .holding → g.own q = .holding → p = q) ∧ (∀ p, AcquireOk (callOf p events) (g.own p)) ∧
      ∀ p timeout rounds next, g.own p = .acquiring timeout rounds → Interleaved mutexAct g (p,.round) next →
        RoundOk g next p timeout rounds := by
  have inv : MutexInv g := run.invariant (fun _ g => MutexInv g) (fun _ created => created.inv)
    fun _ _ _ _ inv _ moves => inv.step moves
  have counted : ∀ p, AcquireOk (callOf p events) (g.own p) := by
    refine run.invariant (fun events g => ∀ p, AcquireOk (callOf p events) (g.own p)) ?_ ?_
    · intro g created p
      rw [created.2 p]
      exact .idle
    · exact fun _ _ _ _ counted _ moves => counts_step counted moves
  refine ⟨inv.exclusive,counted,fun p timeout rounds next old moves => inv.round old ?_ moves⟩
  have here := counted p
  rw [old] at here
  generalize callOf p events = made at here
  cases here with
  | acquiring bound => exact bound

/-- The second party does not get the mutex, waits, and has it when the first has given it back. -/
theorem mutex_exclusive_turns : ∃ events g,
    Run MutexCreated (Interleaved mutexAct) free events (g : Global Bool (BitVec 32) MutexPc) ∧
      callOf false events = some (1#16,2) ∧ g.own false = .holding ∧ ∀ p, g.own p = .holding → p = false := by
  let events : List (Bool × MutexAct) := [(true,.callAcquire 0#16),(true,.round),(false,.callAcquire 0#16),(false,.round),
    (false,.callAcquire 1#16),(false,.round),(true,.release),(false,.round)]
  have evaluated : ((⟨0#32,fun _ => .outside none⟩ : Global Bool (BitVec 32) MutexPc).takeAll mutexAct free events).any
      fun g => g.own false = .holding := by
    decide
  obtain ⟨g,taken,held⟩ := (Option.any_eq_true _ _).mp evaluated
  have run : Run MutexCreated (Interleaved mutexAct) free events g := .takeAll ⟨rfl,fun _ => rfl⟩ taken
  have held := of_decide_eq_true held
  exact ⟨events,g,run,by decide,held,fun p holds => (mutex_exclusive run).1 p false holds held⟩

end Reddyos
