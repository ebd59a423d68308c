import Reddyos.Spinlock

/-! The events of `acpi/uacpi_kernel.c`: a load of the counter is one step, and so is each of
the two atomic updates. -/
namespace Reddyos

open Transitions

def maxIterations (timeout : BitVec 16) : Nat :=
  if timeout = 0xFFFF#16 then 0xFFFFFFFFFFFFFFFF else timeout.toNat * 1000

/-- `outside` keeps what the last wait returned. A wait is `taking` between its test of the
counter and its decrement. -/
inductive WaitPc where
  | outside (result : Option Bool)
  | testing (iterations limit : Nat)
  | taking
  deriving DecidableEq, Repr

/-- `callWait`, `test` and `take` are the steps of `uacpi_kernel_wait_for_event`; `signal` is
`uacpi_kernel_signal_event`. -/
inductive EventAct where
  | callWait (timeout : BitVec 16)
  | test
  | take
  | signal
  deriving DecidableEq, Repr

def eventAct (counter : BitVec 32) (pc : WaitPc) : EventAct → Option (BitVec 32 × WaitPc)
  | .callWait timeout =>
    match pc with
    | .outside _ => some (counter,.testing 0 (maxIterations timeout))
    | _ => none
  | .test =>
    match pc with
    | .testing iterations limit =>
      if iterations < limit then
        if 0 < counter.toInt then some (counter,.taking) else some (counter,.testing (iterations + 1) limit)
      else some (counter,.outside (some false))
    | _ => none
  | .take =>
    match pc with
    | .taking => some (counter - 1#32,.outside (some true))
    | _ => none
  | .signal =>
    match pc with
    | .outside result => some (counter + 1#32,.outside result)
    | _ => none

variable {P : Type*} {g next : Global P (BitVec 32) WaitPc} {e : P × EventAct}
variable {events : List (P × EventAct)} {pc pc' : WaitPc} {counter counter' : BitVec 32}

def granted (events : List (P × EventAct)) : Nat := events.countP fun e => e.2 = .take

def signalled (events : List (P × EventAct)) : Nat := events.countP fun e => e.2 = .signal

def EventCreated (g : Global P (BitVec 32) WaitPc) : Prop := g.shared = 0#32 ∧ ∀ p, g.own p = .outside none

/-- No signal is counted twice. -/
def SignalsCounted (events : List (P × EventAct)) (g : Global P (BitVec 32) WaitPc) : Prop :=
  granted events ≤ signalled events ∧ 0 ≤ g.shared.toInt

/-- A decrement finds a signal left, and an increment room for it. -/
def Covered (g : Global P (BitVec 32) WaitPc) (e : P × EventAct) : Prop :=
  (e.2 = .take → 0 < g.shared.toInt) ∧ (e.2 = .signal → g.shared.toInt < 2^31 - 1)

theorem eventAct_cases (acts : eventAct counter pc a = some (counter',pc')) :
    (a = .take ∧ counter' = counter - 1#32) ∨ (a = .signal ∧ counter' = counter + 1#32) ∨
      (a ≠ .take ∧ a ≠ .signal ∧ counter' = counter) := by
  cases a with
  | callWait timeout =>
    cases pc with
    | outside result =>
      obtain ⟨rfl,_⟩ := Prod.mk.inj (Option.some.inj acts)
      exact .inr (.inr ⟨nofun,nofun,rfl⟩)
    | testing iterations limit => cases acts
    | taking => cases acts
  | test =>
    refine .inr (.inr ⟨nofun,nofun,?_⟩)
    cases pc with
    | outside result => cases acts
    | testing iterations limit =>
      simp only [eventAct] at acts
      split at acts
      · split at acts
        all_goals exact (Prod.mk.inj (Option.some.inj acts)).1.symm
      · exact (Prod.mk.inj (Option.some.inj acts)).1.symm
    | taking => cases acts
  | take =>
    cases pc with
    | outside result => cases acts
    | testing iterations limit => cases acts
    | taking => exact .inl ⟨rfl,(Prod.mk.inj (Option.some.inj acts)).1.symm⟩
  | signal =>
    cases pc with
    | outside result => exact .inr (.inl ⟨rfl,(Prod.mk.inj (Option.some.inj acts)).1.symm⟩)
    | testing iterations limit => cases acts
    | taking => cases acts

theorem toInt_sub_one (word : BitVec 32) :
    (word - 1#32).toInt = if word.toInt = -2^31 then 2^31 - 1 else word.toInt - 1 := by
  have range : (word - 1#32).toInt = _ := BitVec.toInt_sub
  have low := BitVec.le_toInt word
  have high := BitVec.toInt_lt (x := word)
  rw [range]
  simp only [Int.bmod,show (1#32).toInt = 1 from rfl]
  split <;> split <;> omega

theorem toInt_add_one (word : BitVec 32) :
    (word + 1#32).toInt = if word.toInt = 2^31 - 1 then -2^31 else word.toInt + 1 := by
  have range := BitVec.toInt_add word 1#32
  have low := BitVec.le_toInt word
  have high := BitVec.toInt_lt (x := word)
  rw [range]
  simp only [Int.bmod,show (1#32).toInt = 1 from rfl]
  split <;> split <;> omega

/-- The counter is the number of signals that no wait has taken. -/
def CounterInv (events : List (P × EventAct)) (g : Global P (BitVec 32) WaitPc) : Prop :=
  g.shared.toInt + granted events = signalled events ∧ 0 ≤ g.shared.toInt

theorem CounterInv.counted (inv : CounterInv events g) : SignalsCounted events g := by
  obtain ⟨sum,positive⟩ := inv
  exact ⟨by omega,positive⟩

/-- The condition is met by exactly the steps that keep the count. -/
theorem CounterInv.step [DecidableEq P] (inv : CounterInv events g) (moves : Interleaved eventAct g e next) :
    (SignalsCounted (events ++ [e]) next ↔ Covered g e) ∧ (Covered g e → CounterInv (events ++ [e]) next) := by
  obtain ⟨p,a⟩ := e
  obtain ⟨sum,positive⟩ := inv
  obtain ⟨word,pc,acts,shared,_⟩ := moves.cases
  have high := BitVec.toInt_lt (x := g.shared)
  dsimp only at acts
  subst shared
  simp only [SignalsCounted,CounterInv,Covered,granted,signalled,List.countP_append,List.countP_singleton] at sum ⊢
  rcases eventAct_cases acts with ⟨rfl,counter⟩ | ⟨rfl,counter⟩ | ⟨noTake,noSignal,counter⟩
  · rw [counter,toInt_sub_one]
    simp only [decide_true,reduceCtorEq,decide_false,Bool.false_eq_true,if_true,if_false,forall_const,
      IsEmpty.forall_iff,and_true]
    split <;> omega
  · rw [counter,toInt_add_one]
    simp only [decide_true,reduceCtorEq,decide_false,Bool.false_eq_true,if_true,if_false,forall_const,
      IsEmpty.forall_iff,true_and]
    split <;> omega
  · rw [counter]
    simp only [noTake,noSignal,decide_false,Bool.false_eq_true,if_false,IsEmpty.forall_iff,and_self,iff_true,
      forall_const]
    omega

theorem EventCreated.inv (created : EventCreated g) : CounterInv [] g := by
  unfold CounterInv
  rw [created.1]
  exact ⟨rfl,Int.le_refl 0⟩

/-- Signals are counted as long as no decrement comes too late, when other waits have taken what
its own wait has seen, and the counter does not run over. The first such step breaks the count. -/
theorem event_signals [DecidableEq P] (run : Run EventCreated (Interleaved eventAct) Covered events g) :
    SignalsCounted events g ∧
      ∀ e next, Interleaved eventAct g e next → (SignalsCounted (events ++ [e]) next ↔ Covered g e) := by
  have inv : CounterInv events g := run.invariant CounterInv (fun _ created => created.inv)
    fun _ _ _ _ inv covered moves => (inv.step moves).2 covered
  exact ⟨inv.counted,fun _ _ moves => (inv.step moves).1⟩

instance (g : Global P (BitVec 32) WaitPc) (e : P × EventAct) : Decidable (Covered g e) :=
  inferInstanceAs (Decidable ((_ → _) ∧ (_ → _)))

def newEvent : Global Bool (BitVec 32) WaitPc := ⟨0#32,fun _ => .outside none⟩

/-- Two waits that both test the counter before either decrements it. -/
theorem event_signal_twice : ∃ events g,
    Run EventCreated (Interleaved eventAct) free events (g : Global Bool (BitVec 32) WaitPc) ∧
      signalled events = 1 ∧ granted events = 2 ∧ g.shared.toInt = -1 := by
  let events : List (Bool × EventAct) := [(true,.signal),(true,.callWait 1#16),(false,.callWait 1#16),(true,.test),
    (false,.test),(true,.take),(false,.take)]
  have evaluated : (newEvent.takeAll eventAct free events).any fun g => g.shared.toInt = -1 := by decide
  obtain ⟨g,taken,negative⟩ := (Option.any_eq_true _ _).mp evaluated
  exact ⟨events,g,.takeAll ⟨rfl,fun _ => rfl⟩ taken,rfl,rfl,of_decide_eq_true negative⟩

/-- A signal and one wait for it. -/
theorem event_signals_once : ∃ events g,
    Run EventCreated (Interleaved eventAct) Covered events (g : Global Bool (BitVec 32) WaitPc) ∧
      granted events = 1 ∧ SignalsCounted events g := by
  let events : List (Bool × EventAct) := [(false,.callWait 1#16),(false,.test),(true,.signal),(false,.test),(false,.take)]
  have evaluated : (newEvent.takeAll eventAct Covered events).any fun _ => true := by decide
  obtain ⟨g,taken,_⟩ := (Option.any_eq_true _ _).mp evaluated
  have run : Run EventCreated (Interleaved eventAct) Covered events g := .takeAll ⟨rfl,fun _ => rfl⟩ taken
  exact ⟨events,g,run,rfl,(event_signals run).1⟩

end Reddyos
