import Reddyos.Pmm
import Reddyos.Transitions

/-! The spinlock of `acpi/uacpi_kernel.c`: every compare-and-swap is one step, and any number
of parties take their steps in any order. -/
namespace Reddyos

open Transitions

/-- `__sync_bool_compare_and_swap`, with the new value of the word. -/
def compareAndSwap (word expected new : BitVec 32) : Bool × BitVec 32 :=
  if word = expected then (true,new) else (false,word)

def interruptFlag : U64 := 0x200#64

/-- The flags before, and those after `cli`. -/
def uacpiKernelDisableInterrupts (rflags : U64) : U64 × U64 := (rflags,rflags &&& ~~~interruptFlag)

def uacpiKernelRestoreInterrupts (state rflags : U64) : U64 :=
  if state &&& interruptFlag ≠ 0#64 then rflags ||| interruptFlag else rflags

/-- Where a party stands. `holding` is from the return of its lock call to the
compare-and-swap of its unlock call. -/
inductive LockPc where
  | outside
  | spinning (flags : U64)
  | holding (flags : U64)
  | restoring (flags : U64)
  deriving DecidableEq, Repr

structure LockParty where
  rflags : U64
  pc : LockPc
  deriving DecidableEq, Repr

/-- `callLock` and `swap` are the steps of `uacpi_kernel_lock_spinlock`, `unlock` and `restore`
those of `uacpi_kernel_unlock_spinlock`. -/
inductive LockAct where
  | callLock
  | swap
  | unlock (flags : U64)
  | restore
  deriving DecidableEq, Repr

def lockAct (locked : BitVec 32) (party : LockParty) : LockAct → Option (BitVec 32 × LockParty)
  | .callLock =>
    match party.pc with
    | .outside =>
      let (flags,rflags) := uacpiKernelDisableInterrupts party.rflags
      some (locked,⟨rflags,.spinning flags⟩)
    | _ => none
  | .swap =>
    match party.pc with
    | .spinning flags =>
      -- the loop goes on when the swap has succeeded
      match compareAndSwap locked 0#32 1#32 with
      | (true,locked) => some (locked,party)
      | (false,locked) => some (locked,{ party with pc := .holding flags })
    | _ => none
  | .unlock flags =>
    match party.pc with
    | .holding _ => some ((compareAndSwap locked 1#32 0#32).2,{ party with pc := .restoring flags })
    | _ => none
  | .restore =>
    match party.pc with
    | .restoring flags => some (locked,⟨uacpiKernelRestoreInterrupts flags party.rflags,.outside⟩)
    | _ => none

variable {P : Type*} {g next : Global P (BitVec 32) LockParty} {e : P × LockAct}
variable {events : List (P × LockAct)} {party next' : LockParty} {locked locked' : BitVec 32}

def LockParty.Holds (party : LockParty) : Prop := ∃ flags, party.pc = .holding flags

/-- A new lock that nobody has called yet. -/
def LockCreated (g : Global P (BitVec 32) LockParty) : Prop := g.shared = 0#32 ∧ ∀ p, (g.own p).pc = .outside

def Exclusive (g : Global P (BitVec 32) LockParty) : Prop := ∀ p q, (g.own p).Holds → (g.own q).Holds → p = q

/-- No lock call tries the word while another party holds the lock. -/
def Uncontended (g : Global P (BitVec 32) LockParty) (e : P × LockAct) : Prop :=
  e.2 = .swap → ∀ q, q ≠ e.1 → ¬(g.own q).Holds

theorem lockAct_cases (acts : lockAct locked party a = some (locked',next')) :
    (locked' = locked ∧ ¬next'.Holds ∧ ¬party.Holds ∧ a ≠ .swap) ∨
      (a = .swap ∧ locked = 0#32 ∧ locked' = 1#32 ∧ ¬next'.Holds) ∨
      (a = .swap ∧ locked ≠ 0#32 ∧ locked' = locked ∧ next'.Holds) ∨
      (a ≠ .swap ∧ party.Holds ∧ ¬next'.Holds) := by
  obtain ⟨rflags,pc⟩ := party
  cases a with
  | callLock =>
    cases pc with
    | outside =>
      obtain ⟨rfl,rfl⟩ := Prod.mk.inj (Option.some.inj acts)
      exact .inl ⟨rfl,by simp [LockParty.Holds],by simp [LockParty.Holds],by simp⟩
    | spinning flags => cases acts
    | holding flags => cases acts
    | restoring flags => cases acts
  | swap =>
    cases pc with
    | outside => cases acts
    | spinning flags =>
      by_cases zero : locked = 0#32
      · simp only [lockAct,compareAndSwap,zero,if_true,Option.some.injEq,Prod.mk.injEq] at acts
        obtain ⟨rfl,rfl⟩ := acts
        exact .inr (.inl ⟨rfl,zero,rfl,by simp [LockParty.Holds]⟩)
      · simp only [lockAct,compareAndSwap,zero,if_false,Option.some.injEq,Prod.mk.injEq] at acts
        obtain ⟨rfl,rfl⟩ := acts
        exact .inr (.inr (.inl ⟨rfl,zero,rfl,flags,rfl⟩))
    | holding flags => cases acts
    | restoring flags => cases acts
  | unlock flags =>
    cases pc with
    | outside => cases acts
    | spinning flags' => cases acts
    | holding flags' =>
      obtain ⟨rfl,rfl⟩ := Prod.mk.inj (Option.some.inj acts)
      exact .inr (.inr (.inr ⟨by simp,⟨flags',rfl⟩,by simp [LockParty.Holds]⟩))
    | restoring flags' => cases acts
  | restore =>
    cases pc with
    | outside => cases acts
    | spinning flags => cases acts
    | holding flags => cases acts
    | restoring flags =>
      obtain ⟨rfl,rfl⟩ := Prod.mk.inj (Option.some.inj acts)
      exact .inl ⟨rfl,by simp [LockParty.Holds],by simp [LockParty.Holds],by simp⟩

/-- Somebody who holds the lock finds its word set. -/
structure LockInv (g : Global P (BitVec 32) LockParty) : Prop where
  exclusive : Exclusive g
  taken : ∀ p, (g.own p).Holds → g.shared ≠ 0#32

/-- The condition is met by exactly the steps that keep the lock exclusive. -/
theorem LockInv.step [DecidableEq P] (inv : LockInv g) (moves : Interleaved lockAct g e next) :
    (Exclusive next ↔ Uncontended g e) ∧ (Uncontended g e → LockInv next) := by
  obtain ⟨p,a⟩ := e
  obtain ⟨word,l,acts,shared,mine,others⟩ := moves.cases
  dsimp only at acts mine others
  subst mine
  have other : ∀ q, q ≠ p → ((next.own q).Holds ↔ (g.own q).Holds) := by
    intro q different
    rw [others q different]
  suffices held : (a ≠ .swap → LockInv next) ∧ (a = .swap → (∀ q, q ≠ p → ¬(g.own q).Holds) → LockInv next) ∧
      (a = .swap → ∀ q, q ≠ p → (g.own q).Holds → (next.own p).Holds) by
    obtain ⟨calm,alone,clash⟩ := held
    by_cases swaps : a = .swap
    · refine ⟨⟨fun exclusive _ q different holds => ?_,fun quiet => (alone swaps (quiet swaps)).exclusive⟩,
        fun quiet => alone swaps (quiet swaps)⟩
      exact different (exclusive q p ((other q different).mpr holds) (clash swaps q different holds))
    · exact ⟨⟨fun _ swap => absurd swap swaps,fun _ => (calm swaps).exclusive⟩,fun _ => calm swaps⟩
  rcases lockAct_cases acts with ⟨same,idle,_,calm⟩ | ⟨swap,zero,_,idle⟩ | ⟨swap,set,same,holds⟩ | ⟨calm,held,idle⟩
  · have back : ∀ q, (next.own q).Holds → (g.own q).Holds := by
      intro q holds
      by_cases self : q = p
      · exact absurd (self ▸ holds) idle
      · exact (other q self).mp holds
    refine ⟨fun _ => ⟨fun q r left right => inv.exclusive q r (back q left) (back r right),fun q holds => ?_⟩,
      fun swap => absurd swap calm,fun swap => absurd swap calm⟩
    rw [shared,same]
    exact inv.taken q (back q holds)
  · refine ⟨fun calm => absurd swap calm,fun _ alone => ?_,fun _ q _ holds => absurd zero (inv.taken q holds)⟩
    have nobody : ∀ q, ¬(next.own q).Holds := by
      intro q holds
      by_cases self : q = p
      · exact idle (self ▸ holds)
      · exact alone q self ((other q self).mp holds)
    exact ⟨fun q _ left => absurd left (nobody q),fun q holds => absurd holds (nobody q)⟩
  · refine ⟨fun calm => absurd swap calm,fun _ alone => ?_,fun _ _ _ _ => holds⟩
    have only : ∀ q, (next.own q).Holds → q = p := by
      intro q holds
      by_contra different
      exact alone q different ((other q different).mp holds)
    refine ⟨fun q r left right => (only q left).trans (only r right).symm,fun _ _ => ?_⟩
    rw [shared,same]
    exact set
  · have nobody : ∀ q, ¬(next.own q).Holds := by
      intro q holds
      by_cases self : q = p
      · exact idle (self ▸ holds)
      · exact self (inv.exclusive q p ((other q self).mp holds) held)
    exact ⟨fun _ => ⟨fun q _ left => absurd left (nobody q),fun q holds => absurd holds (nobody q)⟩,
      fun swap => absurd swap calm,fun swap => absurd swap calm⟩

theorem LockCreated.inv (created : LockCreated g) : LockInv g := by
  have nobody : ∀ p, ¬(g.own p).Holds := by
    rintro p ⟨flags,holds⟩
    rw [created.2 p] at holds
    cases holds
  exact ⟨fun p _ left => absurd left (nobody p),fun p holds => absurd holds (nobody p)⟩

/-- The lock excludes as long as it is free whenever it is tried: a call that finds the word set
takes the lock. The first step that is contended breaks it. -/
theorem spinlock_exclusive [DecidableEq P] (run : Run LockCreated (Interleaved lockAct) Uncontended events g) :
    Exclusive g ∧ ∀ e next, Interleaved lockAct g e next → (Exclusive next ↔ Uncontended g e) := by
  have inv : LockInv g := run.invariant (fun _ g => LockInv g) (fun _ created => created.inv)
    fun _ _ _ _ inv quiet moves => (inv.step moves).2 quiet
  exact ⟨inv.exclusive,fun _ _ moves => (inv.step moves).1⟩

instance (party : LockParty) : Decidable party.Holds :=
  match pc : party.pc with
  | .holding flags => isTrue ⟨flags,pc⟩
  | .outside => isFalse fun ⟨_,holds⟩ => by rw [pc] at holds; cases holds
  | .spinning _ => isFalse fun ⟨_,holds⟩ => by rw [pc] at holds; cases holds
  | .restoring _ => isFalse fun ⟨_,holds⟩ => by rw [pc] at holds; cases holds

instance (g : Global Bool (BitVec 32) LockParty) (e : Bool × LockAct) : Decidable (Uncontended g e) :=
  inferInstanceAs (Decidable (_ → ∀ q, q ≠ e.1 → ¬(g.own q).Holds))

def newLock : Global Bool (BitVec 32) LockParty := ⟨0#32,fun _ => ⟨0x202#64,.outside⟩⟩

/-- Both lock before either unlocks. -/
theorem spinlock_shared : ∃ events g,
    Run LockCreated (Interleaved lockAct) free events (g : Global Bool (BitVec 32) LockParty) ∧ ¬Exclusive g := by
  let events : List (Bool × LockAct) := [(true,.callLock),(true,.swap),(true,.swap),(false,.callLock),(false,.swap)]
  have evaluated : (newLock.takeAll lockAct free events).any fun g => (g.own true).Holds ∧ (g.own false).Holds := by
    decide
  obtain ⟨g,taken,held⟩ := (Option.any_eq_true _ _).mp evaluated
  obtain ⟨first,second⟩ := of_decide_eq_true held
  exact ⟨events,g,.takeAll ⟨rfl,fun _ => rfl⟩ taken,fun exclusive => absurd (exclusive _ _ first second) (by decide)⟩

/-- One after the other. -/
theorem spinlock_exclusive_turns : ∃ events g,
    Run LockCreated (Interleaved lockAct) Uncontended events (g : Global Bool (BitVec 32) LockParty) ∧
      (g.own false).Holds ∧ Exclusive g := by
  let events : List (Bool × LockAct) := [(true,.callLock),(true,.swap),(true,.swap),(true,.unlock 0x202#64),
    (true,.restore),(false,.callLock),(false,.swap),(false,.swap)]
  have evaluated : (newLock.takeAll lockAct Uncontended events).any fun g => (g.own false).Holds := by decide
  obtain ⟨g,taken,held⟩ := (Option.any_eq_true _ _).mp evaluated
  have run : Run LockCreated (Interleaved lockAct) Uncontended events g := .takeAll ⟨rfl,fun _ => rfl⟩ taken
  exact ⟨events,g,run,of_decide_eq_true held,(spinlock_exclusive run).1⟩

end Reddyos
