import Mathlib.Data.List.Chain
import Reddyos.Pmm
import Reddyos.Transitions
import Reddyos.WrapCounter

/-! The ACPI PM timer of `time/clocks/pm_timer.c` and `acpi/fadt.c`: a counter of 24 or 32 bits that
`pm_timer_read` extends to 64. -/
namespace Reddyos

open Transitions WrapCounter

/-- The fields of `struct acpi_fadt` that the timer is set up from. -/
structure Fadt where
  xPmTmrBlkAddress : U64
  pmTmrBlk : BitVec 32
  flags : BitVec 32
  deriving DecidableEq, Repr

/-- The address is kept in 32 bits. -/
def getPmTimerAddress : Option Fadt → BitVec 32
  | none => 0#32
  | some fadt => if fadt.xPmTmrBlkAddress ≠ 0#64 then fadt.xPmTmrBlkAddress.setWidth 32 else fadt.pmTmrBlk

def fadtIs32bit : Option Fadt → Bool
  | none => false
  | some fadt => fadt.flags &&& (1#32 <<< 8) ≠ 0#32

structure PmTimer where
  port : BitVec 16
  is32bit : Bool
  deriving DecidableEq, Repr

/-- What `pm_timer_init` sets up before it registers the clock; without an address there is no timer. -/
def pmTimerSetup (fadt : Option Fadt) : Option PmTimer :=
  if getPmTimerAddress fadt = 0#32 then none
  else some ⟨(getPmTimerAddress fadt).setWidth 16,fadtIs32bit fadt⟩

structure PmStatics where
  accumulated : U64
  last : BitVec 32
  deriving DecidableEq, Repr

def PmTimer.mask (timer : PmTimer) : BitVec 32 := if timer.is32bit then 0xFFFFFFFF#32 else 0x00FFFFFF#32

def pmDelta (timer : PmTimer) (current last : BitVec 32) : BitVec 32 := (current - last) &&& timer.mask

def pmTimerRead (timer : PmTimer) (inl : BitVec 16 → BitVec 32) (s : PmStatics) : U64 × PmStatics :=
  let current := inl timer.port
  let accumulated := s.accumulated + (pmDelta timer current s.last).setWidth 64
  (accumulated,⟨accumulated,current⟩)

/-- Bit 8 of the flags announces a counter of 32 bits. -/
def Fadt.timerWidth (fadt : Fadt) : Nat := if fadt.flags.getLsbD 8 then 32 else 24

/-- A call of `pm_timer_read` when the timer has made `ticks` ticks. -/
structure PmRead where
  ticks : Nat
  inl : BitVec 16 → BitVec 32
  returned : U64

structure PmClock where
  statics : PmStatics
  now : Nat

def PmStart (s : PmClock) : Prop := s = ⟨⟨0#64,0#32⟩,0⟩

/-- The port shows the low `w` bits of the ticks, and anything above. -/
structure PmStep (timer : PmTimer) (w : Nat) (s : PmClock) (e : PmRead) (next : PmClock) : Prop where
  forward : s.now ≤ e.ticks
  fits : e.ticks < 2^64
  shows : (e.inl timer.port).toNat % 2^w = e.ticks % 2^w
  reads : pmTimerRead timer e.inl s.statics = (e.returned,next.statics)
  now : next.now = e.ticks

/-- The first read comes before the counter went round, and so does every later one, counted from the
read before. -/
def InTime (w : Nat) (reads : List PmRead) : Prop :=
  (0 :: reads.map PmRead.ticks).IsChain fun before after => after < before + 2^w

instance (w : Nat) (reads : List PmRead) : Decidable (InTime w reads) :=
  inferInstanceAs (Decidable (List.IsChain _ _))

variable {timer : PmTimer} {fadt : Fadt} {w : Nat} {reads : List PmRead} {s next : PmClock} {e : PmRead}

theorem fadtIs32bit_eq (fadt : Fadt) : fadtIs32bit (some fadt) = fadt.flags.getLsbD 8 := by
  have bit : (1#32 <<< 8 : BitVec 32) = BitVec.twoPow 32 8 := by decide
  simp only [fadtIs32bit]
  rw [bit,BitVec.and_twoPow]
  cases fadt.flags.getLsbD 8 <;> decide

theorem pmTimerSetup_mask (sets : pmTimerSetup (some fadt) = some timer) : timer.mask.toNat = 2^fadt.timerWidth - 1 := by
  unfold pmTimerSetup at sets
  split at sets
  · cases sets
  obtain rfl := Option.some.inj sets
  unfold PmTimer.mask Fadt.timerWidth
  dsimp only
  rw [fadtIs32bit_eq]
  split <;> rfl

theorem Fadt.timerWidth_le (fadt : Fadt) : fadt.timerWidth ≤ 32 := by
  unfold Fadt.timerWidth
  split <;> decide

/-- The masked difference of two readings is how far the counter moved: bits above its width, in either
reading, do not matter. -/
theorem pmDelta_moved (mask : timer.mask.toNat = 2^w - 1) (bound : w ≤ 32) (current last : BitVec 32) :
    Moved (2^w) last.toNat current.toNat (pmDelta timer current last).toNat := by
  have value : (pmDelta timer current last).toNat = (current - last).toNat % 2^w := by
    rw [pmDelta,BitVec.toNat_and,mask,Nat.and_two_pow_sub_one_eq_mod]
  have whole : (last + (current - last)).toNat = current.toNat := by
    rw [BitVec.add_comm,BitVec.sub_add_cancel]
  refine ⟨value ▸ Nat.mod_lt _ (Nat.two_pow_pos w),?_⟩
  rw [value,Nat.add_mod_mod,← whole,BitVec.toNat_add]
  exact (Nat.mod_mod_of_dvd _ (Nat.pow_dvd_pow 2 bound)).symm

structure PmInv (w : Nat) (reads : List PmRead) (s : PmClock) : Prop where
  tracks : Tracks (2^w) s.statics.accumulated.toNat s.now
  seen : s.statics.last.toNat % 2^w = s.now % 2^w
  ended : (0 :: reads.map PmRead.ticks).getLast? = some s.now
  returned : ∀ e ∈ reads, e.returned ≤ s.statics.accumulated
  ascending : reads.Pairwise fun a b => a.returned ≤ b.returned
  congruent : ∀ e ∈ reads, e.returned.toNat % 2^w = e.ticks % 2^w
  exact' : InTime w reads → s.statics.accumulated.toNat = s.now
  exacts : ∀ earlier e, earlier ++ [e] <+: reads → InTime w (earlier ++ [e]) → e.returned.toNat = e.ticks

theorem PmStart.inv (starts : PmStart s) : PmInv w [] s := by
  obtain rfl := starts
  exact ⟨tracks_zero _,rfl,rfl,nofun,.nil,nofun,fun _ => rfl,fun earlier e whole => by simp at whole⟩

structure PmReads (w : Nat) (s : PmClock) (e : PmRead) (next : PmClock) : Prop where
  returned : next.statics.accumulated = e.returned
  tracks : Tracks (2^w) e.returned.toNat e.ticks
  seen : next.statics.last.toNat % 2^w = e.ticks % 2^w
  later : s.statics.accumulated ≤ e.returned
  exact' : s.statics.accumulated.toNat = s.now → e.ticks < s.now + 2^w → e.returned.toNat = e.ticks

theorem PmStep.spec (mask : timer.mask.toNat = 2^w - 1) (bound : w ≤ 32)
    (tracks : Tracks (2^w) s.statics.accumulated.toNat s.now) (seen : s.statics.last.toNat % 2^w = s.now % 2^w)
    (moves : PmStep timer w s e next) : PmReads w s e next := by
  have moved := pmDelta_moved mask bound (e.inl timer.port) s.statics.last
  obtain ⟨total,statics⟩ := Prod.mk.inj moves.reads
  have after := tracks.read moves.forward seen moved moves.shows
  have wide : ((pmDelta timer (e.inl timer.port) s.statics.last).setWidth 64).toNat =
      (pmDelta timer (e.inl timer.port) s.statics.last).toNat := by
    rw [BitVec.toNat_setWidth]
    exact Nat.mod_eq_of_lt (by have := (pmDelta timer (e.inl timer.port) s.statics.last).isLt; omega)
  -- the sum is no more than the ticks, so it does not wrap
  have sum : e.returned.toNat =
      s.statics.accumulated.toNat + (pmDelta timer (e.inl timer.port) s.statics.last).toNat := by
    rw [← total,BitVec.toNat_add,wide]
    exact Nat.mod_eq_of_lt (Nat.lt_of_le_of_lt after.below moves.fits)
  refine ⟨by rw [← statics,← total],sum ▸ after,by rw [← statics]; exact moves.shows,?_,fun same near => ?_⟩
  · rw [BitVec.le_def,sum]
    exact Nat.le_add_right _ _
  · rw [sum,same]
    exact exact_read moves.forward near moved.small (same ▸ tracks.lands seen moved moves.shows)

theorem inTime_snoc (ended : (0 :: reads.map PmRead.ticks).getLast? = some now) :
    InTime w (reads ++ [e]) ↔ InTime w reads ∧ e.ticks < now + 2^w := by
  unfold InTime
  rw [List.map_append,← List.cons_append,List.isChain_append,ended]
  simp

theorem PmInv.step (mask : timer.mask.toNat = 2^w - 1) (bound : w ≤ 32) (inv : PmInv w reads s)
    (moves : PmStep timer w s e next) : PmInv w (reads ++ [e]) next := by
  have reading := moves.spec mask bound inv.tracks inv.seen
  have inTime := @inTime_snoc w reads e s.now inv.ended
  have exact' : InTime w (reads ++ [e]) → e.returned.toNat = e.ticks := by
    intro near
    obtain ⟨before,last⟩ := inTime.mp near
    exact reading.exact' (inv.exact' before) last
  constructor
  case tracks => rw [reading.returned,moves.now]; exact reading.tracks
  case seen => rw [moves.now]; exact reading.seen
  case ended => rw [moves.now,List.map_append,← List.cons_append,List.map_singleton,List.getLast?_concat]
  case returned =>
    rw [reading.returned]
    intro e' member
    rcases List.mem_append.mp member with old | new
    · exact BitVec.le_trans (inv.returned e' old) reading.later
    · rw [List.mem_singleton.mp new]
      exact BitVec.le_refl _
  case ascending =>
    refine List.pairwise_append.mpr ⟨inv.ascending,List.pairwise_singleton _ _,fun e' old new member => ?_⟩
    rw [List.mem_singleton.mp member]
    exact BitVec.le_trans (inv.returned e' old) reading.later
  case congruent =>
    intro e' member
    rcases List.mem_append.mp member with old | new
    · exact inv.congruent e' old
    · rw [List.mem_singleton.mp new]
      exact reading.tracks.rounds
  case exact' => rw [reading.returned,moves.now]; exact exact'
  case exacts =>
    intro earlier last whole near
    rcases List.prefix_concat_iff.mp whole with all | before
    · obtain ⟨rfl,rfl⟩ := List.append_singleton_inj.mp all
      exact exact' near
    · exact inv.exacts earlier last before near

/-- The 64-bit reading never goes back and shows the ticks in its low bits; it is the number of ticks as long
as no read comes a whole round after the one before. -/
theorem pm_timer_extends (sets : pmTimerSetup (some fadt) = some timer)
    (run : Run PmStart (PmStep timer fadt.timerWidth) free reads s) :
    (reads.Pairwise fun a b => a.returned ≤ b.returned) ∧
    (∀ e ∈ reads, e.returned.toNat % 2^fadt.timerWidth = e.ticks % 2^fadt.timerWidth) ∧
    ∀ earlier e, earlier ++ [e] <+: reads → InTime fadt.timerWidth (earlier ++ [e]) → e.returned.toNat = e.ticks := by
  have mask := pmTimerSetup_mask sets
  have inv := run.invariant (PmInv fadt.timerWidth) (fun _ starts => starts.inv)
    fun _ _ _ _ inv _ moves => inv.step mask fadt.timerWidth_le moves
  exact ⟨inv.ascending,inv.congruent,inv.exacts⟩

def narrowFadt : Fadt := ⟨0x608#64,0x608#32,0#32⟩

def narrowTimer : PmTimer := ⟨0x608#16,false⟩

def pmReadAt (ticks : Nat) (shown : BitVec 32) (returned : U64) : PmRead := ⟨ticks,fun _ => shown,returned⟩

/-- The counter goes round once between the first two reads and runs to its end in the third; the upper byte is
noise. -/
theorem pm_timer_extends_round : ∃ s, Run PmStart (PmStep narrowTimer narrowFadt.timerWidth) free
      [pmReadAt 0xFFFFFE 0xABFFFFFE#32 0xFFFFFE#64,pmReadAt 0x1000003 0x00000003#32 0x1000003#64,
        pmReadAt 0x1FFFFFF 0xCDFFFFFF#32 0x1FFFFFF#64] s ∧
    InTime narrowFadt.timerWidth [pmReadAt 0xFFFFFE 0xABFFFFFE#32 0xFFFFFE#64,
      pmReadAt 0x1000003 0x00000003#32 0x1000003#64] ∧
    (pmReadAt 0x1000003 0x00000003#32 0x1000003#64).returned.toNat = 0x1000003 := by
  have start : Run PmStart (PmStep narrowTimer narrowFadt.timerWidth) free [] ⟨⟨0#64,0#32⟩,0⟩ := .start rfl
  have first := start.step trivial (e := pmReadAt 0xFFFFFE 0xABFFFFFE#32 0xFFFFFE#64)
    (t := ⟨⟨0xFFFFFE#64,0xABFFFFFE#32⟩,0xFFFFFE⟩) ⟨by decide,by decide,by decide,rfl,rfl⟩
  have second := first.step trivial (e := pmReadAt 0x1000003 0x00000003#32 0x1000003#64)
    (t := ⟨⟨0x1000003#64,0x00000003#32⟩,0x1000003⟩) ⟨by decide,by decide,by decide,rfl,rfl⟩
  have third := second.step trivial (e := pmReadAt 0x1FFFFFF 0xCDFFFFFF#32 0x1FFFFFF#64)
    (t := ⟨⟨0x1FFFFFF#64,0xCDFFFFFF#32⟩,0x1FFFFFF⟩) ⟨by decide,by decide,by decide,rfl,rfl⟩
  have near : InTime narrowFadt.timerWidth [pmReadAt 0xFFFFFE 0xABFFFFFE#32 0xFFFFFE#64,
      pmReadAt 0x1000003 0x00000003#32 0x1000003#64] := by decide
  obtain ⟨_,_,exact'⟩ := pm_timer_extends (show pmTimerSetup (some narrowFadt) = some narrowTimer from rfl) third
  exact ⟨_,third,near,exact' _ _ (List.prefix_append _ _) near⟩

end Reddyos
