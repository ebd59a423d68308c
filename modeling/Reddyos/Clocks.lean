import Reddyos.Pmm
import Reddyos.Words

/-! Clock sources and the monotonic clock of `time/clocks.c`. A counter is a function of
the instant at which it is read. -/
namespace Reddyos

inductive ClockId where
  | tsc
  | hpet
  | pmTimer
  | rtc
  deriving DecidableEq, Repr

/-- `clock_source_t`. A source of calendar time (`real`) has no counter and frequency 0. -/
structure ClockSource where
  id : ClockId
  now : Option (Nat → U64)
  freq : U64

/-- `clock_list` with its mask of available clocks, and the boot clock with its base. -/
structure Clocks where
  list : List ClockSource
  available : List ClockId
  bootClock : Option ClockSource
  bootClockBase : U64

def clocksEmpty : Clocks := ⟨[],[],none,0#64⟩

def isClockAvailable (clocks : Clocks) (id : ClockId) : Bool := clocks.available.contains id

def getClock (clocks : Clocks) (id : ClockId) : Option ClockSource :=
  if !isClockAvailable clocks id then none
  else clocks.list.find? fun source => source.id = id

def getBestClock (clocks : Clocks) : Option ClockSource :=
  if isClockAvailable clocks .tsc then getClock clocks .tsc
  else if isClockAvailable clocks .hpet then getClock clocks .hpet
  else if isClockAvailable clocks .pmTimer then getClock clocks .pmTimer
  else none

/-- A new source goes to the tail of the list. -/
def registerSource (source : ClockSource) (clocks : Clocks) : Clocks :=
  { clocks with list := clocks.list ++ [source], available := source.id :: clocks.available }

def registerClockSource (id : ClockId) (now : Nat → U64) (freq : U64) : Clocks → Clocks :=
  registerSource ⟨id,some now,freq⟩

def registerTimeSource (id : ClockId) : Clocks → Clocks := registerSource ⟨id,none,0#64⟩

/-- `CLOCK_NS`: the product is taken before the division, in 64 bits. -/
def clockNs (now freq : U64) : U64 := now * 1000000000#64 / freq

def clockGetNs (clock : ClockSource) (t : Nat) : Except Stop U64 :=
  match clock.now with
  | none => throw .undefined
  | some now => if clock.freq = 0#64 then throw .undefined else return clockNs (now t) clock.freq

def setupBootClock (clocks : Clocks) (t : Nat) : Except Stop Clocks :=
  match getBestClock clocks with
  | none => throw (.panic "No clock sources available")
  | some best => do
    let base ← clockGetNs best t
    return { clocks with bootClock := some best, bootClockBase := base }

def nsSinceBoot (clocks : Clocks) (t : Nat) : Except Stop U64 :=
  match clocks.bootClock with
  | none => throw (.panic "No boot clock!")
  | some clock => return (← clockGetNs clock t) - clocks.bootClockBase

variable {clock : ClockSource} {now : Nat → U64} {clocks next : Clocks}

/-- The time a counter stands for. -/
def elapsedNs (now freq : U64) : Nat := now.toNat * 1000000000 / freq.toNat

theorem clockNs_iff {count : U64} (positive : freq ≠ 0#64) :
    (clockNs count freq).toNat = elapsedNs count freq ↔ count.toNat * 1000000000 < 2^64 :=
  Words.toNat_mul_div_iff count 1000000000#64 positive

theorem elapsedNs_mono (ascending : a ≤ b) : elapsedNs a freq ≤ elapsedNs b freq := by
  unfold elapsedNs
  rw [BitVec.le_def] at ascending
  exact Nat.div_le_div_right (Nat.mul_le_mul_right _ ascending)

theorem clockGetNs_ok (source : clock.now = some now) (positive : clock.freq ≠ 0#64) (t : Nat) :
    clockGetNs clock t = .ok (clockNs (now t) clock.freq) := by
  unfold clockGetNs
  simp only [source,positive]
  rfl

theorem setupBootClock_ok (returns : setupBootClock clocks t = .ok next) :
    ∃ best, getBestClock clocks = some best ∧ next.bootClock = some best ∧
      clockGetNs best t = .ok next.bootClockBase := by
  unfold setupBootClock at returns
  split at returns
  · cases returns
  · rename_i best found
    obtain ⟨base,read,returns⟩ := ok_of_bind returns
    obtain rfl := Except.ok.inj returns
    exact ⟨best,found,rfl,read⟩

/-- Every reading is the elapsed time, so readings never go backwards, since boot either. -/
structure ClockCorrect (clock : ClockSource) (now : Nat → U64) : Prop where
  reading : ∀ t, clockGetNs clock t = .ok (BitVec.ofNat 64 (elapsedNs (now t) clock.freq))
  ascending : ∀ s t a b, s ≤ t → clockGetNs clock s = .ok a → clockGetNs clock t = .ok b → a ≤ b
  sinceBoot : ∀ clocks booted t₀, getBestClock clocks = some clock →
    setupBootClock clocks t₀ = .ok booted → ∀ s t a b, t₀ ≤ s → s ≤ t →
      nsSinceBoot booted s = .ok a → nsSinceBoot booted t = .ok b → a ≤ b

/-- The monotonic clock is right exactly as long as the scaled counter stays below 2^64. -/
theorem clock_correct_iff (source : clock.now = some now) (positive : clock.freq ≠ 0#64)
    (ascending : ∀ s t, s ≤ t → now s ≤ now t) (fits : ∀ t, elapsedNs (now t) clock.freq < 2^64) :
    ClockCorrect clock now ↔ ∀ t, (now t).toNat * 1000000000 < 2^64 := by
  have read := clockGetNs_ok source positive
  constructor
  · intro correct t
    have same := correct.reading t
    rw [read t] at same
    refine (clockNs_iff positive).mp ?_
    rw [Except.ok.inj same,BitVec.toNat_ofNat,Nat.mod_eq_of_lt (fits t)]
  · intro small
    have scaled : ∀ t, (clockNs (now t) clock.freq).toNat = elapsedNs (now t) clock.freq :=
      fun t => (clockNs_iff positive).mpr (small t)
    have mono : ∀ s t, s ≤ t →
        (clockNs (now s) clock.freq).toNat ≤ (clockNs (now t) clock.freq).toNat := by
      intro s t later
      rw [scaled s,scaled t]
      exact elapsedNs_mono (ascending s t later)
    refine ⟨?_,?_,?_⟩
    · intro t
      rw [read t,← scaled t,BitVec.ofNat_toNat,BitVec.setWidth_eq]
    · intro s t a b later first second
      rw [read s] at first
      rw [read t] at second
      obtain rfl := Except.ok.inj first
      obtain rfl := Except.ok.inj second
      exact mono s t later
    · intro clocks booted t₀ best boots s t a b start later first second
      obtain ⟨best',found,chosen,base⟩ := setupBootClock_ok boots
      obtain rfl := Option.some.inj (best.symm.trans found)
      rw [read t₀] at base
      unfold nsSinceBoot at first second
      simp only [chosen,read,bind,Except.bind,pure,Except.pure,Except.ok.injEq] at first second
      rw [← first,← second,← Except.ok.inj base,BitVec.le_def]
      have before := mono t₀ s start
      have after := mono s t later
      rw [BitVec.toNat_sub_of_le before,BitVec.toNat_sub_of_le (Nat.le_trans before after)]
      omega

def tscBetween (first last : U64) : ClockSource :=
  ⟨.tsc,some fun t => if t = 0 then first else last,3000000000#64⟩

theorem tscBetween_ascending (later : first ≤ last) (s t : Nat) (before : s ≤ t) :
    (if s = 0 then first else last) ≤ (if t = 0 then first else last : U64) := by
  split
  · split
    · exact BitVec.le_refl _
    · exact later
  · rw [if_neg (by omega)]
    exact BitVec.le_refl _

theorem tscBetween_all {p : U64 → Prop} (head : p first) (tail : p last) (t : Nat) :
    p (if t = 0 then first else last) := by
  split
  · exact head
  · exact tail

/-- After a little more than six seconds the clock starts again from zero. -/
theorem clock_goes_backwards : ∃ clock now, clock.now = some now ∧ clock.freq ≠ 0#64 ∧
    (∀ s t, s ≤ t → now s ≤ now t) ∧ (∀ t, elapsedNs (now t) clock.freq < 2^64) ∧
    clockGetNs clock 0 = .ok 6148914691#64 ∧ clockGetNs clock 1 = .ok 0#64 ∧ ¬ClockCorrect clock now := by
  refine ⟨tscBetween 18446744073#64 18446744074#64,_,rfl,by decide,?_,?_,by rfl,by rfl,?_⟩
  · exact tscBetween_ascending (by decide)
  · exact tscBetween_all (p := fun n => elapsedNs n 3000000000#64 < 2^64) (by decide) (by decide)
  · intro correct
    exact absurd (correct.ascending 0 1 6148914691#64 0#64 (by decide) (by rfl) (by rfl)) (by decide)

theorem clock_correct_iff_second : ClockCorrect (tscBetween 0#64 3000000000#64)
    (fun t => if t = 0 then 0#64 else 3000000000#64) :=
  (clock_correct_iff rfl (by decide) (tscBetween_ascending (by decide))
    (tscBetween_all (p := fun n => elapsedNs n 3000000000#64 < 2^64) (by decide) (by decide))).mpr
    (tscBetween_all (p := fun n => n.toNat * 1000000000 < 2^64) (by decide) (by decide))

end Reddyos
