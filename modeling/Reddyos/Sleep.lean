import Reddyos.Clocks

/-! Sleeping on the best clock: `busy_sleep_*` of `time/clocks.c` and `syscalls/time/sleep.c`. Every
turn of the loop is one instant. -/
namespace Reddyos

/-- `struct timespec`; both words are signed. -/
structure TimeWords where
  sec : U64
  nsec : U64
  deriving DecidableEq, Repr

def timespecToNsec (ts : TimeWords) : U64 := ts.sec * 1000000000#64 + ts.nsec

structure SleepCall where
  clock : ClockSource
  ticks : U64

/-- The product is taken before the division, in 64 bits. -/
def busySleepNs (clock : ClockSource) (ns : U64) : SleepCall := ⟨clock,ns * clock.freq / 1000000000#64⟩

def busySleepBestNs (clocks : Clocks) (ns : U64) : Except Stop SleepCall :=
  match getBestClock clocks with
  | none => throw (.panic "No clock sources available")
  | some best => return busySleepNs best ns

def sleepLoop (now : Nat → U64) (start ticks : U64) : Nat → Nat → Except Stop Nat
  | 0, _ => throw .looping
  | fuel + 1, t => if now t - start < ticks then sleepLoop now start ticks fuel (t + 1) else return t

def busySleepTicks (call : SleepCall) (fuel t : Nat) : Except Stop Nat :=
  match call.clock.now with
  | none => throw .undefined
  | some now => sleepLoop now (now t) call.ticks fuel (t + 1)

def doSysNanosleep (clocks : Clocks) (duration : TimeWords) (fuel t : Nat) : Except Stop Nat := do
  let call ← busySleepBestNs clocks (timespecToNsec duration)
  busySleepTicks call fuel t

variable {clocks : Clocks} {best : ClockSource} {now : Nat → U64} {duration : TimeWords} {start ticks : U64} {t u : Nat}

theorem sleepLoop_ends (returns : sleepLoop now start ticks fuel t = .ok u) : t ≤ u ∧ ticks ≤ now u - start := by
  induction fuel generalizing t with
  | zero => cases returns
  | succ fuel ih =>
    unfold sleepLoop at returns
    split at returns
    · obtain ⟨later,enough⟩ := ih returns
      exact ⟨by omega,enough⟩
    · rename_i enough
      obtain rfl := Except.ok.inj returns
      exact ⟨Nat.le_refl _,BitVec.not_lt.mp enough⟩

/-- The loop ends as soon as a reading is far enough. -/
theorem sleepLoop_returns (later : t ≤ u) (enough : ticks ≤ now u - start) (fuel : u < t + rounds) :
    ∃ v ≤ u, sleepLoop now start ticks rounds t = .ok v := by
  induction rounds generalizing t with
  | zero => omega
  | succ rounds ih =>
    unfold sleepLoop
    split
    · rename_i short
      have apart : t ≠ u := by
        rintro rfl
        exact absurd enough (BitVec.not_le.mpr short)
      exact ih (by omega) (by omega)
    · exact ⟨t,later,rfl⟩

/-- A sleep returns behind its start, after as many ticks as it was called with. -/
theorem busySleepTicks_ends (call : SleepCall) (counts : call.clock.now = some now)
    (returns : busySleepTicks call fuel t = .ok u) : t < u ∧ call.ticks ≤ now u - now t := by
  unfold busySleepTicks at returns
  rw [counts] at returns
  exact sleepLoop_ends returns

theorem busySleepTicks_returns (call : SleepCall) (counts : call.clock.now = some now) (later : t < u)
    (enough : call.ticks ≤ now u - now t) : ∃ v ≤ u, busySleepTicks call (u - t) t = .ok v := by
  unfold busySleepTicks
  rw [counts]
  exact sleepLoop_returns later enough (by omega)

def lengthNs (duration : TimeWords) : Nat := duration.sec.toNat * 1000000000 + duration.nsec.toNat

def exactTicks (length freq : Nat) : Nat := length * freq / 1000000000

structure SleepExact (clocks : Clocks) (best : ClockSource) (now : Nat → U64) (duration : TimeWords) : Prop where
  called : ∃ ticks, busySleepBestNs clocks (timespecToNsec duration) = .ok ⟨best,ticks⟩ ∧
    ticks.toNat = exactTicks (lengthNs duration) best.freq.toNat
  lasts : ∀ fuel t u, doSysNanosleep clocks duration fuel t = .ok u →
    t < u ∧ exactTicks (lengthNs duration) best.freq.toNat ≤ (now u - now t).toNat

theorem toNat_timespecToNsec (fits : lengthNs duration < 2^64) : (timespecToNsec duration).toNat = lengthNs duration := by
  unfold lengthNs at *
  have seconds : duration.sec.toNat * 1000000000 < 2^64 := Nat.lt_of_le_of_lt (Nat.le_add_right _ _) fits
  have billion : (1000000000#64).toNat = 1000000000 := rfl
  rw [timespecToNsec,BitVec.toNat_add,BitVec.toNat_mul,billion,Nat.mod_eq_of_lt seconds,Nat.mod_eq_of_lt fits]

/-- A sleep is as long as asked for exactly as long as its nanoseconds, scaled by the frequency,
stay below 2^64. -/
theorem sleep_exact_iff (chosen : getBestClock clocks = some best) (counts : best.now = some now)
    (fits : lengthNs duration < 2^64) :
    SleepExact clocks best now duration ↔ lengthNs duration * best.freq.toNat < 2^64 := by
  have length := toNat_timespecToNsec fits
  have calls : busySleepBestNs clocks (timespecToNsec duration) = .ok (busySleepNs best (timespecToNsec duration)) := by
    unfold busySleepBestNs
    rw [chosen]
    rfl
  have ticks := Words.toNat_mul_div_iff (d := 1000000000#64) (timespecToNsec duration) best.freq (by decide)
  rw [length] at ticks
  constructor
  · intro exact'
    obtain ⟨n,called,right⟩ := exact'.called
    rw [calls] at called
    obtain ⟨_,rfl⟩ := SleepCall.mk.inj (Except.ok.inj called)
    exact ticks.mp right
  · intro small
    have right := ticks.mpr small
    refine ⟨⟨_,calls,right⟩,fun fuel t u returns => ?_⟩
    unfold doSysNanosleep at returns
    rw [calls] at returns
    obtain ⟨later,enough⟩ := busySleepTicks_ends _ counts returns
    refine ⟨later,?_⟩
    rw [BitVec.le_def] at enough
    exact Nat.le_trans (Nat.le_of_eq right.symm) enough

def tscEvery (step : U64) : ClockSource := ⟨.tsc,some fun t => BitVec.ofNat 64 t * step,3000000000#64⟩

def tscOnly (step : U64) : Clocks := registerSource (tscEvery step) clocksEmpty

theorem sleep_exact_second : SleepExact (tscOnly 1000000000#64) (tscEvery 1000000000#64)
      (fun t => BitVec.ofNat 64 t * 1000000000#64) ⟨1#64,0#64⟩ ∧
    doSysNanosleep (tscOnly 1000000000#64) ⟨1#64,0#64⟩ 10 5 = .ok 8 :=
  ⟨(sleep_exact_iff rfl rfl (by decide)).mpr (by decide),by rfl⟩

/-- A sleep of seven seconds at 3 GHz waits for 2553255926 ticks instead of 21000000000. -/
theorem sleep_cut_short : getBestClock (tscOnly 2553255926#64) = some (tscEvery 2553255926#64) ∧
    (tscEvery 2553255926#64).now = some (fun t => BitVec.ofNat 64 t * 2553255926#64) ∧
    lengthNs ⟨7#64,0#64⟩ < 2^64 ∧
    busySleepBestNs (tscOnly 2553255926#64) (timespecToNsec ⟨7#64,0#64⟩) = .ok ⟨tscEvery 2553255926#64,2553255926#64⟩ ∧
    doSysNanosleep (tscOnly 2553255926#64) ⟨7#64,0#64⟩ 10 0 = .ok 1 ∧
    ¬SleepExact (tscOnly 2553255926#64) (tscEvery 2553255926#64) (fun t => BitVec.ofNat 64 t * 2553255926#64) ⟨7#64,0#64⟩ := by
  refine ⟨rfl,rfl,by decide,rfl,by rfl,fun exact' => ?_⟩
  exact absurd (exact'.lasts 10 0 1 (by rfl)).2 (by decide)

end Reddyos
