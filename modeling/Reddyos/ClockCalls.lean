import Reddyos.Sleep
import Reddyos.Transitions
import Reddyos.Vma

/-! `clock_gettime`: the monotonic clock, calendar time, and the sources that `clocks_init` puts
into the registry. -/
namespace Reddyos

open Transitions

def clockGetBestNs (clocks : Clocks) (t : Nat) : Except Stop U64 :=
  match getBestClock clocks with
  | none => throw (.panic "No clock sources available")
  | some best => clockGetNs best t

def timespecNormalize (ts : TimeWords) : TimeWords :=
  let sec := ts.sec + ts.nsec.sdiv 1000000000#64
  let nsec := ts.nsec.srem 1000000000#64
  if nsec.toInt < 0 then ⟨sec - 1#64,nsec + 1000000000#64⟩ else ⟨sec,nsec⟩

/-- `base` is `base_rtc`; both words of the buffer are overwritten. -/
def rtcReal (clocks : Clocks) (base : TimeWords) (t : Nat) : Except Stop TimeWords := do
  let ns ← nsSinceBoot clocks t
  return timespecNormalize ⟨base.sec,base.nsec + ns⟩

def ClockSource.real (source : ClockSource) : Option (Clocks → TimeWords → Nat → Except Stop TimeWords) :=
  match source.now with
  | none => some rtcReal
  | some _ => none

/-- `enum clocks`. -/
def clockNumber : BitVec 8 → Option ClockId
  | 0 => some .tsc
  | 1 => some .hpet
  | 2 => some .pmTimer
  | 3 => some .rtc
  | _ => none

def clockRealtime : BitVec 32 := 0#32
def clockMonotonic : BitVec 32 := 1#32

def getClockNumber (clocks : Clocks) (clock : BitVec 32) : Option ClockSource :=
  match clockNumber (clock.setWidth 8) with
  | none => none
  | some id => getClock clocks id

def doSysClockGettime (clocks : Clocks) (base : TimeWords) (t : Nat) (clock : BitVec 32) (ts : TimeWords) :
    Except Stop (Except Errno U64 × TimeWords) :=
  if clock = clockRealtime then
    match getClockNumber clocks clockRealtime with
    | none => throw .undefined
    | some rtc =>
      match rtc.real with
      | none => throw .undefined
      | some real => return (.ok 0#64,← real clocks base t)
  else if clock = clockMonotonic then
    return (.ok 0#64,timespecNormalize { ts with nsec := ← clockGetBestNs clocks t })
  else return (.error .einval,ts)

/-- What the machine has: the period of the HPET in femtoseconds and its counter, the PM timer, and
the time stamp counter. -/
structure ClockParts where
  hpet : Option (BitVec 32 × (Nat → U64))
  pmTimer : Option (Nat → U64)
  tsc : Option (Nat → U64)

def hpetInit (parts : ClockParts) (clocks : Clocks) : Except Stop Clocks :=
  match parts.hpet with
  | none => return clocks
  | some (period,counter) =>
    if period = 0#32 then throw (.panic "Broken HPET period")
    else return registerClockSource .hpet counter (1000000000000000#64 / period.setWidth 64) clocks

def pmTimerInit (parts : ClockParts) (clocks : Clocks) : Clocks :=
  match parts.pmTimer with
  | none => clocks
  | some counter => registerClockSource .pmTimer counter 3579545#64 clocks

/-- The ticks of 100 ms, scaled to a second, and the instant behind them. -/
def calibrateTsc (rdtsc : Nat → U64) (clocks : Clocks) (fuel t : Nat) : Except Stop (U64 × Nat) := do
  let call ← busySleepBestNs clocks 100000000#64
  let ended ← busySleepTicks call fuel (t + 1)
  return ((rdtsc (ended + 1) - rdtsc t) * 10#64,ended + 2)

def tscInit (parts : ClockParts) (fuel t : Nat) (clocks : Clocks) : Except Stop (Clocks × Nat) :=
  match parts.tsc with
  | none => return (clocks,t)
  | some rdtsc => do
    let (freq,t) ← calibrateTsc rdtsc clocks fuel t
    if freq = 0#64 then return (clocks,t + 1)
    else return (registerClockSource .tsc (fun later => rdtsc later - rdtsc t) freq clocks,t + 1)

def clocksInit (parts : ClockParts) (fuel t : Nat) : Except Stop Clocks := do
  let clocks ← hpetInit parts clocksEmpty
  let clocks := pmTimerInit parts clocks
  if clocks.available = [] then throw (.panic "No clock sources available for initial calibration")
  else do
    let (clocks,t) ← tscInit parts fuel t clocks
    setupBootClock (registerTimeSource .rtc clocks) t

variable {clocks : Clocks} {base ts ts' : TimeWords} {t : Nat} {reading : U64}

/-- A positive number of nanoseconds is split into seconds and the rest. -/
theorem timespecNormalize_split (sec : U64) (small : reading.toNat < 2^63) : timespecNormalize ⟨sec,reading⟩ =
    ⟨sec + BitVec.ofNat 64 (reading.toNat / 1000000000),BitVec.ofNat 64 (reading.toNat % 1000000000)⟩ := by
  have positive : reading.msb = false := by
    rw [BitVec.msb_eq_decide]
    exact decide_eq_false (by omega)
  have billion : (1000000000#64).msb = false := rfl
  have number : (1000000000#64).toNat = 1000000000 := rfl
  have quotient : reading.sdiv 1000000000#64 = BitVec.ofNat 64 (reading.toNat / 1000000000) := by
    apply BitVec.eq_of_toNat_eq
    rw [BitVec.sdiv_eq,positive,billion,BitVec.toNat_ofNat]
    change (reading / 1000000000#64).toNat = _
    rw [BitVec.toNat_udiv,number]
    omega
  have rest : reading.srem 1000000000#64 = BitVec.ofNat 64 (reading.toNat % 1000000000) := by
    apply BitVec.eq_of_toNat_eq
    rw [BitVec.srem_eq,positive,billion,BitVec.toNat_ofNat]
    change (reading % 1000000000#64).toNat = _
    rw [BitVec.toNat_umod,number]
    omega
  have below : ¬(BitVec.ofNat 64 (reading.toNat % 1000000000)).toInt < 0 := by
    rw [BitVec.toInt_eq_toNat_cond,BitVec.toNat_ofNat]
    split <;> omega
  unfold timespecNormalize
  simp only [quotient,rest,if_neg below]

/-- A reading in seconds and nanoseconds. -/
def splitNs (reading : U64) : TimeWords :=
  ⟨BitVec.ofNat 64 (reading.toNat / 1000000000),BitVec.ofNat 64 (reading.toNat % 1000000000)⟩

/-- Whatever two buffers hold, the call stores the time of the reading in both. -/
def SameTime (clocks : Clocks) (base : TimeWords) (t : Nat) (reading : U64) (ts ts' : TimeWords) : Prop :=
  doSysClockGettime clocks base t clockMonotonic ts = .ok (.ok 0#64,splitNs reading) ∧
    doSysClockGettime clocks base t clockMonotonic ts' = .ok (.ok 0#64,splitNs reading)

theorem gettime_monotonic (reads : clockGetBestNs clocks t = .ok reading) (small : reading.toNat < 2^63) (ts : TimeWords) :
    doSysClockGettime clocks base t clockMonotonic ts =
      .ok (.ok 0#64,⟨ts.sec + BitVec.ofNat 64 (reading.toNat / 1000000000),BitVec.ofNat 64 (reading.toNat % 1000000000)⟩) := by
  unfold doSysClockGettime
  rw [if_neg (by decide),if_pos rfl,reads,← timespecNormalize_split ts.sec small]
  rfl

/-- The seconds are added to those of the buffer. -/
theorem gettime_split_iff (reads : clockGetBestNs clocks t = .ok reading) (small : reading.toNat < 2^63) :
    doSysClockGettime clocks base t clockMonotonic ts = .ok (.ok 0#64,splitNs reading) ↔ ts.sec = 0#64 := by
  rw [gettime_monotonic reads small,splitNs]
  constructor
  · intro same
    have stored := (ok_pair same).2
    have sum : ts.sec + BitVec.ofNat 64 (reading.toNat / 1000000000) =
        0#64 + BitVec.ofNat 64 (reading.toNat / 1000000000) := by
      rw [BitVec.zero_add]
      exact congrArg TimeWords.sec stored
    exact (BitVec.add_left_inj _).mp sum
  · intro zero
    rw [zero,BitVec.zero_add]

/-- The buffer of a process, and what its calls read and stored, the first call first. -/
structure Caller where
  buffer : TimeWords
  times : List (U64 × TimeWords)

inductive CallerEvent where
  | store (ts : TimeWords)
  | gettime (t : Nat)

inductive CallerStep (clocks : Clocks) (base : TimeWords) : Caller → CallerEvent → Caller → Prop where
  | store (new : TimeWords) : CallerStep clocks base s (.store new) { s with buffer := new }
  | gettime (instant : Nat) (read : U64) : clockGetBestNs clocks instant = .ok read → read.toNat < 2^63 →
      doSysClockGettime clocks base instant clockMonotonic s.buffer = .ok (.ok 0#64,out) →
      CallerStep clocks base s (.gettime instant) ⟨out,s.times ++ [(read,out)]⟩

/-- The seconds of the buffer are 0 at every call. -/
def Cleared (s : Caller) : CallerEvent → Prop
  | .store _ => True
  | .gettime _ => s.buffer.sec = 0#64

def TimeWords.Before (ts ts' : TimeWords) : Prop :=
  ts.sec.toInt < ts'.sec.toInt ∨ ts.sec = ts'.sec ∧ ts.nsec.toInt ≤ ts'.nsec.toInt

theorem toInt_part (part : Nat) (small : part < 2^63) : (BitVec.ofNat 64 part).toInt = part := by
  rw [BitVec.toInt_eq_toNat_cond,BitVec.toNat_ofNat]
  split <;> omega

theorem splitNs_before {later : U64} (small : later.toNat < 2^63) (ascending : reading ≤ later) :
    (splitNs reading).Before (splitNs later) := by
  rw [BitVec.le_def] at ascending
  unfold TimeWords.Before splitNs
  rw [toInt_part _ (by omega),toInt_part _ (by omega),toInt_part _ (by omega),toInt_part _ (by omega)]
  have seconds : reading.toNat / 1000000000 ≤ later.toNat / 1000000000 := Nat.div_le_div_right ascending
  rcases Nat.lt_or_eq_of_le seconds with less | same
  · exact .inl (by omega)
  · exact .inr ⟨by rw [same],by omega⟩

/-- Two buffers get the same time exactly when neither holds seconds; a process that clears its
buffer before each call sees the times of its readings, and later readings give later times. -/
theorem monotonic_time_iff (reads : clockGetBestNs clocks t = .ok reading) (small : reading.toNat < 2^63) :
    (SameTime clocks base t reading ts ts' ↔ ts.sec = 0#64 ∧ ts'.sec = 0#64) ∧
      ∀ events s, Run (fun s : Caller => s.times = []) (CallerStep clocks base) Cleared events s →
        (∀ call ∈ s.times, call.2 = splitNs call.1) ∧ s.times.Pairwise fun call later =>
          call.1 ≤ later.1 → call.2.Before later.2 := by
  refine ⟨and_congr (gettime_split_iff reads small) (gettime_split_iff reads small),fun events s run => ?_⟩
  have right := run.invariant (fun _ s => ∀ call ∈ s.times, call.1.toNat < 2^63 ∧ call.2 = splitNs call.1)
    (fun s begins => by rw [begins]; exact fun _ member => absurd member List.not_mem_nil) (by
      rintro _ s _ _ inv cleared (_ | ⟨_,_,reads,small,returns⟩)
      · exact inv
      · intro call member
        rcases List.mem_append.mp member with old | new
        · exact inv call old
        · obtain rfl := List.mem_singleton.mp new
          rw [(gettime_split_iff reads small).mpr cleared] at returns
          exact ⟨small,(ok_pair returns).2.symm⟩)
  refine ⟨fun call member => (right call member).2,?_⟩
  refine List.Pairwise.imp_of_mem (R := fun _ _ => True) ?_ (List.pairwise_of_forall fun _ _ => trivial)
  intro call later first second _ ascending
  rw [(right call first).2,(right later second).2]
  exact splitNs_before (right later second).1 ascending

theorem monotonic_time_iff_cleared : SameTime (tscOnly 3000000000#64) ⟨0#64,0#64⟩ 5 5000000000#64 ⟨0#64,7#64⟩ ⟨0#64,9#64⟩ :=
  (monotonic_time_iff (by rfl) (by decide)).1.mpr ⟨rfl,rfl⟩

/-- The buffer of the last call, used again: five seconds after boot the clock says ten. -/
theorem buffer_adds_seconds : clockGetBestNs (tscOnly 3000000000#64) 5 = .ok 5000000000#64 ∧
    doSysClockGettime (tscOnly 3000000000#64) ⟨0#64,0#64⟩ 5 clockMonotonic ⟨5#64,0#64⟩ = .ok (.ok 0#64,⟨10#64,0#64⟩) ∧
    ¬SameTime (tscOnly 3000000000#64) ⟨0#64,0#64⟩ 5 5000000000#64 ⟨0#64,0#64⟩ ⟨5#64,0#64⟩ := by
  have reads : clockGetBestNs (tscOnly 3000000000#64) 5 = .ok 5000000000#64 := by rfl
  refine ⟨reads,by rfl,fun same => ?_⟩
  exact absurd ((gettime_split_iff reads (by decide)).mp same.2) (by decide)

def TimeWords.total (ts : TimeWords) : Int := ts.sec.toInt * 1000000000 + ts.nsec.toInt

/-- The call returns 0 and stores `base` plus the time since boot, normalised. -/
def RealtimeRight (clocks : Clocks) (base : TimeWords) (t : Nat) (ts : TimeWords) : Prop :=
  ∃ uptime out, nsSinceBoot clocks t = .ok uptime ∧
    doSysClockGettime clocks base t clockRealtime ts = .ok (.ok 0#64,out) ∧
    0 ≤ out.nsec.toInt ∧ out.nsec.toInt < 1000000000 ∧ out.total = base.total + uptime.toNat

def Counting (clocks : Clocks) : Prop := ∀ source ∈ clocks.list, source.id ≠ .rtc → ∃ now, source.now = some now

theorem Counting.register {source : ClockSource} (counting : Counting clocks)
    (new : source.id ≠ .rtc → ∃ now, source.now = some now) : Counting (registerSource source clocks) := by
  intro other member
  rcases List.mem_append.mp member with old | added
  · exact counting other old
  · obtain rfl := List.mem_singleton.mp added
    exact new

theorem hpetInit_counting (counting : Counting clocks) (returns : hpetInit parts clocks = .ok next) : Counting next := by
  unfold hpetInit at returns
  split at returns
  · obtain rfl := Except.ok.inj returns
    exact counting
  split at returns
  · cases returns
  · obtain rfl := Except.ok.inj returns
    exact counting.register fun _ => ⟨_,rfl⟩

theorem pmTimerInit_counting (counting : Counting clocks) (parts : ClockParts) : Counting (pmTimerInit parts clocks) := by
  unfold pmTimerInit
  split
  · exact counting
  · exact counting.register fun _ => ⟨_,rfl⟩

theorem tscInit_counting (counting : Counting clocks) (returns : tscInit parts fuel t clocks = .ok (next,later)) :
    Counting next := by
  unfold tscInit at returns
  split at returns
  · obtain ⟨rfl,_⟩ := ok_pair returns
    exact counting
  · obtain ⟨⟨freq,ended⟩,_,returns⟩ := ok_of_bind returns
    dsimp only at returns
    split at returns
    · obtain ⟨rfl,_⟩ := ok_pair returns
      exact counting
    · obtain ⟨rfl,_⟩ := ok_pair returns
      exact counting.register fun _ => ⟨_,rfl⟩

theorem clocksInit_counting (boots : clocksInit parts fuel t = .ok clocks) : Counting clocks := by
  obtain ⟨first,hpet,boots⟩ := ok_of_bind boots
  dsimp only at boots
  split at boots
  · cases boots
  obtain ⟨⟨second,ended⟩,tsc,boots⟩ := ok_of_bind boots
  have none : Counting clocksEmpty := fun _ member => absurd member List.not_mem_nil
  have counting := tscInit_counting (pmTimerInit_counting (hpetInit_counting none hpet) parts) tsc
  have whole : Counting (registerTimeSource .rtc second) := counting.register fun other => absurd rfl other
  dsimp only at boots
  unfold setupBootClock at boots
  split at boots
  · cases boots
  · obtain ⟨_,_,boots⟩ := ok_of_bind boots
    obtain rfl := Except.ok.inj boots
    exact whole

theorem getClock_member {name : ClockId} (found : getClock clocks name = some source) :
    source ∈ clocks.list ∧ source.id = name := by
  unfold getClock at found
  split at found
  · cases found
  · exact ⟨List.mem_of_find?_eq_some found,by simpa using List.find?_some found⟩

/-- `CLOCK_REALTIME` is the id of the time stamp counter: there is no source, or its `real` is NULL. -/
theorem realtime_undefined (counting : Counting clocks) (base : TimeWords) (t : Nat) (ts : TimeWords) :
    doSysClockGettime clocks base t clockRealtime ts = .error .undefined := by
  have number : getClockNumber clocks clockRealtime = getClock clocks .tsc := rfl
  unfold doSysClockGettime
  rw [if_pos rfl,number]
  cases found : getClock clocks .tsc with
  | none => rfl
  | some source =>
    obtain ⟨member,tsc⟩ := getClock_member found
    obtain ⟨now,counts⟩ := counting source member (by rw [tsc]; decide)
    simp only [ClockSource.real,counts]
    rfl

/-- No registry that `clocks_init` builds gives calendar time. -/
theorem realtime_never (boots : clocksInit parts fuel start = .ok clocks) (base : TimeWords) (t : Nat) (ts : TimeWords) :
    ¬RealtimeRight clocks base t ts := by
  rintro ⟨_,_,_,returns,_⟩
  rw [realtime_undefined (clocksInit_counting boots)] at returns
  cases returns

/-- The `real` of the RTC source itself is right: it adds the time since boot. -/
theorem rtcReal_adds {uptime : U64} (since : nsSinceBoot clocks t = .ok uptime) (small : uptime.toNat < 2^63)
    (seconds : 0 ≤ base.sec.toInt ∧ base.sec.toInt < 2^62) (whole : base.nsec = 0#64) :
    ∃ out, rtcReal clocks base t = .ok out ∧ 0 ≤ out.nsec.toInt ∧ out.nsec.toInt < 1000000000 ∧
      out.total = base.total + uptime.toNat := by
  have adds : rtcReal clocks base t =
      .ok ⟨base.sec + BitVec.ofNat 64 (uptime.toNat / 1000000000),BitVec.ofNat 64 (uptime.toNat % 1000000000)⟩ := by
    unfold rtcReal
    rw [since,← timespecNormalize_split base.sec small,whole]
    simp only [bind,Except.bind,BitVec.zero_add]
    rfl
  have part := toInt_part (uptime.toNat % 1000000000) (by omega)
  have zero : (0#64).toInt = 0 := rfl
  have sum : (base.sec + BitVec.ofNat 64 (uptime.toNat / 1000000000)).toInt =
      base.sec.toInt + uptime.toNat / 1000000000 := by
    obtain ⟨positive,below⟩ := seconds
    have bound := base.sec.isLt
    rw [BitVec.toInt_eq_toNat_cond] at positive below ⊢
    rw [BitVec.toNat_add,BitVec.toNat_ofNat,BitVec.toInt_eq_toNat_cond]
    split at positive <;> split at below <;> split <;> omega
  refine ⟨_,adds,?_,?_,?_⟩
  · rw [part]
    omega
  · rw [part]
    omega
  · unfold TimeWords.total
    rw [part,sum,whole,zero]
    omega

/-- A machine with an HPET of 10 ns and a PM timer, without a time stamp counter. -/
def hpetParts : ClockParts := ⟨some (10000000#32,fun t => BitVec.ofNat 64 t * 100000000#64),some fun t => BitVec.ofNat 64 t,none⟩

theorem realtime_never_hpet : ∃ clocks, clocksInit hpetParts 10 0 = .ok clocks ∧
    ¬RealtimeRight clocks ⟨1700000000#64,0#64⟩ 3 ⟨0#64,0#64⟩ := by
  obtain ⟨clocks,boots⟩ : ∃ clocks, clocksInit hpetParts 10 0 = .ok clocks := ⟨_,rfl⟩
  exact ⟨clocks,boots,realtime_never boots _ _ _⟩

def tscParts : ClockParts := { hpetParts with tsc := some fun t => BitVec.ofNat 64 t * 3000000000#64 }

/-- Three seconds after boot: there is a time stamp counter, and its `real` is called. -/
theorem realtime_calls_null : ∃ clocks source uptime, clocksInit tscParts 10 0 = .ok clocks ∧
    nsSinceBoot clocks 6 = .ok uptime ∧ uptime.toNat < 2^63 ∧
    getClockNumber clocks clockRealtime = some source ∧ source.real.isNone ∧
    doSysClockGettime clocks ⟨1700000000#64,0#64⟩ 6 clockRealtime ⟨0#64,0#64⟩ = .error .undefined ∧
    ¬RealtimeRight clocks ⟨1700000000#64,0#64⟩ 6 ⟨0#64,0#64⟩ := by
  obtain ⟨clocks,source,uptime,boots,since,small,found,null,stops⟩ : ∃ clocks source uptime,
      clocksInit tscParts 10 0 = .ok clocks ∧ nsSinceBoot clocks 6 = .ok uptime ∧ uptime.toNat < 2^63 ∧
      getClockNumber clocks clockRealtime = some source ∧ source.real.isNone ∧
      doSysClockGettime clocks ⟨1700000000#64,0#64⟩ 6 clockRealtime ⟨0#64,0#64⟩ = .error .undefined :=
    ⟨_,_,_,rfl,rfl,by decide,rfl,rfl,rfl⟩
  refine ⟨clocks,source,uptime,boots,since,small,found,null,stops,?_⟩
  rintro ⟨_,_,_,returns,_⟩
  rw [stops] at returns
  cases returns

end Reddyos
