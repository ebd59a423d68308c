import Mathlib.Tactic.IntervalCases
import Reddyos.Calendar
import Reddyos.Pmm

/-! The real-time clock of `time/clocks/rtc.c` and the day count of `helpers_time.h`. The CMOS
registers are a snapshot, as the loop of `rtc_init` takes two equal readings. -/
namespace Reddyos

open Calendar

/-- `IS_LEAP`. -/
def isLeap (year : Int) : Bool := year.tmod 4 = 0 ∧ year.tmod 100 ≠ 0 ∨ year.tmod 400 = 0

def daysInMonth : List Int := [31,28,31,30,31,30,31,31,30,31,30,31]

def yearLoop (year : Int) : Int :=
  (List.range (year - 1970).toNat).foldl (fun days (i : Nat) => days + if isLeap (1970 + i) then 366 else 365) 0

def monthRound (year days : Int) (i : Nat) : Except Stop Int :=
  if i + 1 = 2 ∧ isLeap year then return days + 29
  else match daysInMonth[i]? with
    | none => throw .undefined
    | some length => return days + length

def daysSinceEpoch (year month day : Int) : Except Stop Int := do
  let days ← (List.range (month - 1).toNat).foldlM (monthRound year) (yearLoop year)
  return days + (day - 1)

structure Timespec where
  sec : Int
  nsec : Int
  deriving DecidableEq, Repr

structure RtcReading where
  second : BitVec 32
  minute : BitVec 32
  hour : BitVec 32
  day : BitVec 32
  month : BitVec 32
  year : BitVec 32
  century : BitVec 32
  deriving DecidableEq, Repr

/-- A reading of the registers; there is no century register at 0. -/
def rtcRead (rcmos : BitVec 8 → BitVec 8) (centuryReg : BitVec 8) : RtcReading where
  second := (rcmos 0x00#8).setWidth 32
  minute := (rcmos 0x02#8).setWidth 32
  hour := (rcmos 0x04#8).setWidth 32
  day := (rcmos 0x07#8).setWidth 32
  month := (rcmos 0x08#8).setWidth 32
  year := (rcmos 0x09#8).setWidth 32
  century := if centuryReg = 0#8 then 20#32 else (rcmos centuryReg).setWidth 32

def fromBcd (x : BitVec 32) : BitVec 32 := (x &&& 0x0F#32) + x / 16#32 * 10#32

def fromBcdHour (hour : BitVec 32) : BitVec 32 :=
  ((hour &&& 0x0F#32) + (hour &&& 0x70#32) / 16#32 * 10#32) ||| (hour &&& 0x80#32)

/-- What follows the readings in `rtc_init`. Every register is a byte, so that the signs of
`year` and `century` do not matter. -/
def rtcDecode (statusB centuryReg : BitVec 8) (r : RtcReading) : RtcReading :=
  let r := if statusB &&& 0x04#8 = 0#8 then
      { second := fromBcd r.second, minute := fromBcd r.minute, hour := fromBcdHour r.hour, day := fromBcd r.day,
        month := fromBcd r.month, year := fromBcd r.year,
        century := if centuryReg = 0#8 then r.century else fromBcd r.century }
    else r
  if statusB &&& 0x02#8 = 0#8 ∧ r.hour &&& 0x80#32 ≠ 0#32 then
    { r with hour := ((r.hour &&& 0x7F#32) + 12#32) % 24#32 }
  else r

def rtcToTimespec (r : RtcReading) : Except Stop Timespec := do
  let fullYear := r.year.toInt + r.century.toInt * 100
  let days ← daysSinceEpoch fullYear r.month.toInt r.day.toInt
  return ⟨days * 86400 + r.hour.toNat * 3600 + r.minute.toNat * 60 + r.second.toNat,0⟩

def rtcInit (rcmos : BitVec 8 → BitVec 8) (centuryReg : BitVec 8) : Except Stop Timespec :=
  rtcToTimespec (rtcDecode (rcmos 0x0B#8) centuryReg (rtcRead rcmos centuryReg))

theorem isLeap_iff (year : Nat) : isLeap year = true ↔ Leap year := by
  have positive := Int.natCast_nonneg year
  simp only [isLeap,Leap,decide_eq_true_eq,Int.tmod_eq_emod_of_nonneg positive]
  omega

theorem yearLoop_eq {year : Nat} (later : 1970 ≤ year) : yearLoop year = (daysToYear year : Int) - daysToYear 1970 := by
  obtain ⟨n,rfl⟩ := Nat.exists_eq_add_of_le later
  have count : ((1970 + n : Nat) - 1970 : Int).toNat = n := by omega
  unfold yearLoop
  rw [count]
  clear count later
  induction n with
  | zero => simp
  | succ n ih =>
    have leap := isLeap_iff (1970 + n)
    have succ := daysToYear_succ (1970 + n)
    rw [List.range_succ,List.foldl_append,ih,List.foldl_cons,List.foldl_nil]
    push_cast at leap
    unfold yearDays at succ
    by_cases long : Leap (1970 + n)
    · rw [if_pos long] at succ
      rw [if_pos (leap.mpr long),show 1970 + (n + 1) = 1970 + n + 1 from rfl,succ]
      omega
    · rw [if_neg long] at succ
      rw [if_neg (mt leap.mp long),show 1970 + (n + 1) = 1970 + n + 1 from rfl,succ]
      omega

theorem monthRound_eq (year : Nat) (days : Int) (within : i < 12) :
    monthRound year days i = .ok (days + monthDays year (i + 1)) := by
  have leap := isLeap_iff year
  unfold monthRound
  by_cases long : Leap year
  · interval_cases i <;> simp [monthDays,leap.mpr long,long,daysInMonth,pure,Except.pure]
  · have short : isLeap year = false := by simpa using mt leap.mp long
    interval_cases i <;> simp [monthDays,short,long,daysInMonth,pure,Except.pure]

theorem monthLoop_eq (year : Nat) (days : Int) (within : month ≤ 12) :
    (List.range month).foldlM (monthRound year) days = .ok (days + daysToMonth year (month + 1)) := by
  induction month with
  | zero => simp [daysToMonth,pure,Except.pure]
  | succ month ih =>
    rw [List.range_succ,List.foldlM_append,ih (by omega)]
    change ([month].foldlM (monthRound year) _ : Except Stop Int) = _
    rw [List.foldlM_cons,monthRound_eq year _ (by omega),daysToMonth_succ (Nat.le_add_left 1 month)]
    simp [bind,Except.bind,pure,Except.pure]
    omega

/-- The loops count the days from the epoch on. -/
theorem daysSinceEpoch_eq {date : Date} (valid : date.Valid) (later : 1970 ≤ date.year) :
    daysSinceEpoch date.year date.month date.day = .ok ((date.number : Int) - (⟨1970,1,1⟩ : Date).number) := by
  have months : ((date.month : Int) - 1).toNat = date.month - 1 := by omega
  have back : date.month - 1 + 1 = date.month := by
    have := valid.month.1
    omega
  unfold daysSinceEpoch
  rw [months,monthLoop_eq _ _ (by have := valid.month.2; omega),yearLoop_eq later,back]
  change Except.ok _ = _
  congr 1
  have epoch : (⟨1970,1,1⟩ : Date).number = daysToYear 1970 + 1 := by
    simp [Date.number,daysToMonth]
  rw [epoch]
  simp only [Date.number]
  push_cast
  omega

theorem daysSinceEpoch_next {date : Date} (valid : date.Valid) (later : 1970 ≤ date.year)
    (days : daysSinceEpoch date.year date.month date.day = .ok count) :
    daysSinceEpoch date.next.year date.next.month date.next.day = .ok (count + 1) := by
  have after : 1970 ≤ date.next.year := by
    unfold Date.next
    split
    · exact later
    · split
      · exact later
      · exact Nat.le_succ_of_le later
  rw [daysSinceEpoch_eq valid later] at days
  obtain rfl := Except.ok.inj days
  rw [daysSinceEpoch_eq valid.next after,number_next valid]
  push_cast
  congr 1
  omega

theorem daysSinceEpoch_closed {date : Date} (valid : date.Valid) (later : 1970 ≤ date.year) :
    daysSinceEpoch date.year date.month date.day = .ok date.epochDay := by
  rw [daysSinceEpoch_eq valid later,number_closed valid (by omega)]

/-- The count of a day in a year that is an `int` is far from the limits of an `i64`. -/
theorem epochDay_bounds {date : Date} (valid : date.Valid) (later : 1970 ≤ date.year) (int : date.year < 2^31) :
    0 ≤ date.epochDay ∧ date.epochDay < 2^40 := by
  have first := daysToYear_mono later
  have last : daysToYear (date.year + 1) ≤ daysToYear (2^31) := daysToYear_mono int
  obtain ⟨month,year⟩ := valid.within
  have positive := valid.day.1
  have epoch : (⟨1970,1,1⟩ : Date).number = daysToYear 1970 + 1 := by decide
  have far : daysToYear (2^31) < 2^40 := by decide
  rw [daysToYear_succ] at last
  rw [number_closed valid (by omega),epoch,Date.number]
  omega

/-- The count is the closed form: zero at the epoch, one more on the next day, more on every later day. -/
theorem days_since_epoch_exact {date : Date} (valid : date.Valid) (later : 1970 ≤ date.year) :
    daysSinceEpoch date.year date.month date.day = .ok date.epochDay ∧ daysSinceEpoch 1970 1 1 = .ok 0 ∧
    daysSinceEpoch date.next.year date.next.month date.next.day = .ok (date.epochDay + 1) ∧
    ∀ date' : Date, date'.Valid → date.Before date' →
      ∃ count, daysSinceEpoch date'.year date'.month date'.day = .ok count ∧ date.epochDay < count := by
  have closed := daysSinceEpoch_closed valid later
  refine ⟨closed,rfl,daysSinceEpoch_next valid later closed,fun date' valid' before => ?_⟩
  have year : date.year ≤ date'.year := by
    rcases before with earlier | ⟨same,_⟩
    · exact Nat.le_of_lt earlier
    · exact Nat.le_of_eq same
  refine ⟨_,daysSinceEpoch_closed valid' (Nat.le_trans later year),?_⟩
  have numbers := number_lt valid valid' before
  rw [number_closed valid (by omega),number_closed valid' (by omega)]
  omega

/-- The leap day of a century year that is a leap year. -/
theorem days_since_epoch_exact_leap : daysSinceEpoch 2000 2 29 = .ok 11016 ∧ daysSinceEpoch 2000 3 1 = .ok 11017 := by
  have day := days_since_epoch_exact (show (⟨2000,2,29⟩ : Date).Valid from ⟨by decide,by decide⟩) (by decide)
  exact ⟨day.1,day.2.2.1⟩

structure CivilTime where
  date : Date
  hour : Nat
  minute : Nat
  second : Nat
  valid : date.Valid
  clock : hour < 24 ∧ minute < 60 ∧ second < 60

def unixTime (time : CivilTime) : Int :=
  ((time.date.number : Int) - (⟨1970,1,1⟩ : Date).number) * 86400 + time.hour * 3600 + time.minute * 60 + time.second

/-- A number of two digits in the format that bit 2 of status register B announces. -/
def registerByte (statusB : BitVec 8) (n : Nat) : BitVec 8 :=
  if statusB &&& 0x04#8 = 0#8 then BitVec.ofNat 8 (n / 10 * 16 + n % 10) else BitVec.ofNat 8 n

/-- The hour of a clock face: 12, 1, ..., 11. -/
def faceHour (hour : Nat) : Nat := if hour % 12 = 0 then 12 else hour % 12

/-- Bit 1 of status register B announces 24 hours; otherwise bit 7 of the hour stands for PM. -/
def hourByte (statusB : BitVec 8) (hour : Nat) : BitVec 8 :=
  if statusB &&& 0x02#8 = 0#8 then registerByte statusB (faceHour hour) ||| (if 12 ≤ hour then 0x80#8 else 0#8)
  else registerByte statusB hour

structure Displays (rcmos : BitVec 8 → BitVec 8) (centuryReg : BitVec 8) (time : CivilTime) : Prop where
  second : rcmos 0x00#8 = registerByte (rcmos 0x0B#8) time.second
  minute : rcmos 0x02#8 = registerByte (rcmos 0x0B#8) time.minute
  hour : rcmos 0x04#8 = hourByte (rcmos 0x0B#8) time.hour
  day : rcmos 0x07#8 = registerByte (rcmos 0x0B#8) time.date.day
  month : rcmos 0x08#8 = registerByte (rcmos 0x0B#8) time.date.month
  year : rcmos 0x09#8 = registerByte (rcmos 0x0B#8) (time.date.year % 100)
  century : centuryReg ≠ 0#8 → rcmos centuryReg = registerByte (rcmos 0x0B#8) (time.date.year / 100)
  absent : centuryReg = 0#8 → 2000 ≤ time.date.year ∧ time.date.year ≤ 2099

/-- The hour after decoding: noon and midnight of a clock face are exchanged. -/
def hourDecoded (statusB : BitVec 8) (hour : Nat) : Nat :=
  if statusB &&& 0x02#8 = 0#8 then (if hour = 0 then 12 else if hour = 12 then 0 else hour) else hour

variable {rcmos : BitVec 8 → BitVec 8} {centuryReg statusB : BitVec 8} {time : CivilTime} {n hour : Nat}

def decodeByte (statusB : BitVec 8) (x : BitVec 32) : BitVec 32 := if statusB &&& 0x04#8 = 0#8 then fromBcd x else x

theorem decodeByte_registerByte (small : n < 100) :
    decodeByte statusB ((registerByte statusB n).setWidth 32) = BitVec.ofNat 32 n := by
  unfold decodeByte registerByte
  split
  all_goals
    revert n
    decide

theorem hourDecoded_lt (small : hour < 24) : hourDecoded statusB hour < 24 := by
  unfold hourDecoded
  split
  · split
    · decide
    · split <;> omega
  · exact small

def decodeHour (statusB : BitVec 8) (hour : BitVec 32) : BitVec 32 :=
  let hour := if statusB &&& 0x04#8 = 0#8 then fromBcdHour hour else hour
  if statusB &&& 0x02#8 = 0#8 ∧ hour &&& 0x80#32 ≠ 0#32 then ((hour &&& 0x7F#32) + 12#32) % 24#32 else hour

theorem decodeHour_hourByte (small : hour < 24) :
    decodeHour statusB ((hourByte statusB hour).setWidth 32) = BitVec.ofNat 32 (hourDecoded statusB hour) := by
  unfold decodeHour hourByte registerByte hourDecoded
  by_cases bcd : statusB &&& 0x04#8 = 0#8 <;> by_cases half : statusB &&& 0x02#8 = 0#8
  all_goals
    simp only [bcd,half,true_and,false_and,if_true,if_false]
    clear bcd half
    revert hour
    decide

theorem rtcDecode_fields (r : RtcReading) :
    rtcDecode statusB centuryReg r =
      ⟨decodeByte statusB r.second,decodeByte statusB r.minute,decodeHour statusB r.hour,decodeByte statusB r.day,
        decodeByte statusB r.month,decodeByte statusB r.year,
        if centuryReg = 0#8 then r.century else decodeByte statusB r.century⟩ := by
  unfold rtcDecode decodeByte decodeHour
  by_cases bcd : statusB &&& 0x04#8 = 0#8
  · simp only [bcd,if_true]
    split <;> rfl
  · simp only [bcd,if_false,ite_self]
    split <;> rfl

theorem rtcDecode_eq (displays : Displays rcmos centuryReg time) (before : time.date.year ≤ 9999) :
    rtcDecode (rcmos 0x0B#8) centuryReg (rtcRead rcmos centuryReg) =
      ⟨BitVec.ofNat 32 time.second,BitVec.ofNat 32 time.minute,BitVec.ofNat 32 (hourDecoded (rcmos 0x0B#8) time.hour),
        BitVec.ofNat 32 time.date.day,BitVec.ofNat 32 time.date.month,BitVec.ofNat 32 (time.date.year % 100),
        BitVec.ofNat 32 (time.date.year / 100)⟩ := by
  have month := time.valid.month
  have day := time.valid.day
  have short := monthDays_le time.date.year time.date.month
  have clock := time.clock
  rw [rtcDecode_fields]
  simp only [rtcRead,displays.second,displays.minute,displays.hour,displays.day,displays.month,displays.year]
  rw [decodeByte_registerByte (by omega),decodeByte_registerByte (by omega),decodeHour_hourByte (by omega),
    decodeByte_registerByte (by omega),decodeByte_registerByte (by omega),decodeByte_registerByte (by omega)]
  by_cases absent : centuryReg = 0#8
  · have years := displays.absent absent
    simp only [absent,if_true]
    rw [show time.date.year / 100 = 20 by omega]
  · simp only [absent,if_false]
    rw [displays.century absent,decodeByte_registerByte (by omega)]

theorem toInt_ofNat_small (small : n < 2^31) : (BitVec.ofNat 32 n).toInt = n := by
  rw [BitVec.toInt_eq_toNat_of_lt] <;> rw [BitVec.toNat_ofNat,Nat.mod_eq_of_lt (by omega)]
  omega

/-- Only the hour can be wrong. -/
theorem rtcInit_eq (displays : Displays rcmos centuryReg time) (later : 1970 ≤ time.date.year)
    (before : time.date.year ≤ 9999) :
    rtcInit rcmos centuryReg =
      .ok ⟨unixTime time + ((hourDecoded (rcmos 0x0B#8) time.hour : Int) - time.hour) * 3600,0⟩ := by
  have month := time.valid.month
  have day := time.valid.day
  have short := monthDays_le time.date.year time.date.month
  have clock := time.clock
  have hour : hourDecoded (rcmos 0x0B#8) time.hour < 24 := hourDecoded_lt clock.1
  have whole : ((time.date.year % 100 : Nat) : Int) + (time.date.year / 100 : Nat) * 100 = time.date.year := by omega
  unfold rtcInit rtcToTimespec
  rw [rtcDecode_eq displays before]
  dsimp only
  rw [toInt_ofNat_small (by omega),toInt_ofNat_small (by omega),toInt_ofNat_small (by omega),
    toInt_ofNat_small (by omega),whole,daysSinceEpoch_eq time.valid later]
  change Except.ok (Timespec.mk _ _) = _
  simp only [BitVec.toNat_ofNat]
  rw [Nat.mod_eq_of_lt (by omega),Nat.mod_eq_of_lt (by omega),Nat.mod_eq_of_lt (by omega)]
  unfold unixTime
  congr 2
  omega

/-- The registers at a time; the century register is 0x32. -/
def registersAt (statusB : BitVec 8) (time : CivilTime) : BitVec 8 → BitVec 8
  | 0x00#8 => registerByte statusB time.second
  | 0x02#8 => registerByte statusB time.minute
  | 0x04#8 => hourByte statusB time.hour
  | 0x07#8 => registerByte statusB time.date.day
  | 0x08#8 => registerByte statusB time.date.month
  | 0x09#8 => registerByte statusB (time.date.year % 100)
  | 0x0B#8 => statusB
  | 0x32#8 => registerByte statusB (time.date.year / 100)
  | _ => 0#8

theorem registersAt_displays (statusB : BitVec 8) (time : CivilTime) :
    Displays (registersAt statusB time) 0x32#8 time :=
  ⟨rfl,rfl,rfl,rfl,rfl,rfl,fun _ => rfl,nofun⟩

def afterNoon : CivilTime := ⟨⟨2024,5,17⟩,12,30,0,⟨by decide,by decide⟩,by decide⟩

/-- The clock is read right unless it counts 12 hours and it is between midnight and one o'clock
or between noon and one. -/
theorem rtc_unix_time (displays : Displays rcmos centuryReg time) (later : 1970 ≤ time.date.year)
    (before : time.date.year ≤ 9999) :
    rtcInit rcmos centuryReg = .ok ⟨unixTime time,0⟩ ↔
      rcmos 0x0B#8 &&& 0x02#8 ≠ 0#8 ∨ (time.hour ≠ 0 ∧ time.hour ≠ 12) := by
  rw [rtcInit_eq displays later before,Except.ok.injEq,Timespec.mk.injEq]
  unfold hourDecoded
  by_cases half : rcmos 0x0B#8 &&& 0x02#8 = 0#8
  · simp only [half,if_true,ne_eq,not_true,false_or,and_true]
    split
    · omega
    · split <;> omega
  · simp [half]

/-- In BCD and 12 hours, half past noon is read as half past midnight. -/
theorem rtc_noon : Displays (registersAt 0x00#8 afterNoon) 0x32#8 afterNoon ∧
    rtcInit (registersAt 0x00#8 afterNoon) 0x32#8 = .ok ⟨unixTime afterNoon - 12 * 3600,0⟩ ∧
    rtcInit (registersAt 0x00#8 afterNoon) 0x32#8 ≠ .ok ⟨unixTime afterNoon,0⟩ := by
  refine ⟨registersAt_displays _ _,?_,?_⟩ <;>
    rw [rtcInit_eq (registersAt_displays _ _) (by decide) (by decide)]
  · rfl
  · simp [hourDecoded,registersAt,afterNoon]

/-- The same time with 24 hours. -/
theorem rtc_unix_time_afternoon : rtcInit (registersAt 0x02#8 afterNoon) 0x32#8 = .ok ⟨unixTime afterNoon,0⟩ :=
  (rtc_unix_time (registersAt_displays _ _) (by decide) (by decide)).mpr (.inl (by decide))

end Reddyos
