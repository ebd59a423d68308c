import Mathlib.Data.Nat.Digits.Lemmas
import Reddyos.FileCalls

/-! How numbers are printed: `c_generic/itoa.c` and the loops of `kernel_common/terminal.c`. -/
namespace Reddyos

/-- `digits` of `itoa.c` and of `terminal_write_hex_u64`. -/
def digits : List (BitVec 8) := (List.range 16).map fun d => hexDigit (BitVec.ofNat 8 d)

/-- `while (value)`: what lies in `tmp`, which has room for `slots` more. Without room, or with a base that does
not make the value smaller, the loop leaves the array. -/
def itoaLoop (base : Nat) : Nat → Nat → Except Stop (List (BitVec 8))
  | 0, value => if value = 0 then return [] else throw .undefined
  | slots + 1, value =>
    if value = 0 then return []
    else
      match digits[value % base]? with
      | none => throw .undefined
      | some digit => do
        let rest ← itoaLoop base slots (value / base)
        return digit :: rest

def itoa (value : U64) (base : Nat) : Except Stop CString :=
  if value = 0#64 then return [0x30#8]
  else if base = 0 then throw .undefined
  else do
    let tmp ← itoaLoop base 65 value.toNat
    return tmp.reverse

/-- `while (value > 0 && i < sizeof(buffer))`. -/
def decimalLoop : Nat → Nat → List (BitVec 8)
  | 0, _ => []
  | slots + 1, value => if 0 < value then BitVec.ofNat 8 (0x30 + value % 10) :: decimalLoop slots (value / 10) else []

/-- `terminal_write_u64` and `terminal_write_u8`, which differ in the size of `buffer`. -/
def terminalWriteDecimal (size value : Nat) : CString :=
  if value = 0 then [0x30#8] else (decimalLoop size value).reverse

/-- `terminal_write_hex_u64` and `terminal_write_hex_u8` behind the prefix, with the nibbles that are left. -/
def hexLoop (value : U64) : Nat → CString
  | 0 => []
  | nibbles + 1 => hexDigit (((value >>> (4 * nibbles)) &&& 0xF#64).setWidth 8) :: hexLoop value nibbles

def terminalWriteHex (nibbles : Nat) (value : U64) : CString := 0x30#8 :: 0x78#8 :: hexLoop value nibbles

def digitValue (digit : BitVec 8) : Nat :=
  if digit.toNat < 0x61 then digit.toNat - 0x30 else digit.toNat - 0x61 + 10

def numeralFrom (base : Nat) (start : Nat) (text : CString) : Nat :=
  text.foldl (fun value digit => value * base + digitValue digit) start

def numeral (base : Nat) (text : CString) : Nat := numeralFrom base 0 text

/-- A text in the digits of a base that reads back as a number. -/
structure IsNumeral (base : Nat) (text : CString) (value : Nat) : Prop where
  value : numeral base text = value
  digits : ∀ c ∈ text, c ∈ digits.take base

variable {base slots value nibbles : Nat} {text : CString} {w : U64}

theorem digitValue_hexDigit : ∀ d < 16, digitValue (hexDigit (BitVec.ofNat 8 d)) = d := by decide

theorem digits_get {d : Nat} (low : d < 16) : digits[d]? = some (hexDigit (BitVec.ofNat 8 d)) := by
  simp [digits,low]

theorem digits_mem {d : Nat} (low : d < base) (high : base ≤ 16) : hexDigit (BitVec.ofNat 8 d) ∈ digits.take base := by
  unfold digits
  rw [← List.map_take,List.take_range,Nat.min_eq_left high]
  exact List.mem_map_of_mem (List.mem_range.mpr low)

/-- Digits as they are found, the lowest first. -/
theorem numeral_reverse (ds : List Nat) (low : ∀ d ∈ ds, d < 16) :
    numeral base (ds.map fun d => hexDigit (BitVec.ofNat 8 d)).reverse = Nat.ofDigits base ds := by
  unfold numeral numeralFrom
  rw [List.foldl_reverse]
  induction ds with
  | nil => rfl
  | cons d ds ih =>
    rw [List.map_cons,List.foldr_cons,ih fun e member => low e (List.mem_cons_of_mem _ member),
      digitValue_hexDigit d (low d List.mem_cons_self),Nat.ofDigits_cons]
    ring

theorem itoaLoop_eq (low : 1 < base) (high : base ≤ 16) (fits : value < base ^ slots) :
    itoaLoop base slots value = .ok ((base.digits value).map fun d => hexDigit (BitVec.ofNat 8 d)) := by
  induction slots generalizing value with
  | zero =>
    obtain rfl : value = 0 := by simpa using fits
    simp [itoaLoop]
    rfl
  | succ slots ih =>
    unfold itoaLoop
    by_cases zero : value = 0
    · subst zero
      simp
      rfl
    · have smaller : value / base < base ^ slots := Nat.div_lt_of_lt_mul (by rwa [pow_succ,mul_comm] at fits)
      have digit : value % base < 16 := lt_of_lt_of_le (Nat.mod_lt _ (by omega)) high
      have split : base.digits value = value % base :: base.digits (value / base) :=
        Nat.digits_def' low (Nat.pos_of_ne_zero zero)
      rw [if_neg zero,digits_get digit,split]
      dsimp only
      rw [ih smaller]
      rfl

theorem decimalLoop_eq (fits : value < 10 ^ slots) :
    decimalLoop slots value = (Nat.digits 10 value).map fun d => hexDigit (BitVec.ofNat 8 d) := by
  induction slots generalizing value with
  | zero =>
    obtain rfl : value = 0 := by omega
    simp [decimalLoop]
  | succ slots ih =>
    unfold decimalLoop
    by_cases zero : value = 0
    · subst zero
      simp
    · have decimal : ∀ d < 10, BitVec.ofNat 8 (0x30 + d) = hexDigit (BitVec.ofNat 8 d) := by decide
      have split : Nat.digits 10 value = value % 10 :: Nat.digits 10 (value / 10) :=
        Nat.digits_def' (by decide) (Nat.pos_of_ne_zero zero)
      rw [if_pos (Nat.pos_of_ne_zero zero),ih (Nat.div_lt_of_lt_mul (by rwa [pow_succ,mul_comm] at fits)),split,
        decimal _ (Nat.mod_lt _ (by decide))]
      rfl

theorem hexLoop_numeral (w : U64) (nibbles start : Nat) :
    numeralFrom 16 start (hexLoop w nibbles) = start * 16 ^ nibbles + w.toNat % 16 ^ nibbles := by
  induction nibbles generalizing start with
  | zero => simp [hexLoop,numeralFrom,Nat.mod_one]
  | succ nibbles ih =>
    have nibble : ((w >>> (4 * nibbles)) &&& 0xF#64).setWidth 8 = BitVec.ofNat 8 (w.toNat / 16 ^ nibbles % 16) := by
      refine BitVec.eq_of_toNat_eq ?_
      have masked : ((w >>> (4 * nibbles)) &&& 0xF#64).toNat = (w >>> (4 * nibbles)).toNat % 16 :=
        Words.toNat_and_low _ 4 (by decide)
      rw [BitVec.toNat_setWidth,masked,BitVec.toNat_ushiftRight,Nat.shiftRight_eq_div_pow,pow_mul,BitVec.toNat_ofNat]
      rfl
    change numeralFrom 16 (start * 16 + digitValue (hexDigit _)) (hexLoop w nibbles) = _
    rw [nibble,digitValue_hexDigit _ (Nat.mod_lt _ (by decide)),ih,Nat.mod_pow_succ]
    ring

theorem hexLoop_length (w : U64) (nibbles : Nat) : (hexLoop w nibbles).length = nibbles := by
  induction nibbles with
  | zero => rfl
  | succ nibbles ih => exact congrArg Nat.succ ih

theorem hexLoop_digits (w : U64) (nibbles : Nat) : ∀ c ∈ hexLoop w nibbles, c ∈ digits.take 16 := by
  induction nibbles with
  | zero => exact fun _ none => absurd none List.not_mem_nil
  | succ nibbles ih =>
    intro c member
    rcases List.mem_cons.mp member with rfl | later
    · have masked : ((w >>> (4 * nibbles)) &&& 0xF#64).toNat = (w >>> (4 * nibbles)).toNat % 16 :=
        Words.toNat_and_low _ 4 (by decide)
      have nibble : ((w >>> (4 * nibbles)) &&& 0xF#64).setWidth 8 = BitVec.ofNat 8 ((w >>> (4 * nibbles)).toNat % 16) := by
        apply BitVec.eq_of_toNat_eq
        rw [BitVec.toNat_setWidth,masked,BitVec.toNat_ofNat]
      rw [nibble]
      exact digits_mem (Nat.mod_lt _ (by decide)) (by decide)
    · exact ih c later

theorem hexLoop_isNumeral (fits : w.toNat < 16 ^ nibbles) : IsNumeral 16 (hexLoop w nibbles) w.toNat := by
  refine ⟨?_,hexLoop_digits w nibbles⟩
  change numeralFrom 16 0 (hexLoop w nibbles) = _
  rw [hexLoop_numeral,Nat.zero_mul,Nat.zero_add,Nat.mod_eq_of_lt fits]

/-- The numerals of the core library, in the order in which they are printed. -/
theorem toDigits_eq (value : Nat) (positive : 0 < value) : (Nat.toDigits 10 value).map (fun d => BitVec.ofNat 8 d.toNat) =
    ((Nat.digits 10 value).map fun d => hexDigit (BitVec.ofNat 8 d)).reverse := by
  have digit : ∀ d < 10, BitVec.ofNat 8 (Nat.digitChar d).toNat = hexDigit (BitVec.ofNat 8 d) := by decide
  induction value using Nat.strongRecOn with
  | ind value ih =>
    have split : Nat.digits 10 value = value % 10 :: Nat.digits 10 (value / 10) := Nat.digits_def' (by decide) positive
    rw [Nat.toDigits_eq_if (by decide),split]
    by_cases small : value < 10
    · rw [if_pos small,Nat.mod_eq_of_lt small,Nat.div_eq_of_lt small]
      simp [digit value small]
    · rw [if_neg small,List.map_append,ih (value / 10) (by omega) (by omega)]
      simp [digit (value % 10) (Nat.mod_lt _ (by decide))]

/-- What is written can be read again. -/
structure NumeralsOk (base : Nat) (w : U64) : Prop where
  itoa : ∃ text, itoa w base = .ok text ∧ IsNumeral base text w.toNat ∧ text.length ≤ 64 ∧
    (text.head? = some 0x30#8 → w = 0#64)
  decimal : terminalWriteDecimal 21 w.toNat = terminalWriteU64 w ∧ IsNumeral 10 (terminalWriteU64 w) w.toNat ∧
    ((terminalWriteU64 w).head? = some 0x30#8 → w = 0#64)
  byte : w.toNat < 256 → terminalWriteDecimal 4 w.toNat = terminalWriteU64 w
  hex : ∃ text, terminalWriteHex 16 w = 0x30#8 :: 0x78#8 :: text ∧ text.length = 16 ∧ IsNumeral 16 text w.toNat
  hexByte : ∀ c : BitVec 8, terminalWriteHex 2 (c.setWidth 64) = terminalWriteHexU8 c ∧
    ∃ text, terminalWriteHexU8 c = 0x30#8 :: 0x78#8 :: text ∧ text.length = 2 ∧ IsNumeral 16 text c.toNat

theorem terminalWriteDecimal_eq {size : Nat} (fits : w.toNat < 10 ^ size) :
    terminalWriteDecimal size w.toNat = terminalWriteU64 w := by
  unfold terminalWriteDecimal terminalWriteU64
  by_cases zero : w.toNat = 0
  · rw [if_pos zero,zero]
    rfl
  · rw [if_neg zero,decimalLoop_eq fits]
    exact (toDigits_eq _ (Nat.pos_of_ne_zero zero)).symm

theorem digits_low (low : 1 < base) (high : base ≤ 16) : ∀ d ∈ base.digits value, d < 16 :=
  fun _ member => lt_of_lt_of_le (Nat.digits_lt_base low member) high

theorem digits_isNumeral (low : 1 < base) (high : base ≤ 16) (value : Nat) :
    IsNumeral base ((base.digits value).map fun d => hexDigit (BitVec.ofNat 8 d)).reverse value := by
  refine ⟨by rw [numeral_reverse _ (digits_low low high),Nat.ofDigits_digits],fun c member => ?_⟩
  obtain ⟨d,listed,rfl⟩ := List.mem_map.mp (List.mem_reverse.mp member)
  exact digits_mem (Nat.digits_lt_base low listed) high

theorem zero_isNumeral (low : 1 < base) (high : base ≤ 16) : IsNumeral base [0x30#8] 0 := by
  refine ⟨by simp [numeral,numeralFrom,digitValue],fun c member => ?_⟩
  obtain rfl := List.mem_singleton.mp member
  exact digits_mem (d := 0) (by omega) high

theorem digits_head (low : 1 < base) (high : base ≤ 16) (zero : value ≠ 0) :
    ((base.digits value).map fun d => hexDigit (BitVec.ofNat 8 d)).reverse.head? ≠ some 0x30#8 := by
  have other : ∀ d < 16, d ≠ 0 → hexDigit (BitVec.ofNat 8 d) ≠ 0x30#8 := by decide
  have some : base.digits value ≠ [] := Nat.digits_ne_nil_iff_ne_zero.mpr zero
  rw [List.head?_reverse,List.getLast?_map,List.getLast?_eq_getLast_of_ne_nil some]
  intro same
  exact other _ (digits_low low high _ (List.getLast_mem some)) (Nat.getLast_digit_ne_zero base zero) (Option.some.inj same)

theorem terminalWriteHex_byte (c : BitVec 8) : terminalWriteHex 2 (c.setWidth 64) = terminalWriteHexU8 c := by
  have value : (c.setWidth 64).toNat = c.toNat := BitVec.toNat_setWidth_of_le (by decide)
  have nibble : ∀ w : U64, ((w &&& 0xF#64).setWidth 8).toNat = w.toNat % 16 := by
    intro w
    have masked : (w &&& 0xF#64).toNat = w.toNat % 16 := Words.toNat_and_low _ 4 (by decide)
    rw [BitVec.toNat_setWidth,masked]
    omega
  have high : ((c.setWidth 64 >>> 4) &&& 0xF#64).setWidth 8 = c >>> 4 := by
    apply BitVec.eq_of_toNat_eq
    rw [nibble,BitVec.toNat_ushiftRight,BitVec.toNat_ushiftRight,value,Nat.shiftRight_eq_div_pow]
    have := c.isLt
    omega
  have low : ((c.setWidth 64 >>> 0) &&& 0xF#64).setWidth 8 = c &&& 0xF#8 := by
    have masked : (c &&& 0xF#8).toNat = c.toNat % 16 := by
      rw [BitVec.toNat_and]
      exact Nat.and_two_pow_sub_one_eq_mod _ 4
    apply BitVec.eq_of_toNat_eq
    rw [nibble,BitVec.ushiftRight_zero,value,masked]
  unfold terminalWriteHex terminalWriteHexU8
  rw [hexLoop,hexLoop,hexLoop,high,low]

theorem terminalWriteU64_isNumeral (w : U64) : IsNumeral 10 (terminalWriteU64 w) w.toNat ∧
    ((terminalWriteU64 w).head? = some 0x30#8 → w = 0#64) := by
  unfold terminalWriteU64
  by_cases zero : w = 0#64
  · subst zero
    exact ⟨zero_isNumeral (by decide) (by decide),fun _ => rfl⟩
  · have positive : w.toNat ≠ 0 := fun none => zero (BitVec.toNat_inj.mp none)
    rw [toDigits_eq _ (Nat.pos_of_ne_zero positive)]
    exact ⟨digits_isNumeral (by decide) (by decide) _,fun leads => absurd leads (digits_head (by decide) (by decide) positive)⟩

/-- Every number in every base from 2 to 16 is written so that it can be read, within the buffers. -/
theorem numerals (low : 1 < base) (high : base ≤ 16) (w : U64) : NumeralsOk base w := by
  have bound : ∀ slots, 64 ≤ slots → w.toNat < base ^ slots := fun slots enough =>
    calc w.toNat < 2 ^ 64 := w.isLt
      _ ≤ 2 ^ slots := Nat.pow_le_pow_right (by decide) enough
      _ ≤ base ^ slots := Nat.pow_le_pow_left low slots
  refine ⟨?_,⟨terminalWriteDecimal_eq (lt_of_lt_of_le w.isLt (by decide)),terminalWriteU64_isNumeral w⟩,
    fun small => terminalWriteDecimal_eq (lt_of_lt_of_le small (by decide)),
    ⟨hexLoop w 16,rfl,hexLoop_length w 16,hexLoop_isNumeral w.isLt⟩,fun c => ?_⟩
  · by_cases zero : w = 0#64
    · subst zero
      exact ⟨[0x30#8],rfl,zero_isNumeral low high,by decide,fun _ => rfl⟩
    · have positive : w.toNat ≠ 0 := fun none => zero (BitVec.toNat_inj.mp none)
      refine ⟨_,?_,digits_isNumeral low high w.toNat,?_,fun leads => absurd leads (digits_head low high positive)⟩
      · rw [itoa,if_neg zero,if_neg (by omega),itoaLoop_eq low high (bound 65 (by decide))]
        rfl
      · rw [List.length_reverse,List.length_map]
        exact (Nat.digits_length_le_iff low _).mpr (bound 64 (le_refl _))
  · have value : (c.setWidth 64).toNat = c.toNat := BitVec.toNat_setWidth_of_le (by decide)
    have fits : (c.setWidth 64).toNat < 16 ^ 2 := by
      rw [value]
      exact c.isLt
    have reads := hexLoop_isNumeral fits
    rw [value] at reads
    rw [← terminalWriteHex_byte c]
    exact ⟨rfl,_,rfl,hexLoop_length _ 2,reads⟩

theorem numerals_max : NumeralsOk 2 0xFFFFFFFFFFFFFFFF#64 := numerals (by decide) (by decide) _

end Reddyos
