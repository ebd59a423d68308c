import Mathlib.Data.List.Lex
import Reddyos.Vfs
import Reddyos.ByteMemory

/-! The loops of `c_generic/gcc_mem.c` and `c_generic/string.c`, and that they leave the bytes which `ByteMemory`
and the lists of the other modules speak of. A pointer that wraps around is undefined in C: addresses are
numbers. -/
namespace Reddyos

open ByteMemory

def setByte (m : Mem) (a : Nat) (value : BitVec 8) : Mem := Function.update m a value

def copyUp (m : Mem) (dest src : Nat) : Nat → Mem
  | 0 => m
  | n + 1 =>
    let m := copyUp m dest src n
    setByte m (dest + n) (m (src + n))

def copyDown (m : Mem) (dest src : Nat) : Nat → Mem
  | 0 => m
  | n + 1 => copyDown (setByte m (dest + n) (m (src + n))) dest src n

def memcpy (m : Mem) (dest src n : Nat) : Nat × Mem := (dest,copyUp m dest src n)

def memsetLoop (m : Mem) (p : Nat) (c : BitVec 32) : Nat → Mem
  | 0 => m
  | n + 1 => setByte (memsetLoop m p c n) (p + n) (c.setWidth 8)

def memset (m : Mem) (s : Nat) (c : BitVec 32) (n : Nat) : Except Stop (Nat × Mem) :=
  if s = 0 then throw (.panic "BAD MEMSET") else return (s,memsetLoop m s c n)

def memmove (m : Mem) (dest src n : Nat) : Nat × Mem :=
  if dest < src then (dest,copyUp m dest src n)
  else if src < dest then (dest,copyDown m dest src n)
  else (dest,m)

def memcmp (m : Mem) (s1 s2 : Nat) : Nat → Int
  | 0 => 0
  | n + 1 => if m s1 ≠ m s2 then (if m s1 < m s2 then -1 else 1) else memcmp m (s1 + 1) (s2 + 1) n

/-- `fuel` exceeds the length of the string, here and below. -/
def strlenFrom (m : Mem) (str : Nat) : Nat → Nat → Except Stop Nat
  | 0, _ => throw .looping
  | fuel + 1, len => if m (str + len) ≠ 0#8 then strlenFrom m str fuel (len + 1) else return len

def strlen (m : Mem) (fuel str : Nat) : Except Stop Nat := strlenFrom m str fuel 0

def strcpyLoop (m : Mem) : Nat → Nat → Nat → Except Stop Mem
  | 0, _, _ => throw .looping
  | fuel + 1, dest, src =>
    let c := m src
    let m := setByte m dest c
    if c ≠ 0#8 then strcpyLoop m fuel (dest + 1) (src + 1) else return m

def strcpy (m : Mem) (fuel dest src : Nat) : Except Stop (Nat × Mem) := do
  let m ← strcpyLoop m fuel dest src
  return (dest,m)

def strcmp (m : Mem) : Nat → Nat → Nat → Except Stop Int
  | 0, _, _ => throw .looping
  | fuel + 1, a, b =>
    if m a ≠ 0#8 ∧ m a = m b then strcmp m fuel (a + 1) (b + 1)
    else return ((m a).toNat : Int) - (m b).toNat

/-- `none` stands for `NULL`. -/
def strchr (m : Mem) (c : BitVec 32) : Nat → Nat → Except Stop (Option Nat)
  | 0, _ => throw .looping
  | fuel + 1, s =>
    let ch := c.setWidth 8
    if m s ≠ 0#8 then if m s = ch then return some s else strchr m c fuel (s + 1)
    else if ch = 0#8 then return some s else return none

/-- The first loop of `strncpy` with `n` rounds at most, and the index that it stops at. -/
def strncpyCopy (m : Mem) (dest src : Nat) : Nat → Nat → Nat × Mem
  | 0, i => (i,m)
  | n + 1, i => if m (src + i) ≠ 0#8 then strncpyCopy (setByte m (dest + i) (m (src + i))) dest src n (i + 1) else (i,m)

def strncpyPad (m : Mem) (dest : Nat) : Nat → Nat → Mem
  | 0, _ => m
  | n + 1, i => strncpyPad (setByte m (dest + i) 0#8) dest n (i + 1)

def strncpy (m : Mem) (dest src n : Nat) : Nat × Mem :=
  let (i,m) := strncpyCopy m dest src n 0
  (dest,strncpyPad m dest (n - i) i)

/-- A string and the NUL behind it. -/
def HoldsString (m : Mem) : Nat → CString → Prop
  | a, [] => m a = 0#8
  | a, c :: s => m a = c ∧ c ≠ 0#8 ∧ HoldsString m (a + 1) s

instance decidableHoldsString (m : Mem) : ∀ a s, Decidable (HoldsString m a s)
  | a, [] => inferInstanceAs (Decidable (m a = 0#8))
  | a, _ :: s => @instDecidableAnd _ _ _ (@instDecidableAnd _ _ _ (decidableHoldsString m (a + 1) s))

variable {m m' : Mem} {a b dest src n i fuel : Nat} {s t : CString}

theorem setByte_copy {data : Nat → BitVec 8} : setByte (copy m dest data n) (dest + n) (data n) = copy m dest data (n + 1) := by
  funext b
  unfold setByte copy
  by_cases here : b = dest + n
  · subst here
    simp
  · rw [Function.update_of_ne here]
    have : dest ≤ b ∧ b < dest + n ↔ dest ≤ b ∧ b < dest + (n + 1) := by omega
    simp only [this]

/-- Upwards no byte is overwritten before it is read, unless the destination begins inside the source. -/
theorem copyUp_eq (order : dest ≤ src ∨ src + n ≤ dest) : copyUp m dest src n = copy m dest (fun i => m (src + i)) n := by
  induction n with
  | zero =>
    funext b
    simp [copyUp,copy]
  | succ n ih =>
    unfold copyUp
    dsimp only
    rw [ih (by omega),copy_outside (by omega)]
    exact setByte_copy

/-- Downwards none is, unless the source begins inside the destination. -/
theorem copyDown_eq (order : src ≤ dest) : copyDown m dest src n = copy m dest (fun i => m (src + i)) n := by
  induction n generalizing m with
  | zero =>
    funext b
    simp [copyDown,copy]
  | succ n ih =>
    unfold copyDown
    rw [ih]
    funext b
    unfold copy setByte
    by_cases inside : dest ≤ b ∧ b < dest + n
    · rw [if_pos inside,if_pos (by omega)]
      exact Function.update_of_ne (by omega) _ _
    · rw [if_neg inside]
      by_cases last : b = dest + n
      · rw [last,Function.update_self,if_pos (by omega),Nat.add_sub_cancel_left]
      · rw [Function.update_of_ne last,if_neg (by omega)]

theorem memsetLoop_eq (value : BitVec 32) : memsetLoop m dest value n = fill m dest (value.setWidth 8) n := by
  induction n with
  | zero =>
    funext b
    simp [memsetLoop,fill,copy]
  | succ n ih =>
    unfold memsetLoop
    rw [ih]
    exact setByte_copy

theorem copy_self : copy m dest (fun i => m (dest + i)) n = m := by
  funext b
  unfold copy
  split
  · rename_i inside
    exact congrArg m (by omega)
  · rfl

theorem memmove_eq : memmove m dest src n = (dest,copy m dest (fun i => m (src + i)) n) := by
  unfold memmove
  by_cases below : dest < src
  · rw [if_pos below,copyUp_eq (.inl (by omega))]
  · rw [if_neg below]
    by_cases above : src < dest
    · rw [if_pos above,copyDown_eq (by omega)]
    · obtain rfl : dest = src := by omega
      rw [if_neg above,copy_self]

/-- The first difference decides. -/
structure Compared (m : Mem) (s1 s2 n : Nat) (result : Int) : Prop where
  same : result = 0 ↔ ∀ i < n, m (s1 + i) = m (s2 + i)
  below : result < 0 ↔ ∃ i < n, (∀ j < i, m (s1 + j) = m (s2 + j)) ∧ m (s1 + i) < m (s2 + i)

theorem memcmp_compared {s1 s2 : Nat} : Compared m s1 s2 n (memcmp m s1 s2 n) := by
  induction n generalizing s1 s2 with
  | zero => exact ⟨by simp [memcmp],by simp [memcmp]⟩
  | succ n ih =>
    unfold memcmp
    by_cases first : m s1 = m s2
    · rw [if_neg (not_not.mpr first)]
      have shift : ∀ s j : Nat, s + 1 + j = s + (j + 1) := fun s j => by omega
      obtain ⟨same,below⟩ := @ih (s1 + 1) (s2 + 1)
      simp only [shift] at same below
      refine ⟨same.trans ⟨fun all => ?_,fun all i low => all (i + 1) (by omega)⟩,below.trans ⟨?_,?_⟩⟩
      · rintro (_ | i) low
        · exact first
        · exact all i (by omega)
      · rintro ⟨i,low,equal,less⟩
        refine ⟨i + 1,by omega,?_,less⟩
        rintro (_ | j) under
        · exact first
        · exact equal j (by omega)
      · rintro ⟨_ | i,low,equal,less⟩
        · exact absurd less (by rw [Nat.add_zero,Nat.add_zero,first]; exact BitVec.lt_irrefl _)
        · exact ⟨i,by omega,fun j under => equal (j + 1) (by omega),less⟩
    · rw [if_pos first]
      by_cases less : m s1 < m s2
      · rw [if_pos less]
        exact ⟨iff_of_false (by decide) fun all => first (all 0 (by omega)),
          iff_of_true (by decide) ⟨0,by omega,fun j under => absurd under (by omega),less⟩⟩
      · rw [if_neg less]
        refine ⟨iff_of_false (by decide) fun all => first (all 0 (by omega)),iff_of_false (by decide) ?_⟩
        rintro ⟨_ | i,low,equal,smaller⟩
        · exact less smaller
        · exact first (equal 0 (by omega))

/-- `memmove` moves what was in the source before it began, however the blocks overlap; `memcpy` does the same
where they do not, and also where the destination begins first. -/
theorem memory_functions (m : Mem) (dest src n : Nat) :
    memmove m dest src n = (dest,copy m dest (fun i => m (src + i)) n) ∧
      (dest ≤ src ∨ src + n ≤ dest → memcpy m dest src n = memmove m dest src n) ∧
      (∀ c, dest ≠ 0 → memset m dest c n = .ok (dest,fill m dest (c.setWidth 8) n)) ∧
      Compared m dest src n (memcmp m dest src n) := by
  refine ⟨memmove_eq,fun order => ?_,fun c live => ?_,memcmp_compared⟩
  · rw [memmove_eq,memcpy,copyUp_eq order]
  · rw [memset,if_neg live,memsetLoop_eq]
    rfl

theorem HoldsString.congr (string : HoldsString m a s) (same : ∀ i ≤ s.length, m' (b + i) = m (a + i)) : HoldsString m' b s := by
  induction s generalizing a b with
  | nil => exact (same 0 (Nat.zero_le _)).trans string
  | cons c s ih =>
    have shift : ∀ x j : Nat, x + 1 + j = x + (j + 1) := fun x j => by omega
    refine ⟨(same 0 (Nat.zero_le _)).trans string.1,string.2.1,ih string.2.2 fun i low => ?_⟩
    rw [shift,shift]
    exact same (i + 1) (by rw [List.length_cons]; omega)

theorem HoldsString.ends (string : HoldsString m a s) : m (a + s.length) = 0#8 := by
  induction s generalizing a with
  | nil => exact string
  | cons c s ih =>
    rw [List.length_cons,show a + (s.length + 1) = a + 1 + s.length by omega]
    exact ih string.2.2

theorem HoldsString.byte (string : HoldsString m a s) (i : Nat) :
    (if i < s.length then m (a + i) else 0#8) = s.getD i 0#8 := by
  induction s generalizing a i with
  | nil => simp
  | cons c s ih =>
    cases i with
    | zero => simpa using string.1
    | succ i =>
      have later := ih string.2.2 i
      rw [List.length_cons,List.getD_cons_succ,← later,show a + (i + 1) = a + 1 + i by omega]
      simp only [Nat.add_lt_add_iff_right]

theorem strlenFrom_eq (string : HoldsString m (a + n) s) (enough : s.length < fuel) :
    strlenFrom m a fuel n = .ok (n + s.length) := by
  induction s generalizing n fuel with
  | nil =>
    obtain ⟨fuel,rfl⟩ : ∃ k, fuel = k + 1 := ⟨fuel - 1,by simp at enough; omega⟩
    have ends : m (a + n) = 0#8 := string
    unfold strlenFrom
    rw [ends]
    rfl
  | cons c s ih =>
    rw [List.length_cons] at enough ⊢
    obtain ⟨fuel,rfl⟩ : ∃ k, fuel = k + 1 := ⟨fuel - 1,by omega⟩
    unfold strlenFrom
    rw [string.1,if_pos string.2.1,ih string.2.2 (by omega)]
    congr 1
    omega

theorem strcpyLoop_eq (string : HoldsString m src s) (enough : s.length < fuel) (order : dest ≤ src ∨ src + s.length < dest) :
    strcpyLoop m fuel dest src = .ok (copy m dest (fun i => m (src + i)) (s.length + 1)) := by
  induction s generalizing m dest src fuel with
  | nil =>
    obtain ⟨fuel,rfl⟩ : ∃ k, fuel = k + 1 := ⟨fuel - 1,by simp at enough; omega⟩
    have ends : m src = 0#8 := string
    unfold strcpyLoop
    dsimp only
    rw [if_neg (not_not.mpr ends)]
    exact congrArg Except.ok (copyUp_eq (n := 1) (order.imp_right fun _ => by simp at *; omega))
  | cons c s ih =>
    rw [List.length_cons] at enough order
    obtain ⟨fuel,rfl⟩ : ∃ k, fuel = k + 1 := ⟨fuel - 1,by omega⟩
    have kept : ∀ i ≤ s.length, setByte m dest (m src) (src + 1 + i) = m (src + 1 + i) :=
      fun i low => Function.update_of_ne (by omega) _ _
    unfold strcpyLoop
    dsimp only
    rw [if_pos (string.1 ▸ string.2.1),ih (string.2.2.congr kept) (show s.length < fuel by omega) (by omega)]
    congr 1
    funext x
    unfold copy
    by_cases inside : dest + 1 ≤ x ∧ x < dest + 1 + (s.length + 1)
    · rw [if_pos inside,if_pos (by rw [List.length_cons]; omega)]
      exact (kept _ (by omega)).trans (congrArg m (by omega))
    · rw [if_neg inside]
      by_cases here : x = dest
      · subst here
        rw [if_pos (by rw [List.length_cons]; omega),Nat.sub_self]
        exact Function.update_self _ _ _
      · rw [if_neg (by rw [List.length_cons]; omega)]
        exact Function.update_of_ne here _ _

/-- Bytes compare as numbers, and a string is below those that it begins. -/
theorem strcmp_eq (first : HoldsString m a s) (second : HoldsString m b t) (enough : s.length < fuel) :
    ∃ result, strcmp m fuel a b = .ok result ∧ (result = 0 ↔ s = t) ∧ (result < 0 ↔ s < t) := by
  induction s generalizing a b t fuel with
  | nil =>
    obtain ⟨fuel,rfl⟩ : ∃ k, fuel = k + 1 := ⟨fuel - 1,by simp at enough; omega⟩
    have ends : m a = 0#8 := first
    unfold strcmp
    rw [if_neg (fun go => go.1 ends),ends]
    refine ⟨_,rfl,?_⟩
    cases t with
    | nil =>
      have ends : m b = 0#8 := second
      simp [ends]
    | cons d t =>
      have positive : 0 < d.toNat := Nat.pos_of_ne_zero fun zero => second.2.1 (BitVec.toNat_inj.mp zero)
      rw [second.1]
      exact ⟨iff_of_false (by simp; omega) (by simp),iff_of_true (by simp; omega) (by simp)⟩
  | cons c s ih =>
    rw [List.length_cons] at enough
    obtain ⟨fuel,rfl⟩ : ∃ k, fuel = k + 1 := ⟨fuel - 1,by omega⟩
    unfold strcmp
    rw [first.1]
    cases t with
    | nil =>
      have ends : m b = 0#8 := second
      have positive : 0 < c.toNat := Nat.pos_of_ne_zero fun zero => first.2.1 (BitVec.toNat_inj.mp zero)
      rw [ends,if_neg fun go => go.1 go.2]
      exact ⟨_,rfl,iff_of_false (by simp; omega) (by simp),iff_of_false (by simp) (by simp)⟩
    | cons d t =>
      rw [second.1]
      by_cases same : c = d
      · subst same
        rw [if_pos ⟨first.2.1,rfl⟩]
        obtain ⟨result,returns,equal,below⟩ := ih first.2.2 second.2.2 (show s.length < fuel by omega)
        exact ⟨result,returns,by simpa using equal,by simpa using below⟩
      · rw [if_neg fun go => same go.2]
        have apart : c.toNat ≠ d.toNat := fun equal => same (BitVec.toNat_inj.mp equal)
        refine ⟨_,rfl,iff_of_false (by omega) (by simp [same]),?_⟩
        rw [List.cons_lt_cons_iff,BitVec.lt_def]
        constructor
        · exact fun less => .inl (by omega)
        · rintro (less | ⟨equal,_⟩)
          · omega
          · exact absurd equal same

/-- The first place of the byte, the NUL included. -/
theorem strchr_eq (string : HoldsString m a s) (enough : s.length < fuel) (ch : BitVec 32) :
    strchr m ch fuel a = .ok (((s ++ [0#8]).findIdx? (· = ch.setWidth 8)).map (a + ·)) := by
  induction s generalizing a fuel with
  | nil =>
    obtain ⟨fuel,rfl⟩ : ∃ k, fuel = k + 1 := ⟨fuel - 1,by simp at enough; omega⟩
    have ends : m a = 0#8 := string
    unfold strchr
    dsimp only
    rw [if_neg (not_not.mpr ends)]
    by_cases zero : ch.setWidth 8 = 0#8
    · rw [if_pos zero,zero]
      rfl
    · rw [if_neg zero]
      have other : ¬0#8 = ch.setWidth 8 := fun same => zero same.symm
      simp [List.findIdx?_cons,other]
      rfl
  | cons c s ih =>
    rw [List.length_cons] at enough
    obtain ⟨fuel,rfl⟩ : ∃ k, fuel = k + 1 := ⟨fuel - 1,by omega⟩
    unfold strchr
    dsimp only
    rw [string.1,if_pos string.2.1,List.cons_append,List.findIdx?_cons]
    by_cases here : c = ch.setWidth 8
    · simp [here]
      rfl
    · rw [if_neg here,ih string.2.2 (show s.length < fuel by omega)]
      have shift : (fun i => a + i) ∘ (fun i => i + 1) = fun i => a + 1 + i := by
        funext i
        exact (show a + (i + 1) = a + 1 + i by omega)
      simp [here,Option.map_map,shift]

theorem strncpyCopy_eq (string : HoldsString m (src + i) s) (order : dest + i + n ≤ src ∨ src + i + s.length < dest) :
    strncpyCopy m dest src n i = (i + min n s.length,copy m (dest + i) (fun j => m (src + i + j)) (min n s.length)) := by
  have none : copy m (dest + i) (fun j => m (src + i + j)) 0 = m := by
    funext b
    simp [copy]
  induction n generalizing m i s with
  | zero => rw [Nat.zero_min,none]; rfl
  | succ n ih =>
    unfold strncpyCopy
    cases s with
    | nil =>
      have ends : m (src + i) = 0#8 := string
      rw [if_neg (not_not.mpr ends),List.length_nil,Nat.min_zero,none]
      rfl
    | cons c s =>
      rw [List.length_cons] at order ⊢
      have kept : ∀ j ≤ s.length, setByte m (dest + i) (m (src + i)) (src + (i + 1) + j) = m (src + i + 1 + j) := by
        intro j low
        rw [Nat.add_assoc src i 1]
        exact Function.update_of_ne (by omega) _ _
      rw [if_pos (string.1 ▸ string.2.1),ih (string.2.2.congr kept) (by omega) (by funext b; simp [copy])]
      refine Prod.ext (by dsimp only; omega) ?_
      funext x
      unfold copy
      dsimp only
      by_cases inside : dest + (i + 1) ≤ x ∧ x < dest + (i + 1) + min n s.length
      · rw [if_pos inside,if_pos (by omega),kept _ (by omega)]
        exact congrArg m (by omega)
      · rw [if_neg inside]
        by_cases here : x = dest + i
        · subst here
          rw [if_pos (by omega),Nat.sub_self]
          exact Function.update_self _ _ _
        · rw [if_neg (by omega)]
          exact Function.update_of_ne here _ _

theorem strncpyPad_eq : strncpyPad m dest n i = fill m (dest + i) 0#8 n := by
  induction n generalizing m i with
  | zero =>
    funext b
    simp [strncpyPad,fill,copy]
  | succ n ih =>
    unfold strncpyPad
    rw [ih]
    funext b
    unfold fill copy setByte
    by_cases inside : dest + (i + 1) ≤ b ∧ b < dest + (i + 1) + n
    · rw [if_pos inside,if_pos (by omega)]
    · rw [if_neg inside]
      by_cases here : b = dest + i
      · rw [here,Function.update_self,if_pos (by omega)]
      · rw [Function.update_of_ne here,if_neg (by omega)]

/-- All `n` bytes are written: the string as far as it goes, then NULs. -/
theorem strncpy_eq (string : HoldsString m src s) (order : dest + n ≤ src ∨ src + s.length < dest) :
    strncpy m dest src n = (dest,copy m dest (fun j => if j < s.length then m (src + j) else 0#8) n) := by
  unfold strncpy
  rw [strncpyCopy_eq (s := s) string order]
  dsimp only
  rw [strncpyPad_eq]
  refine congrArg (Prod.mk dest) ?_
  funext b
  unfold fill copy
  simp only [Nat.add_zero,Nat.zero_add]
  by_cases inside : dest ≤ b ∧ b < dest + n
  · rw [if_pos inside]
    by_cases early : b - dest < s.length
    · rw [if_pos early,if_neg (by omega),if_pos (by omega)]
    · rw [if_neg early,if_pos (by omega)]
  · rw [if_neg inside,if_neg (by omega),if_neg (by omega)]

/-- What the functions on strings do with the string `s`, next to another one at `b` and a free block at `dest`. -/
structure StringCalls (m : Mem) (fuel a b dest n : Nat) (s t : CString) : Prop where
  strlen : strlen m fuel a = .ok s.length
  strcpy : ∃ m', strcpy m fuel dest a = .ok (dest,m') ∧ HoldsString m' dest s ∧
    ∀ x, x < dest ∨ dest + s.length < x → m' x = m x
  strcmp : ∃ result, strcmp m fuel a b = .ok result ∧ (result = 0 ↔ s = t) ∧ (result < 0 ↔ s < t)
  strchr : ∀ ch, strchr m ch fuel a = .ok (((s ++ [0#8]).findIdx? (· = ch.setWidth 8)).map (a + ·))
  strncpy : ∃ m', strncpy m dest a n = (dest,m') ∧ (∀ i < n, m' (dest + i) = s.getD i 0#8) ∧
    (s.length < n → HoldsString m' dest s) ∧ ∀ x, x < dest ∨ dest + n ≤ x → m' x = m x

/-- For every string that ends: what is copied is the string again, and the comparison is that of the strings. -/
theorem string_functions (string : HoldsString m a s) (other : HoldsString m b t) (enough : s.length < fuel)
    (apart : dest + n ≤ a ∧ dest ≤ a ∨ a + s.length < dest) : StringCalls m fuel a b dest n s t := by
  have apart' : dest ≤ a ∨ a + s.length < dest := apart.imp_left And.right
  refine ⟨?_,?_,strcmp_eq string other enough,strchr_eq string enough,?_⟩
  · exact (strlenFrom_eq string enough).trans (by rw [Nat.zero_add])
  · refine ⟨_,by rw [strcpy,strcpyLoop_eq string enough apart']; rfl,?_,fun x out => copy_outside (by omega)⟩
    refine string.congr fun i low => ?_
    rw [copy_inside (by omega) (by omega),Nat.add_sub_cancel_left]
  · refine ⟨_,strncpy_eq string (apart.imp_left And.left),fun i low => ?_,fun fits => ?_,fun x out => copy_outside out⟩
    · rw [copy_inside (by omega) (by omega),Nat.add_sub_cancel_left,string.byte]
    refine string.congr fun i low => ?_
    rw [copy_inside (by omega) (by omega),Nat.add_sub_cancel_left]
    by_cases early : i < s.length
    · rw [if_pos early]
    · rw [if_neg early]
      obtain rfl : i = s.length := by omega
      exact string.ends.symm

def twoStrings : Mem := fun a => if a = 16 ∨ a = 32 then 0x61#8 else if a = 17 then 0x62#8 else if a = 33 then 0x63#8 else 0#8

theorem string_functions_two : StringCalls twoStrings 8 16 32 64 4 [0x61#8,0x62#8] [0x61#8,0x63#8] :=
  string_functions (by decide +kernel) (by decide +kernel) (by decide) (.inr (by decide))

end Reddyos
