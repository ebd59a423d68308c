import Mathlib.Data.Nat.Bitwise

/-! A byte-addressed memory with little-endian 64-bit words. Block operations are
stated by the bytes they leave, not by the loops that write them. -/
namespace ByteMemory

abbrev Mem := Nat → BitVec 8

def copy (m : Mem) (dest : Nat) (data : Nat → BitVec 8) (n : Nat) : Mem :=
  fun b => if dest ≤ b ∧ b < dest + n then data (b - dest) else m b

def fill (m : Mem) (dest : Nat) (value : BitVec 8) (n : Nat) : Mem :=
  copy m dest (fun _ => value) n

def byteOf (w : BitVec 64) (i : Nat) : BitVec 8 := w.extractLsb' (8*i) 8

def store64 (m : Mem) (a : Nat) (w : BitVec 64) : Mem := copy m a (byteOf w) 8

def store32 (m : Mem) (a : Nat) (w : BitVec 32) : Mem := copy m a (fun i => w.extractLsb' (8*i) 8) 4

def load16 (m : Mem) (a : Nat) : BitVec 16 := m (a+1) ++ m a

def load32 (m : Mem) (a : Nat) : BitVec 32 := m (a+3) ++ m (a+2) ++ m (a+1) ++ m a

def load64 (m : Mem) (a : Nat) : BitVec 64 :=
  m (a+7) ++ m (a+6) ++ m (a+5) ++ m (a+4) ++ m (a+3) ++ m (a+2) ++ m (a+1) ++ m a

theorem copy_outside (apart : b < dest ∨ dest + n ≤ b) : copy m dest data n b = m b := by
  have : ¬(dest ≤ b ∧ b < dest + n) := by omega
  simp [copy,this]

theorem copy_inside (low : dest ≤ b) (high : b < dest + n) :
    copy m dest data n b = data (b - dest) := by
  simp [copy,low,high]

theorem fill_outside (apart : b < dest ∨ dest + n ≤ b) : fill m dest value n b = m b :=
  copy_outside apart

theorem fill_inside (low : dest ≤ b) (high : b < dest + n) : fill m dest value n b = value :=
  copy_inside low high

theorem store64_outside (apart : b < a ∨ a + 8 ≤ b) : store64 m a w b = m b :=
  copy_outside apart

theorem store32_outside (apart : b < a ∨ a + 4 ≤ b) : store32 m a w b = m b :=
  copy_outside apart

theorem load64_congr (same : ∀ i < 8, m' (b + i) = m (a + i)) : load64 m' b = load64 m a := by
  simp only [load64,same 7 (by decide),same 6 (by decide),same 5 (by decide),same 4 (by decide),
    same 3 (by decide),same 2 (by decide),same 1 (by decide)]
  rw [show m' b = m a from same 0 (by decide)]

theorem load64_copy_apart (apart : a + 8 ≤ dest ∨ dest + n ≤ a) :
    load64 (copy m dest data n) a = load64 m a := by
  apply load64_congr
  intro i bound
  exact copy_outside (by omega)

theorem load64_store64_apart (apart : a + 8 ≤ b ∨ b + 8 ≤ a) :
    load64 (store64 m b w) a = load64 m a :=
  load64_copy_apart apart

private theorem append_bytes (w : BitVec 64) :
    byteOf w 7 ++ byteOf w 6 ++ byteOf w 5 ++ byteOf w 4 ++ byteOf w 3 ++ byteOf w 2 ++
      byteOf w 1 ++ byteOf w 0 = w := by
  simp only [byteOf]
  repeat rw [BitVec.extractLsb'_append_extractLsb'_eq_extractLsb' (by decide)]
  apply BitVec.eq_of_getLsbD_eq
  intro i inside
  simp [inside]

@[simp] theorem load64_store64_same : load64 (store64 m a w) a = w := by
  have inside (i : Nat) (bound : i < 8) : store64 m a w (a + i) = byteOf w i := by
    simp only [store64]
    rw [copy_inside (by omega) (by omega),Nat.add_sub_cancel_left]
  simp only [load64,inside 7 (by decide),inside 6 (by decide),inside 5 (by decide),
    inside 4 (by decide),inside 3 (by decide),inside 2 (by decide),inside 1 (by decide)]
  rw [show store64 m a w a = byteOf w 0 from inside 0 (by decide)]
  exact append_bytes w

theorem byteOf_load64 (m : Mem) (a : Nat) (low : i < 8) : byteOf (load64 m a) i = m (a + i) := by
  have bytes : i = 0 ∨ i = 1 ∨ i = 2 ∨ i = 3 ∨ i = 4 ∨ i = 5 ∨ i = 6 ∨ i = 7 := by omega
  rcases bytes with rfl | rfl | rfl | rfl | rfl | rfl | rfl | rfl
  all_goals
    simp (disch := omega) only [byteOf,load64,BitVec.extractLsb'_append_eq_of_add_le,
      BitVec.extractLsb'_append_eq_of_le]
    exact BitVec.extractLsb'_eq_self

theorem store64_load64 (m : Mem) (a : Nat) : store64 m a (load64 m a) = m := by
  funext b
  by_cases inside : a ≤ b ∧ b < a + 8
  · rw [store64,copy_inside inside.1 inside.2,byteOf_load64 m a (by omega)]
    congr 1
    omega
  · exact store64_outside (by omega)
theorem load64_fill_zero (low : dest ≤ a) (high : a + 8 ≤ dest + n) :
    load64 (fill m dest 0#8 n) a = 0#64 := by
  have zero (i : Nat) (bound : i < 8) : fill m dest 0#8 n (a + i) = 0#8 :=
    fill_inside (by omega) (by omega)
  simp only [load64,zero 7 (by decide),zero 6 (by decide),zero 5 (by decide),
    zero 4 (by decide),zero 3 (by decide),zero 2 (by decide),zero 1 (by decide)]
  rw [show fill m dest 0#8 n a = 0#8 from zero 0 (by decide)]
  decide

theorem load32_congr (same : ∀ i < 4, m' (b + i) = m (a + i)) : load32 m' b = load32 m a := by
  simp only [load32,same 3 (by decide),same 2 (by decide),same 1 (by decide)]
  rw [show m' b = m a from same 0 (by decide)]

@[simp] theorem load32_store32_same : load32 (store32 m a w) a = w := by
  have inside (i : Nat) (bound : i < 4) : store32 m a w (a + i) = w.extractLsb' (8*i) 8 := by
    simp only [store32]
    rw [copy_inside (by omega) (by omega),Nat.add_sub_cancel_left]
  simp only [load32,inside 3 (by decide),inside 2 (by decide),inside 1 (by decide)]
  rw [show store32 m a w a = w.extractLsb' 0 8 from inside 0 (by decide)]
  repeat rw [BitVec.extractLsb'_append_extractLsb'_eq_extractLsb' (by decide)]
  apply BitVec.eq_of_getLsbD_eq
  intro i bound
  simp [bound]

end ByteMemory
