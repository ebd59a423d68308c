import Reddyos.ByteMemory

/-! Words on a stack that grows downwards: what a sequence of pushes leaves in memory. -/
namespace CallStack

open ByteMemory

variable {m m' : Mem} {a : Nat} {w : BitVec 64} {words rest : List (BitVec 64)} {rsp : BitVec 64} {x : BitVec 64 × Mem}

def Holds (m : Mem) : Nat → List (BitVec 64) → Prop
  | _, [] => True
  | a, w :: rest => load64 m a = w ∧ Holds m (a + 8) rest

def push (x : BitVec 64 × Mem) (w : BitVec 64) : BitVec 64 × Mem := (x.1 - 8#64,store64 x.2 (x.1 - 8#64).toNat w)

/-- The first word is pushed first. -/
def pushWords (words : List (BitVec 64)) (x : BitVec 64 × Mem) : BitVec 64 × Mem := words.foldl push x

theorem Holds.congr (holds : Holds m a words) (same : ∀ b, a ≤ b → b < a + 8 * words.length → m' b = m b) :
    Holds m' a words := by
  induction words generalizing a with
  | nil => trivial
  | cons w rest ih =>
    rw [List.length_cons] at same
    refine ⟨?_,ih holds.2 fun b low high => same b (by omega) (by omega)⟩
    rw [load64_congr fun i inside => same (a + i) (by omega) (by omega)]
    exact holds.1

theorem Holds.word (holds : Holds m a words) (i : Nat) (here : words[i]? = some w) : load64 m (a + 8 * i) = w := by
  induction words generalizing a i with
  | nil => cases here
  | cons first words ih =>
    cases i with
    | zero =>
      obtain rfl := Option.some.inj here
      exact holds.1
    | succ i =>
      rw [show a + 8 * (i + 1) = a + 8 + 8 * i by omega]
      exact ih holds.2 i here

theorem holds_append : Holds m a (words ++ rest) ↔ Holds m a words ∧ Holds m (a + 8 * words.length) rest := by
  induction words generalizing a with
  | nil => simp [Holds]
  | cons w words ih =>
    change (load64 m a = w ∧ Holds m (a + 8) (words ++ rest)) ↔ (load64 m a = w ∧ Holds m (a + 8) words) ∧ _
    rw [List.length_cons,ih,and_assoc,show a + 8 + 8 * words.length = a + 8 * (words.length + 1) by omega]

theorem toNat_down (room : 8 ≤ rsp.toNat) : (rsp - 8#64).toNat = rsp.toNat - 8 := by
  rw [BitVec.toNat_sub]
  have := rsp.isLt
  have eight : (8#64).toNat = 8 := rfl
  omega

theorem toNat_up (fits : rsp.toNat + n < 2^64) : (rsp + BitVec.ofNat 64 n).toNat = rsp.toNat + n := by
  rw [BitVec.toNat_add,BitVec.toNat_ofNat]
  omega

/-- The words lie one above the other, the last one at the new end, and nothing else changed. -/
theorem pushWords_spec (room : 8 * words.length ≤ rsp.toNat) :
    (pushWords words (rsp,m)).1.toNat = rsp.toNat - 8 * words.length ∧
    Holds (pushWords words (rsp,m)).2 (rsp.toNat - 8 * words.length) words.reverse ∧
    ∀ b, b < rsp.toNat - 8 * words.length ∨ rsp.toNat ≤ b → (pushWords words (rsp,m)).2 b = m b := by
  induction words generalizing rsp m with
  | nil => exact ⟨by simp [pushWords],trivial,fun _ _ => rfl⟩
  | cons w rest ih =>
    rw [List.length_cons] at room
    have down : (rsp - 8#64).toNat = rsp.toNat - 8 := toNat_down (by omega)
    obtain ⟨ends,holds,outside⟩ := @ih (store64 m (rsp - 8#64).toNat w) (rsp - 8#64) (by omega)
    have place : rsp.toNat - 8 * (rest.length + 1) = rsp.toNat - 8 - 8 * rest.length := by omega
    change (pushWords rest (rsp - 8#64,store64 m (rsp - 8#64).toNat w)).1.toNat = _ ∧
      Holds (pushWords rest (rsp - 8#64,store64 m (rsp - 8#64).toNat w)).2 _ _ ∧
      ∀ b, _ → (pushWords rest (rsp - 8#64,store64 m (rsp - 8#64).toNat w)).2 b = m b
    rw [List.length_cons,place,List.reverse_cons]
    rw [down] at ends holds outside ⊢
    refine ⟨ends,holds_append.mpr ⟨holds,?_,trivial⟩,fun b apart => ?_⟩
    · rw [List.length_reverse,show rsp.toNat - 8 - 8 * rest.length + 8 * rest.length = rsp.toNat - 8 by omega,
        load64_congr fun i inside => outside (rsp.toNat - 8 + i) (.inr (by omega))]
      exact load64_store64_same
    · rw [outside b (by omega),store64_outside (by omega)]

end CallStack
