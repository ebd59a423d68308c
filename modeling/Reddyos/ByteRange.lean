import Mathlib.Data.List.Basic
import Mathlib.Data.BitVec

/-! Ranges of cells in a memory addressed by machine words, and requests that are clamped to
the end of an object. Addresses wrap, so that a range is known by its start and its length. -/
namespace ByteRange

variable {w : Nat} {α : Type} {m : BitVec w → α} {a b limit offset size : BitVec w} {n k : Nat}

def cells (m : BitVec w → α) (a : BitVec w) (n : Nat) : List α :=
  (List.range n).map fun i => m (a + BitVec.ofNat w i)

def stored (m : BitVec w → α) (a : BitVec w) (data : Nat → α) (n : BitVec w) : BitVec w → α :=
  fun b => if b - a < n then data (b - a).toNat else m b

def Within (a : BitVec w) (n : Nat) (b : BitVec w) : Prop := (b - a).toNat < n

@[simp]
theorem length_cells (m : BitVec w → α) (a : BitVec w) (n : Nat) : (cells m a n).length = n := by
  simp [cells]

theorem cells_append (m : BitVec w → α) (a : BitVec w) (n k : Nat) :
    cells m a (n + k) = cells m a n ++ cells m (a + BitVec.ofNat w n) k := by
  unfold cells
  rw [List.range_add,List.map_append,List.map_map]
  congr 1
  apply List.map_congr_left
  intro i _
  simp only [Function.comp_apply,BitVec.ofNat_add,BitVec.add_assoc]

theorem cells_front (more : n ≤ k) : cells m a n <+: cells m a k := by
  obtain ⟨rest,rfl⟩ := Nat.exists_eq_add_of_le more
  exact ⟨_,(cells_append m a n rest).symm⟩

theorem stored_outside (outside : ¬Within a size.toNat b) : stored m a data size b = m b :=
  if_neg outside

theorem stored_inside (inside : Within a size.toNat b) : stored m a data size b = data (b - a).toNat :=
  if_pos inside

theorem within_offset (below : k < n) (fits : n ≤ 2^w) : Within a n (a + BitVec.ofNat w k) := by
  have back : a + BitVec.ofNat w k - a = BitVec.ofNat w k := by rw [BitVec.add_comm,BitVec.add_sub_cancel]
  unfold Within
  rw [back,BitVec.toNat_ofNat,Nat.mod_eq_of_lt (by omega)]
  exact below

theorem forall_within {p : BitVec w → Prop} (fits : n ≤ 2^w) :
    (∀ i < n, p (a + BitVec.ofNat w i)) ↔ ∀ b, Within a n b → p b := by
  refine ⟨fun each b inside => ?_,fun all i below => all _ (within_offset below fits)⟩
  have place : a + BitVec.ofNat w (b - a).toNat = b := by
    rw [BitVec.ofNat_toNat,BitVec.setWidth_eq,BitVec.add_comm,BitVec.sub_add_cancel]
  rw [← place]
  exact each _ inside

theorem cells_stored (m : BitVec w → α) (a : BitVec w) (data : Nat → α) (n : BitVec w) :
    cells (stored m a data n) a n.toNat = (List.range n.toNat).map data := by
  have bound := n.isLt
  apply List.map_congr_left
  intro i member
  have below := List.mem_range.mp member
  have back : (a + BitVec.ofNat w i - a).toNat = i := by
    rw [BitVec.add_comm,BitVec.add_sub_cancel,BitVec.toNat_ofNat,Nat.mod_eq_of_lt (by omega)]
  exact (stored_inside (within_offset below (Nat.le_of_lt bound))).trans (congrArg data back)

/-- A range within another one of the same length, of at most half the memory, is that one. -/
theorem range_unique (some' : 0 < n) (half : 2 * n ≤ 2^w) (inside : ∀ c, Within a n c → Within b n c) : a = b := by
  have first := inside a (by unfold Within; rw [BitVec.sub_self]; exact some')
  have last := inside (a + BitVec.ofNat w (n - 1)) (within_offset (by omega) (by omega))
  unfold Within at first last
  have step : a + BitVec.ofNat w (n - 1) - b = (a - b) + BitVec.ofNat w (n - 1) := by
    rw [BitVec.sub_eq_add_neg,BitVec.sub_eq_add_neg,BitVec.add_assoc,BitVec.add_comm (BitVec.ofNat w (n - 1)),
      BitVec.add_assoc]
  rw [step,BitVec.toNat_add,BitVec.toNat_ofNat,Nat.mod_eq_of_lt (a := n - 1) (by omega),
    Nat.mod_eq_of_lt (by omega)] at last
  have zero : a - b = 0#w := BitVec.eq_of_toNat_eq (by rw [BitVec.toNat_zero]; omega)
  rw [← BitVec.sub_add_cancel a b,zero,BitVec.zero_add]

/-- How much of a request lies in front of `limit`; the sum is compared as it wraps. -/
def clamped (limit offset size : BitVec w) : BitVec w :=
  if limit ≤ offset then 0#w else if limit < offset + size then limit - offset else size

theorem clamped_behind (behind : limit ≤ offset) : clamped limit offset size = 0#w := if_pos behind

/-- A sum that wraps is below every limit behind the offset. -/
theorem clamped_wraps (inside : offset < limit) (wraps : 2^w ≤ offset.toNat + size.toNat) :
    clamped limit offset size = size := by
  have small := size.isLt
  rw [BitVec.lt_def] at inside
  have sum : (offset + size).toNat = offset.toNat + size.toNat - 2^w := by
    rw [BitVec.toNat_add,Nat.mod_eq_sub_mod wraps,Nat.mod_eq_of_lt (by have := offset.isLt; omega)]
  rw [clamped,if_neg (by rw [BitVec.le_def]; omega),if_neg (by rw [BitVec.lt_def]; omega)]

theorem toNat_clamped (fits : offset.toNat + size.toNat < 2^w) :
    (clamped limit offset size).toNat = min size.toNat (limit.toNat - offset.toNat) := by
  have sum : (offset + size).toNat = offset.toNat + size.toNat := by
    rw [BitVec.toNat_add,Nat.mod_eq_of_lt fits]
  unfold clamped
  simp only [BitVec.le_def,BitVec.lt_def,sum]
  split
  · rw [BitVec.toNat_zero]
    omega
  split
  · rw [BitVec.toNat_sub_of_le (by rw [BitVec.le_def]; omega)]
    omega
  · omega

theorem clamped_le : (clamped limit offset size).toNat ≤ size.toNat := by
  by_cases behind : limit ≤ offset
  · rw [clamped_behind behind,BitVec.toNat_zero]
    exact Nat.zero_le _
  by_cases fits : offset.toNat + size.toNat < 2^w
  · rw [toNat_clamped fits]
    exact Nat.min_le_left _ _
  · rw [clamped_wraps (BitVec.not_le.mp behind) (by omega)]

/-- The clamp is right exactly when the sum does not wrap, or nothing is left of the object. -/
theorem toNat_clamped_iff : (clamped limit offset size).toNat = min size.toNat (limit.toNat - offset.toNat) ↔
    limit ≤ offset ∨ offset.toNat + size.toNat < 2^w := by
  by_cases behind : limit ≤ offset
  · rw [clamped_behind behind,BitVec.toNat_zero]
    rw [BitVec.le_def] at behind
    simp only [BitVec.le_def]
    omega
  by_cases fits : offset.toNat + size.toNat < 2^w
  · simp only [toNat_clamped fits,fits,or_true]
  · rw [clamped_wraps (BitVec.not_le.mp behind) (by omega)]
    have := limit.isLt
    rw [BitVec.le_def] at behind
    simp only [BitVec.le_def,behind,fits,or_self,iff_false]
    omega

end ByteRange
