import Reddyos.Pmm
import Mathlib.Data.List.Nodup
import Mathlib.Data.List.Perm.Basic

/-! The frames a memory map offers and what one refill takes of them. The cursor
pair of the allocator stands for a suffix of the enumeration of all frames. -/
namespace Reddyos

open ByteMemory LinkedChain

def frameAddr (i : Nat) : U64 := BitVec.ofNat 64 (4096 * i)

def framesFrom (first last : Nat) : List U64 := (List.range' first (last - first)).map frameAddr

def Usable (e : MemmapEntry) : Prop := e.type = limineMemmapUsable

instance (e : MemmapEntry) : Decidable (Usable e) := inferInstanceAs (Decidable (_ = _))

def MemmapEntry.limit (e : MemmapEntry) : Nat := e.base.toNat + e.length.toNat

def firstFrame (e : MemmapEntry) : Nat := max ((e.base.toNat + 4095) / 4096) 256

def endFrame (e : MemmapEntry) : Nat := e.limit / 4096

def entryFrames (e : MemmapEntry) : List U64 :=
  if Usable e then framesFrom (firstFrame e) (endFrame e) else []

/-- All frames of the memory map, in the order in which refills take them. -/
def frames (boot : Boot) : List U64 := boot.memmap.flatMap entryFrames

/-- A memory map whose usable entries are pairwise disjoint and end at or below
2^52, under a direct map that puts no usable frame at the null pointer. -/
structure BootOk (boot : Boot) : Prop where
  fits : ∀ e ∈ boot.memmap, Usable e → e.limit ≤ 2^52
  disjoint : boot.memmap.Pairwise fun a b => Usable a → Usable b →
    ∀ x, ¬((a.base.toNat ≤ x ∧ x < a.limit) ∧ b.base.toNat ≤ x ∧ x < b.limit)
  nonNull : ∀ f ∈ frames boot, boot.virt f ≠ 0#64

theorem toNat_frameAddr (bound : i < 2^52) : (frameAddr i).toNat = 4096 * i := by
  simp only [frameAddr,BitVec.toNat_ofNat]
  omega

theorem framesFrom_empty (le : last ≤ first) : framesFrom first last = [] := by
  simp [framesFrom,Nat.sub_eq_zero_of_le le]

theorem framesFrom_cons (lt : first < last) :
    framesFrom first last = frameAddr first :: framesFrom (first + 1) last := by
  obtain ⟨n,rfl⟩ := Nat.exists_eq_add_of_lt lt
  have count : first + n + 1 - first = n + 1 := by omega
  have rest : first + n + 1 - (first + 1) = n := by omega
  simp [framesFrom,count,rest,List.range'_succ]

theorem framesFrom_append (low : a ≤ b) (high : b ≤ c) :
    framesFrom a b ++ framesFrom b c = framesFrom a c := by
  have split : b = a + 1 * (b - a) := by omega
  have total : c - a = (b - a) + (c - b) := by omega
  rw [framesFrom,framesFrom,framesFrom,← List.map_append,total,← List.range'_append,← split]

@[simp] theorem length_framesFrom : (framesFrom a b).length = b - a := by simp [framesFrom]

theorem take_framesFrom (a c k : Nat) :
    (framesFrom a c).take k = framesFrom a (a + min k (c - a)) := by
  by_cases all : c - a ≤ k
  · rw [List.take_of_length_le (by simpa using all)]
    by_cases empty : c ≤ a
    · rw [framesFrom_empty empty,framesFrom_empty (by omega)]
    · congr 1; omega
  · rw [← framesFrom_append (a := a) (b := a + k) (c := c) (by omega) (by omega),
      List.take_left' (by simp)]
    congr 1; omega

theorem drop_framesFrom (a c k : Nat) :
    (framesFrom a c).drop k = framesFrom (a + min k (c - a)) c := by
  by_cases all : c - a ≤ k
  · rw [List.drop_of_length_le (by simpa using all),framesFrom_empty (by omega)]
  · rw [← framesFrom_append (a := a) (b := a + k) (c := c) (by omega) (by omega),
      List.drop_left' (by simp)]
    congr 1; omega

theorem mem_framesFrom (bound : b ≤ 2^40) :
    f ∈ framesFrom a b ↔ f.toNat % 4096 = 0 ∧ 4096 * a ≤ f.toNat ∧ f.toNat + 4096 ≤ 4096 * b := by
  simp only [framesFrom,List.mem_map,List.mem_range'_1]
  constructor
  · rintro ⟨i,range,rfl⟩
    rw [toNat_frameAddr (by omega)]
    omega
  · rintro ⟨aligned,low,high⟩
    refine ⟨f.toNat / 4096,by omega,?_⟩
    apply BitVec.eq_of_toNat_eq
    rw [toNat_frameAddr (by omega)]
    omega

theorem framesFrom_nodup (bound : b ≤ 2^40) : (framesFrom a b).Nodup := by
  apply List.Nodup.map_on _ List.nodup_range'
  intro i hi j hj same
  have hi := List.mem_range'_1.mp hi
  have hj := List.mem_range'_1.mp hj
  have h := congrArg BitVec.toNat same
  rw [toNat_frameAddr (by omega),toNat_frameAddr (by omega)] at h
  omega

/-- The frames of an entry are the aligned ones wholly inside it from 1 MiB on. -/
theorem mem_entryFrames (fits : Usable e → e.limit ≤ 2^52) : f ∈ entryFrames e ↔
    Usable e ∧ f.toNat % 4096 = 0 ∧ 0x100000 ≤ f.toNat ∧
      e.base.toNat ≤ f.toNat ∧ f.toNat + 4096 ≤ e.limit := by
  unfold entryFrames
  by_cases usable : Usable e
  · have := fits usable
    rw [if_pos usable,mem_framesFrom (by simp only [endFrame]; omega)]
    simp only [firstFrame,endFrame,usable,true_and]
    omega
  · simp [usable]

theorem mem_frames (ok : BootOk boot) : f ∈ frames boot ↔
    ∃ e ∈ boot.memmap, Usable e ∧ f.toNat % 4096 = 0 ∧ 0x100000 ≤ f.toNat ∧
      e.base.toNat ≤ f.toNat ∧ f.toNat + 4096 ≤ e.limit := by
  simp only [frames,List.mem_flatMap]
  constructor
  · rintro ⟨e,member,inside⟩
    exact ⟨e,member,(mem_entryFrames (ok.fits e member)).mp inside⟩
  · rintro ⟨e,member,inside⟩
    exact ⟨e,member,(mem_entryFrames (ok.fits e member)).mpr inside⟩

theorem frames_nodup (ok : BootOk boot) : (frames boot).Nodup := by
  apply List.nodup_flatMap.mpr
  constructor
  · intro e member
    unfold entryFrames
    split
    · rename_i usable
      have := ok.fits e member usable
      exact framesFrom_nodup (by simp only [endFrame]; omega)
    · exact List.nodup_nil
  · refine ok.disjoint.imp_of_mem ?_
    intro a b memberA memberB apart f inA inB
    obtain ⟨usableA,_,_,lowA,highA⟩ := (mem_entryFrames (ok.fits a memberA)).mp inA
    obtain ⟨usableB,_,_,lowB,highB⟩ := (mem_entryFrames (ok.fits b memberB)).mp inB
    exact apart usableA usableB f.toNat ⟨⟨lowA,by omega⟩,lowB,by omega⟩

theorem toNat_alignedStart (fits : e.limit ≤ 2^52) :
    (alignedStart e).toNat = 4096 * firstFrame e := by
  have low : e.base.toNat ≤ 2^52 := by simp only [MemmapEntry.limit] at fits; omega
  have up := toNat_alignUp e.base (by omega)
  have mib : (0x100000#64).toNat = 0x100000 := rfl
  simp only [alignedStart,firstFrame]
  split
  · rename_i lt
    have := BitVec.lt_def.mp lt
    omega
  · rename_i ge
    have := BitVec.lt_def.not.mp ge
    omega

theorem toNat_alignedEnd (fits : e.limit ≤ 2^52) : (alignedEnd e).toNat = 4096 * endFrame e := by
  simp only [alignedEnd,toNat_alignDown,BitVec.toNat_add,endFrame,MemmapEntry.limit] at *
  rw [Nat.mod_eq_of_lt (by omega)]
  omega

end Reddyos
