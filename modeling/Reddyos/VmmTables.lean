import Reddyos.RadixForest
import Reddyos.Vmm

/-! Page tables as a radix forest over physical memory: the kernel's tables and the
lower halves of all processes are walks that never meet, outside the free frames. -/
namespace Reddyos

open ByteMemory RadixForest

def Present (e : U64) : Prop := e &&& pagePresent ≠ 0#64
def Large (e : U64) : Prop := e &&& pageLarge ≠ 0#64

instance (e : U64) : Decidable (Present e) := inferInstanceAs (Decidable (_ ≠ _))
instance (e : U64) : Decidable (Large e) := inferInstanceAs (Decidable (_ ≠ _))

/-- A frame address: aligned and below the reach of an entry. -/
def FrameOk (f : U64) : Prop := Aligned f ∧ f.toNat + 4096 ≤ 2^52

def child (m : Mem) (table : U64) (i : Nat) : Option U64 :=
  if Present (entry m table i) ∧ ¬Large (entry m table i) then some (entry m table i &&& pageMask)
  else none

theorem present_iff (e : U64) : Present e ↔ e.getLsbD 0 = true := by
  have one : pagePresent = BitVec.twoPow 64 0 := by decide
  rw [Present,one,BitVec.and_twoPow]
  cases h : e.getLsbD 0 <;> simp
  decide

theorem large_iff (e : U64) : Large e ↔ e.getLsbD 7 = true := by
  have one : pageLarge = BitVec.twoPow 64 7 := by decide
  rw [Large,one,BitVec.and_twoPow]
  cases h : e.getLsbD 7 <;> simp
  decide

theorem toNat_and_pageMask (e : U64) :
    (e &&& pageMask).toNat = e.toNat % 2^52 / 4096 * 4096 := by
  have mask : pageMask = BitVec.ofNat 64 (2^52 - 1) &&& ~~~(BitVec.ofNat 64 (2^12 - 1)) := by decide
  rw [mask,← BitVec.and_assoc,Words.toNat_and_not_low,Words.toNat_and_low _ _ (by decide)]
  rfl

theorem and_pageMask_ok (e : U64) : FrameOk (e &&& pageMask) := by
  simp only [FrameOk,Aligned,toNat_and_pageMask]
  omega

theorem FrameOk.masked (frame : FrameOk f) : f &&& pageMask = f := by
  apply BitVec.eq_of_toNat_eq
  simp only [FrameOk,Aligned] at frame
  rw [toNat_and_pageMask]
  omega

/-- Flags outside the address field do not disturb the frame of an entry. -/
theorem frame_or_flags (frame : FrameOk f) (flags : flag &&& pageMask = 0#64) :
    (f ||| flag) &&& pageMask = f := by
  rw [BitVec.and_or_distrib_right,frame.masked,flags,BitVec.or_zero]

theorem frame_bit_low (frame : FrameOk f) (low : i < 12) : f.getLsbD i = false := by
  have mask : ∀ i < 12, pageMask.getLsbD i = false := by decide
  rw [← frame.masked,BitVec.getLsbD_and,mask i low,Bool.and_false]

theorem tableEntry_frame (frame : FrameOk table) : tableEntry table flags &&& pageMask = table := by
  unfold tableEntry
  rw [BitVec.or_assoc,BitVec.or_assoc]
  apply frame_or_flags frame
  rw [BitVec.and_or_distrib_right,BitVec.and_or_distrib_right,BitVec.and_assoc,
    show (pageUser ||| pageWthru ||| pageNocache) &&& pageMask = 0#64 by decide,
    show pagePresent &&& pageMask = 0#64 by decide,show pageWritable &&& pageMask = 0#64 by decide]
  simp

theorem tableEntry_present : Present (tableEntry table flags) := by
  rw [present_iff,tableEntry]
  simp [pagePresent]

theorem tableEntry_small (frame : FrameOk table) : ¬Large (tableEntry table flags) := by
  rw [large_iff,tableEntry]
  have bit := frame_bit_low frame (i := 7) (by decide)
  simpa [pagePresent,pageWritable,pageUser,pageWthru,pageNocache] using bit

theorem leafEntry_present (boot : Boot) (phys flags : U64) : Present (leafEntry boot phys flags) := by
  rw [present_iff,leafEntry]
  simp [pagePresent]

theorem entry_congr (low : i < 512) (same : ∀ b, f.toNat ≤ b → b < f.toNat + 4096 → m' b = m b) :
    entry m' f i = entry m f i := by
  apply load64_congr
  intro j bound
  exact same _ (by simp only [entryAddr]; omega) (by simp only [entryAddr]; omega)

theorem outside_of_not_mem (aligned : ∀ g ∈ pages, Aligned g) (af : Aligned f) (apart : f ∉ pages)
    (low : f.toNat ≤ b) (high : b < f.toNat + 4096) : Outside pages b := by
  intro g member
  have := frames_apart af (aligned g member) (fun same => apart (same ▸ member))
  omega

@[simp] theorem setEntry_same (s : Pmm) : entry (s.setEntry table i w).mem table i = w := by
  simp [entry,Pmm.setEntry]

theorem setEntry_other (s : Pmm) (at' : Aligned table) (af : Aligned f) (ti : i < 512) (fj : j < 512)
    (different : ¬(f = table ∧ j = i)) :
    entry (s.setEntry table i w).mem f j = entry s.mem f j := by
  apply load64_store64_apart
  simp only [entryAddr]
  by_cases same : f = table
  · subst f
    have : j ≠ i := fun h => different ⟨rfl,h⟩
    omega
  · have := frames_apart af at' same
    omega

theorem setEntry_outside (s : Pmm) (index : i < 512)
    (apart : b < table.toNat ∨ table.toNat + 4096 ≤ b) :
    (s.setEntry table i w).mem b = s.mem b :=
  store64_outside (by simp only [entryAddr]; omega)

end Reddyos
