import Reddyos.PageTree

/-! The walk of `vmm_virt_to_phys_as` beside the processor's: it takes every present entry for a table, so
it goes on through the leaf of a large page. -/
namespace Reddyos

open ByteMemory

structure MeetsGiga (m : Mem) (root v : U64) : Prop where
  table : Present (pml4Entry m root v)
  leaf : Present (pdptEntry m root v)
  large : Large (pdptEntry m root v)

structure MeetsMega (m : Mem) (root v : U64) : Prop where
  table : Present (pml4Entry m root v)
  table' : Present (pdptEntry m root v) ∧ ¬Large (pdptEntry m root v)
  leaf : Present (pdEntry m root v)
  large : Large (pdEntry m root v)

structure GigaCoincides (m : Mem) (root v : U64) : Prop where
  pd : Present (pdEntry m root v)
  pt : Present (ptEntry m root v)
  frame : ptEntry m root v &&& pageMask = (pdptEntry m root v &&& 0x000FFFFFC0000000#64) ||| (v &&& 0x3FFFF000#64)

structure MegaCoincides (m : Mem) (root v : U64) : Prop where
  pt : Present (ptEntry m root v)
  frame : ptEntry m root v &&& pageMask = (pdEntry m root v &&& 0x000FFFFFFFE00000#64) ||| (v &&& 0x1FF000#64)

/-- The kernel's answer is the processor's translation, or negative when there is none. -/
def WalksAgree (m : Mem) (root v : U64) : Prop :=
  match mmuTranslate m root v with
  | some phys => vmmVirtToPhysAs m root v = (phys.toNat : Int)
  | none => vmmVirtToPhysAs m root v < 0

variable {m : Mem} {root v : U64}

/-- The last 12 bits of an address are its offset in any page. -/
theorem same_physical_iff {large low : U64} (frame : U64) (high : large &&& pageMask = large) (inside : low &&& pageMask = frame)
    (whole : frame ||| 0xFFF#64 = low) (e e' v : U64) :
    (e &&& pageMask) ||| (v &&& 0xFFF#64) = (e' &&& large) ||| (v &&& low) ↔
      e &&& pageMask = (e' &&& large) ||| (v &&& frame) := by
  constructor
  · intro same
    have masked := congrArg (· &&& pageMask) same
    simp only [BitVec.and_or_distrib_right,BitVec.and_assoc,high,inside,
      show pageMask &&& pageMask = pageMask by decide,show 0xFFF#64 &&& pageMask = 0#64 by decide,BitVec.and_zero,
      BitVec.or_zero] at masked
    exact masked
  · intro same
    rw [same,BitVec.or_assoc,← BitVec.and_or_distrib_left,whole]

theorem toNat_eq_iff {a b : U64} : (a.toNat : Int) = (b.toNat : Int) ↔ a = b := by
  rw [Int.natCast_inj,BitVec.toNat_inj]

theorem vmmVirtToPhysAs_entries (m : Mem) (root v : U64) : vmmVirtToPhysAs m root v =
    if pml4Entry m root v &&& pagePresent = 0#64 then -1
    else if pdptEntry m root v &&& pagePresent = 0#64 then -2
    else if pdEntry m root v &&& pagePresent = 0#64 then -3
    else if ptEntry m root v &&& pagePresent = 0#64 then -4
    else (((ptEntry m root v &&& pageMask) ||| (v &&& 0xFFF#64)).toNat : Int) := rfl

theorem mmuTranslate_entries (m : Mem) (root v : U64) : mmuTranslate m root v =
    if pml4Entry m root v &&& pagePresent = 0#64 then none
    else if pdptEntry m root v &&& pagePresent = 0#64 then none
    else if Large (pdptEntry m root v) then
      some ((pdptEntry m root v &&& 0x000FFFFFC0000000#64) ||| (v &&& 0x3FFFFFFF#64))
    else if pdEntry m root v &&& pagePresent = 0#64 then none
    else if Large (pdEntry m root v) then
      some ((pdEntry m root v &&& 0x000FFFFFFFE00000#64) ||| (v &&& 0x1FFFFF#64))
    else if ptEntry m root v &&& pagePresent = 0#64 then none
    else some ((ptEntry m root v &&& pageMask) ||| (v &&& 0xFFF#64)) := rfl

theorem agree_giga (meets : MeetsGiga m root v) : WalksAgree m root v ↔ GigaCoincides m root v := by
  obtain ⟨table,leaf,large⟩ := meets
  have translated : mmuTranslate m root v =
      some ((pdptEntry m root v &&& 0x000FFFFFC0000000#64) ||| (v &&& 0x3FFFFFFF#64)) := by
    rw [mmuTranslate_entries,if_neg table,if_neg leaf,if_pos large]
  rw [WalksAgree,translated,vmmVirtToPhysAs_entries,if_neg table,if_neg leaf]
  dsimp only
  split_ifs with noPd noPt
  · exact ⟨False.elim,fun coincides => absurd noPd coincides.pd⟩
  · exact ⟨False.elim,fun coincides => absurd noPt coincides.pt⟩
  · rw [toNat_eq_iff,same_physical_iff 0x3FFFF000#64 (by decide) (by decide) (by decide)]
    exact ⟨fun same => ⟨noPd,noPt,same⟩,fun coincides => coincides.frame⟩

theorem agree_mega (meets : MeetsMega m root v) : WalksAgree m root v ↔ MegaCoincides m root v := by
  obtain ⟨table,⟨table',small⟩,leaf,large⟩ := meets
  have translated : mmuTranslate m root v =
      some ((pdEntry m root v &&& 0x000FFFFFFFE00000#64) ||| (v &&& 0x1FFFFF#64)) := by
    rw [mmuTranslate_entries,if_neg table,if_neg table',if_neg small,if_neg leaf,if_pos large]
  rw [WalksAgree,translated,vmmVirtToPhysAs_entries,if_neg table,if_neg table',if_neg leaf]
  dsimp only
  split_ifs with noPt
  · exact ⟨False.elim,fun coincides => absurd noPt coincides.pt⟩
  · rw [toNat_eq_iff,same_physical_iff 0x1FF000#64 (by decide) (by decide) (by decide)]
    exact ⟨fun same => ⟨noPt,same⟩,fun coincides => coincides.frame⟩

theorem agree_small (giga : ¬MeetsGiga m root v) (mega : ¬MeetsMega m root v) : WalksAgree m root v := by
  rw [WalksAgree,mmuTranslate_entries,vmmVirtToPhysAs_entries]
  by_cases table : pml4Entry m root v &&& pagePresent = 0#64
  · rw [if_pos table,if_pos table]
    decide
  rw [if_neg table,if_neg table]
  by_cases table₂ : pdptEntry m root v &&& pagePresent = 0#64
  · rw [if_pos table₂,if_pos table₂]
    decide
  have small : ¬Large (pdptEntry m root v) := fun large => giga ⟨table,table₂,large⟩
  rw [if_neg table₂,if_neg table₂,if_neg small]
  by_cases table₃ : pdEntry m root v &&& pagePresent = 0#64
  · rw [if_pos table₃,if_pos table₃]
    decide
  have small₃ : ¬Large (pdEntry m root v) := fun large => mega ⟨table,⟨table₂,small⟩,table₃,large⟩
  rw [if_neg table₃,if_neg table₃,if_neg small₃]
  by_cases absent : ptEntry m root v &&& pagePresent = 0#64
  · rw [if_pos absent,if_pos absent]
    decide
  · rw [if_neg absent,if_neg absent]

/-- The walks agree exactly on the addresses without a large page, and on those where the contents of the
large page happen to read as tables for it. -/
theorem walks_agree_iff (m : Mem) (root v : U64) : WalksAgree m root v ↔
    (MeetsGiga m root v → GigaCoincides m root v) ∧ (MeetsMega m root v → MegaCoincides m root v) := by
  by_cases giga : MeetsGiga m root v
  · have notMega : ¬MeetsMega m root v := fun mega => mega.table'.2 giga.large
    rw [agree_giga giga]
    exact ⟨fun coincides => ⟨fun _ => coincides,fun mega => absurd mega notMega⟩,fun both => both.1 giga⟩
  by_cases mega : MeetsMega m root v
  · rw [agree_mega mega]
    exact ⟨fun coincides => ⟨fun meets => absurd meets giga,fun _ => coincides⟩,fun both => both.2 mega⟩
  · exact ⟨fun _ => ⟨fun meets => absurd meets giga,fun meets => absurd meets mega⟩,fun _ => agree_small giga mega⟩

def gigaMap : Mem := store64 (store64 (fun _ => 0#8) (entryAddr 0x1000#64 256) 0x2003#64) (entryAddr 0x2000#64 0) 0x83#64

theorem walks_disagree : mmuTranslate gigaMap 0x1000#64 0xFFFF800000123456#64 = some 0x123456#64 ∧
    ¬WalksAgree gigaMap 0x1000#64 0xFFFF800000123456#64 := by
  have translated : mmuTranslate gigaMap 0x1000#64 0xFFFF800000123456#64 = some 0x123456#64 := by decide
  refine ⟨translated,?_⟩
  rw [WalksAgree,translated]
  decide

end Reddyos
