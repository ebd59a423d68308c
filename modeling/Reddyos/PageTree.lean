import Reddyos.Framebuffer
import Reddyos.Progress

/-! One address space by itself: a tree of page tables with 4 KiB leaves only. `vmm_map` changes
what `vmm_virt_to_phys_as` answers on one page and keeps the tree. -/
namespace Reddyos

open ByteMemory RadixForest

variable {boot : Boot} {s next : Pmm} {free rest : List U64}

def Canonical (v : U64) : Prop := lowerHalf v ∨ upperHalf v

def SamePage (v w : U64) : Prop := v.toNat / 4096 = w.toNat / 4096

def SameAnswer (before after : Int) : Prop := before = after ∨ before < 0 ∧ after < 0

def pageFlags : U64 := pagePresent ||| pageWritable ||| pageUser ||| pageWthru ||| pageNocache ||| pageNx

def TablePath (path : List Nat) : Prop := path.length ≤ 3 ∧ ∀ i ∈ path, i < 512

/-- The tables below `root` are pairwise different frames that nobody will hand out again. -/
structure TableTree (boot : Boot) (s : Pmm) (free : List U64) (root : U64) : Prop where
  pmm : PmmInv boot s free
  frame : FrameOk root
  distinct : TablePath path → TablePath path' → walk (child s.mem) root path = some f →
    walk (child s.mem) root path' = some f → path = path'
  apart : TablePath path → walk (child s.mem) root path = some f → f ∉ avail boot s free
  small : TablePath (path ++ [i]) → walk (child s.mem) root path = some f → Present (entry s.mem f i) →
    ¬Large (entry s.mem f i)

abbrev Boot.rooted (boot : Boot) (root : U64) : Boot := { boot with kernelPml4 := root }

theorem adm_rooted : Adm (boot.rooted root) [] other path ↔ other = root ∧ TablePath path := by
  simp [Adm,TablePath,and_comm,and_left_comm]

theorem fillPages_rooted : fillPages (boot.rooted root) e limit pages s = fillPages boot e limit pages s := by
  induction pages generalizing s with
  | zero => rfl
  | succ pages ih =>
    unfold fillPages
    split
    · exact ih
    · rfl

theorem fillEntries_rooted : fillEntries (boot.rooted root) memmap pages s = fillEntries boot memmap pages s := by
  induction memmap generalizing pages s with
  | nil => rfl
  | cons e rest ih =>
    unfold fillEntries
    simp only [ih,fillPages_rooted]

theorem pmmAllocPage_rooted : pmmAllocPage (boot.rooted root) s = pmmAllocPage boot s := by
  unfold pmmAllocPage pmmFill
  rw [fillEntries_rooted]
  rfl

theorem getNext_rooted : getNext (boot.rooted root) = getNext boot := by
  funext table index flags s
  unfold getNext allocTable
  rw [pmmAllocPage_rooted]

theorem vmmMap_rooted : vmmMap (boot.rooted root) = vmmMap boot := by
  funext pml4 v phys flags s
  unfold vmmMap
  rw [getNext_rooted]
  rfl

theorem BootOk.rooted (ok : BootOk boot) (root : U64) : BootOk (boot.rooted root) :=
  ⟨ok.fits,ok.disjoint,ok.nonNull⟩

theorem TableTree.spaces (tree : TableTree boot s free root) : Spaces (boot.rooted root) s free [] where
  pmm := ⟨tree.pmm.list,tree.pmm.cursor,tree.pmm.suffix,tree.pmm.nodup,tree.pmm.subset⟩
  forest := by
    refine ⟨adm_closed,?_⟩
    intro top path top' path' f selected selected' found found'
    obtain ⟨rfl,inside⟩ := adm_rooted.mp selected
    obtain ⟨rfl,inside'⟩ := adm_rooted.mp selected'
    exact ⟨rfl,tree.distinct inside inside' found found'⟩
  apart := by
    intro top path f selected found
    obtain ⟨rfl,inside⟩ := adm_rooted.mp selected
    exact tree.apart inside found
  roots := by
    rintro top (rfl | member)
    · exact tree.frame
    · cases member
  small := by
    intro top path i f member
    cases member
  kernel := List.not_mem_nil

theorem TableTree.smallOn (tree : TableTree boot s free root) (v : U64) : SmallOn s.mem root v := by
  intro stem i f short found present
  have selected : Adm (boot.rooted root) [] root (pathOf v) := adm_pathOf v (.inl rfl)
  exact tree.small (adm_rooted.mp (adm_stem selected short)).2 found present

/-- Growing the tables and setting last-level entries leaves a tree. -/
theorem TableTree.grown (tree : TableTree boot s free root)
    (grown : Evolves (boot.rooted root) [] changed s free next rest) : TableTree boot next rest root where
  pmm := ⟨grown.spaces.pmm.list,grown.spaces.pmm.cursor,grown.spaces.pmm.suffix,grown.spaces.pmm.nodup,
    grown.spaces.pmm.subset⟩
  frame := tree.frame
  distinct := by
    intro path path' f inside inside' found found'
    exact (grown.spaces.forest.unique (adm_rooted.mpr ⟨rfl,inside⟩) (adm_rooted.mpr ⟨rfl,inside'⟩) found found').2
  apart := by
    intro path f inside found
    exact grown.spaces.apart (adm_rooted.mpr ⟨rfl,inside⟩) found
  small := by
    intro path i f inside found present large
    obtain ⟨found,present,large⟩ := grown.small (adm_rooted.mpr ⟨rfl,inside⟩) found present large
    exact tree.small inside found present large

theorem same_page_canonical (canonical : Canonical v) (canonical' : Canonical w) :
    (pathOf w = pathOf v ∧ ptIndex w = ptIndex v) ↔ SamePage v w := by
  unfold Canonical lowerHalf upperHalf at canonical canonical'
  unfold SamePage
  have := v.isLt
  have := w.isLt
  simp only [pathOf,List.cons.injEq,and_true,pml4Index_eq,pdptIndex_eq,pdIndex_eq,ptIndex_eq]
  constructor <;> intro same <;> omega

theorem SamePage.canonical (page : SamePage v w) (canonical : Canonical v) : Canonical w := by
  unfold SamePage at page
  unfold Canonical lowerHalf upperHalf at canonical ⊢
  omega

theorem vmmVirtToPhysAs_missing (missing : mmuTranslate m root v = none) : vmmVirtToPhysAs m root v < 0 := by
  unfold mmuTranslate at missing
  unfold vmmVirtToPhysAs
  dsimp only at missing ⊢
  split_ifs at missing ⊢ <;> decide

/-- What `vmm_virt_to_phys_as` answers depends on the last-level entry only. -/
theorem TableTree.answer (before : TableTree boot s free root) (after : TableTree boot next rest root)
    (same : leafAt next.mem root (pathOf w) (ptIndex w) = leafAt s.mem root (pathOf w) (ptIndex w)) :
    SameAnswer (vmmVirtToPhysAs s.mem root w) (vmmVirtToPhysAs next.mem root w) := by
  cases leaf : leafAt s.mem root (pathOf w) (ptIndex w) with
  | some e => exact .inl ((vmmVirtToPhysAs_leaf leaf).trans (vmmVirtToPhysAs_leaf (same.trans leaf)).symm)
  | none =>
    refine .inr ⟨vmmVirtToPhysAs_missing ?_,vmmVirtToPhysAs_missing ?_⟩
    · rw [mmuTranslate_leafAt (before.smallOn w),leaf]
      rfl
    · rw [mmuTranslate_leafAt (after.smallOn w),same,leaf]
      rfl

theorem pageFlags_plain (plain : flags &&& ~~~pageFlags = 0#64) : flags &&& pageMask = 0#64 := by
  have inside : pageMask = ~~~pageFlags &&& pageMask := by decide
  rw [inside,← BitVec.and_assoc,plain,BitVec.zero_and]

theorem aligned_reach (aligned : Aligned phys) (reach : phys ≤ mask) (narrow : mask.toNat < 2^52) : FrameOk phys := by
  have := BitVec.le_def.mp reach
  unfold Aligned at aligned
  exact ⟨aligned,by omega⟩

/-- `vmm_map` changes one page of the translation and nothing else. -/
theorem vmm_map_point_update (ok : BootOk boot) (cpu : CpuOk boot) (narrow : boot.cpuPageMask.toNat < 2^52)
    (tree : TableTree boot s free root) (canonical : Canonical v) (aligned : Aligned phys)
    (reach : phys ≤ boot.cpuPageMask) (plain : flags &&& ~~~pageFlags = 0#64) :
    (3 ≤ (avail boot s free).length → ∃ next, vmmMap boot root v phys flags s = .ok next) ∧
    ∀ next, vmmMap boot root v phys flags s = .ok next →
      (∃ rest, TableTree boot next rest root) ∧
      (∀ w, SamePage v w → vmmVirtToPhysAs next.mem root w = (phys ||| (w &&& 0xFFF#64)).toNat) ∧
      ∀ w, Canonical w → ¬SamePage v w →
        SameAnswer (vmmVirtToPhysAs s.mem root w) (vmmVirtToPhysAs next.mem root w) := by
  have here : ∀ w, Adm (boot.rooted root) [] root (pathOf w) := fun w => adm_pathOf w (.inl rfl)
  have spaces := tree.spaces
  constructor
  · intro room
    obtain ⟨next,_,returns,_⟩ := vmmMap_returns (ok.rooted root) spaces (here v) (tree.smallOn v) reach flags
      (show 0 + 3 ≤ _ by rw [Nat.zero_add]; exact room)
    exact ⟨next,vmmMap_rooted ▸ returns⟩
  · intro next returns
    obtain ⟨rest,update⟩ := vmmMap_spec (ok.rooted root) spaces (here v) (tree.smallOn v)
      ((congrArg (fun call => call root v phys flags s) vmmMap_rooted).trans returns)
    have after : TableTree boot next rest root := tree.grown update.toEvolves
    refine ⟨⟨rest,after⟩,?_,?_⟩
    · intro w page
      obtain ⟨path,slot⟩ := (same_page_canonical canonical (page.canonical canonical)).mpr page
      have leaf : leafAt next.mem root (pathOf w) (ptIndex w) = some (leafEntry boot phys flags) := by
        rw [path,slot,update.new]
        exact if_pos (leafEntry_present boot phys flags)
      rw [vmmVirtToPhysAs_leaf leaf,physical,leafEntry_frame cpu (BitVec.not_lt.mpr reach)
        (aligned_reach aligned reach narrow) (pageFlags_plain plain)]
    · intro w canonical' other
      refine tree.answer after (update.leaves (here w) rfl (index_lt w).2.2.2 ?_)
      rintro ⟨_,path,slot⟩
      exact other ((same_page_canonical canonical canonical').mp ⟨path,slot⟩)

/-- The top-level table of an empty address space. -/
theorem emptyTree (ok : BootOk boot) (frame : FrameOk boot.kernelPml4) (apart : boot.kernelPml4 ∉ frames boot) :
    ∃ free, TableTree boot (pmmInit boot ⟨fun _ => 0#8,0#64,0,0#64⟩) free boot.kernelPml4 := by
  obtain ⟨free,spaces,same⟩ := boot_spaces ok (zero_tables frame apart)
  have here : ∀ {path}, TablePath path → Adm boot [] boot.kernelPml4 path := fun inside => ⟨inside.1,inside.2,.inl rfl⟩
  refine ⟨free,spaces.pmm,frame,?_,fun inside => spaces.apart (here inside),?_⟩
  · intro path path' f inside inside' found found'
    exact (spaces.forest.unique (here inside) (here inside') found found').2
  · intro path i f inside found present
    have above := adm_closed (here inside)
    rw [same.walk above] at found
    rw [same boot.kernelPml4 path f i above found (inside.2 i (by simp)),entry_zero] at present
    exact absurd present not_present_zero

/-- The first page mapped in an empty address space. -/
theorem vmm_map_point_update_first : ∃ next,
    vmmMap fbBoot fbBoot.kernelPml4 0x400000#64 0x200000#64 pageUser fbStart.pmm = .ok next ∧
    vmmVirtToPhysAs next.mem fbBoot.kernelPml4 0x400123#64 = 0x200123 := by
  obtain ⟨free,tree⟩ := emptyTree fbBoot_ok (by simp [FrameOk,Aligned,fbBoot]) (by rw [fbBoot_frames]; simp [fbBoot])
  obtain ⟨_,updates⟩ := @vmm_map_point_update fbBoot fbStart.pmm free fbBoot.kernelPml4 0x400000#64 0x200000#64 pageUser
    fbBoot_ok fbBoot_cpu (by decide) tree (.inl (by decide)) (by simp [Aligned]) (by decide) (by decide)
  have evaluated : (vmmMap fbBoot fbBoot.kernelPml4 0x400000#64 0x200000#64 pageUser fbStart.pmm).toOption.isSome = true := by
    decide +kernel
  cases maps : vmmMap fbBoot fbBoot.kernelPml4 0x400000#64 0x200000#64 pageUser fbStart.pmm with
  | error stop =>
    rw [maps] at evaluated
    cases evaluated
  | ok next =>
    obtain ⟨_,page,_⟩ := updates next maps
    exact ⟨next,rfl,page 0x400123#64 (by unfold SamePage; decide)⟩

end Reddyos
