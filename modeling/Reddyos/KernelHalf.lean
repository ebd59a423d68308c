import Reddyos.ElfImage

/-! The kernel half of all address spaces: calls that change none of its last-level entries
change none of its translations, in the kernel's tables and in every process. The ELF loader
is such a call, up to the heap pages it asks for. -/
namespace Reddyos

open ByteMemory RadixForest

variable {boot : Boot} {procs : List U64} {pml4 : U64} {s next : Pmm} {free rest : List U64}
variable {changed : Slots} {k after : Kernel}

/-- No top-level entry of the kernel has its reserved bit set, and the upper entries of a
process are copies of the kernel's, or empty. -/
structure KernelHalf (boot : Boot) (procs : List U64) (s : Pmm) : Prop where
  plain : ∀ i < 512, Present (entry s.mem boot.kernelPml4 i) → ¬Large (entry s.mem boot.kernelPml4 i)
  shared : ∀ root ∈ procs, ∀ i, 256 ≤ i → i < 512 → Present (entry s.mem root i) →
    entry s.mem root i = entry s.mem boot.kernelPml4 i

theorem adm_slot (bound : i < 512) : Adm boot procs boot.kernelPml4 ([] ++ [i]) :=
  ⟨by simp,by simpa using bound,.inl rfl⟩

theorem KernelHalf.evolves (half : KernelHalf boot procs s)
    (evolves : Evolves boot procs changed s free next rest) : KernelHalf boot procs next where
  plain := by
    intro i bound present large
    obtain ⟨_,present,large⟩ := evolves.small (adm_slot bound) rfl present large
    exact half.plain i bound present large
  shared := by
    intro root member i low high present
    rw [evolves.upper member low high] at present ⊢
    have same := half.shared root member i low high present
    rw [same] at present
    rw [evolves.keeps (adm_slot high) rfl present,same]

theorem Created.kernelHalf (half : KernelHalf boot procs s)
    (created : Created boot s free procs pml4 next rest) : KernelHalf boot (pml4 :: procs) next := by
  have kernel : ∀ i < 512, entry next.mem boot.kernelPml4 i = entry s.mem boot.kernelPml4 i :=
    fun i bound => created.same _ [] _ i (adm_nil (.inl rfl)) rfl bound
  refine ⟨?_,?_⟩
  · intro i bound
    rw [kernel i bound]
    exact half.plain i bound
  · intro root member i low high present
    rw [kernel i high]
    rcases List.mem_cons.mp member with rfl | old
    · exact created.upper low high
    · rw [created.same _ [] _ i (adm_nil (.inr old)) rfl high] at present ⊢
      exact half.shared root old i low high present

/-- A translation that ends in a large page of the third level. -/
theorem mmuTranslate_huge (found : walk (child m) root [pml4Index v] = some f)
    (present : Present (entry m f (pdptIndex v))) (large : Large (entry m f (pdptIndex v))) :
    mmuTranslate m root v =
      some ((entry m f (pdptIndex v) &&& 0x000FFFFFC0000000#64) ||| (v &&& 0x3FFFFFFF#64)) := by
  simp only [walk_cons,walk_nil,child] at found
  split at found
  · rename_i first
    rw [Option.bind_some,Option.some.injEq] at found
    subst found
    unfold Large at large
    unfold mmuTranslate
    dsimp only
    rw [if_neg first.1,if_neg present,if_pos large]
  · cases found

theorem mmuTranslate_large (found : walk (child m) root [pml4Index v,pdptIndex v] = some f)
    (present : Present (entry m f (pdIndex v))) (large : Large (entry m f (pdIndex v))) :
    mmuTranslate m root v =
      some ((entry m f (pdIndex v) &&& 0x000FFFFFFFE00000#64) ||| (v &&& 0x1FFFFF#64)) := by
  simp only [walk_cons,walk_nil,child] at found
  split at found
  · rename_i first
    rw [Option.bind_some] at found
    split at found
    · rename_i second
      rw [Option.bind_some,Option.some.injEq] at found
      subst found
      unfold Large at second large
      unfold mmuTranslate
      dsimp only
      rw [if_neg first.1,if_neg second.1,if_neg second.2,if_neg present,if_pos large]
    · cases found
  · cases found

theorem Evolves.translate_kernel (half : KernelHalf boot procs s)
    (evolves : Evolves boot procs changed s free next rest)
    (other : ¬changed boot.kernelPml4 (pathOf v) (ptIndex v)) :
    mmuTranslate next.mem boot.kernelPml4 v = mmuTranslate s.mem boot.kernelPml4 v := by
  have selected : Adm boot procs boot.kernelPml4 (pathOf v) := adm_pathOf v (.inl rfl)
  by_cases small : SmallOn s.mem boot.kernelPml4 v
  · rw [mmuTranslate_leafAt (evolves.smallOn selected small),mmuTranslate_leafAt small,
      evolves.leaves selected rfl (index_lt v).2.2.2 other]
  · -- the walk ends in a large page, which stays where it is
    unfold SmallOn at small
    push Not at small
    obtain ⟨stem,i,f,short,found,present,large⟩ := small
    have here := adm_stem selected short
    have found' := evolves.mono (adm_closed here) found
    have same := evolves.keeps here found present
    rcases pathOf_stems short with ⟨rfl,rfl⟩ | ⟨rfl,rfl⟩ | ⟨rfl,rfl⟩
    · obtain rfl := Option.some.inj found
      exact absurd large (half.plain _ (index_lt v).1 present)
    · rw [mmuTranslate_huge found present large,
        mmuTranslate_huge found' (same ▸ present) (same ▸ large),same]
    · rw [mmuTranslate_large found present large,
        mmuTranslate_large found' (same ▸ present) (same ▸ large),same]

/-- In a process an upper-half address is translated as in the kernel, or not at all. -/
theorem Evolves.translate_upper (half : KernelHalf boot procs s)
    (evolves : Evolves boot procs changed s free next rest) (member : root ∈ procs) (upper : upperHalf v)
    (other : ¬changed boot.kernelPml4 (pathOf v) (ptIndex v)) :
    mmuTranslate next.mem root v = mmuTranslate s.mem root v := by
  have low := upper_index upper
  have high := (index_lt v).1
  have same := evolves.upper member low high
  by_cases present : Present (entry s.mem root (pml4Index v))
  · have shared := half.shared root member _ low high present
    have later := (half.evolves evolves).shared root member _ low high (same ▸ present)
    rw [mmuTranslate_congr shared,mmuTranslate_congr later]
    exact evolves.translate_kernel half other
  · have absent : entry s.mem root (pml4Index v) &&& pagePresent = 0#64 := by
      simpa [Present] using present
    simp only [mmuTranslate,same,if_pos absent]

def UpperKept (boot : Boot) (procs : List U64) (low high : Nat) (s next : Pmm) : Prop :=
  ∀ root, root = boot.kernelPml4 ∨ root ∈ procs → ∀ v, upperHalf v → ¬(low ≤ v.toNat ∧ v.toNat < high) →
    mmuTranslate next.mem root v = mmuTranslate s.mem root v

def LowerWithin (procs : List U64) (pml4 : U64) (touched : Nat → Prop) (s next : Pmm) : Prop :=
  ∀ root ∈ procs, ∀ v, lowerHalf v → mmuTranslate next.mem root v ≠ mmuTranslate s.mem root v →
    root = pml4 ∧ touched (v.toNat / 4096)

def SegmentPage (vnode : Vnode) (n : Nat) : Prop :=
  ∃ ph ∈ elfSegments vnode, ∃ a, ph.vaddr.toNat ≤ a ∧ a < ph.vaddr.toNat + ph.memsz.toNat ∧ a / 4096 = n

def EmptySegmentPage (vnode : Vnode) (n : Nat) : Prop :=
  ∃ ph ∈ elfSegments vnode, ph.memsz = 0#64 ∧ ph.vaddr.toNat / 4096 = n

theorem windowSlots_page {low high : U64} (slot : windowSlots boot low high root (pathOf v) (ptIndex v))
    (lowAligned : Aligned low) (highAligned : Aligned high) (start : upperHalf low) (upper : upperHalf v) :
    low.toNat ≤ v.toNat ∧ v.toNat < high.toNat := by
  obtain ⟨_,w,inside,path,index⟩ := slot
  unfold upperHalf Aligned at *
  have := v.isLt
  have := w.isLt
  simp only [pathOf,List.cons.injEq,and_true,pml4Index_eq,pdptIndex_eq,pdIndex_eq] at path
  rw [ptIndex_eq,ptIndex_eq] at index
  omega

theorem range_page {ph : ElfPhdr} (range : firstPage ph ≤ n ∧ n < endPage ph) :
    (∃ a, ph.vaddr.toNat ≤ a ∧ a < ph.vaddr.toNat + ph.memsz.toNat ∧ a / 4096 = n) ∨
      (ph.memsz = 0#64 ∧ ph.vaddr.toNat / 4096 = n) := by
  unfold firstPage endPage at range
  by_cases empty : ph.memsz = 0#64
  · right
    rw [empty] at range
    have : (0#64).toNat = 0 := rfl
    exact ⟨empty,by omega⟩
  · left
    have : ph.memsz.toNat ≠ 0 := fun zero => empty (BitVec.eq_of_toNat_eq zero)
    by_cases below : ph.vaddr.toNat ≤ 4096 * n
    · exact ⟨4096 * n,below,by omega,by omega⟩
    · exact ⟨ph.vaddr.toNat,Nat.le_refl _,by omega,by omega⟩

/-- Whether it succeeds or not, the loader changes the pages of its segments and adds pages
to the heap, behind the old cursor and in front of the new one. -/
theorem elf_loader_contained {loaded : Bool} (ok : BootOk boot) (cpu : CpuOk boot) (member : pml4 ∈ procs)
    (sp : Spaces boot k.pmm free procs) (heapOk : HeapOk boot k.pmm free k.heap)
    (half : KernelHalf boot procs k.pmm)
    (segments : ∀ ph ∈ elfSegments vnode, ph.filesz.toNat ≤ ph.memsz.toNat →
      ph.vaddr.toNat + ph.memsz.toNat ≤ 2^47 ∧ ph.whole)
    (returns : elfLoadIntoAddressSpace boot pml4 vnode info k = .ok (loaded,after)) :
    UpperKept boot procs k.heap.cursor.toNat after.heap.cursor.toNat k.pmm after.pmm ∧
      LowerWithin procs pml4 (fun n => SegmentPage vnode n ∨ EmptySegmentPage vnode n) k.pmm after.pmm := by
  obtain ⟨rest,evolves,_,heapOk',_⟩ := elfLoad_spec ok cpu member sp heapOk (fun ph listed order =>
    ⟨(segments ph listed order).1,(segments ph listed order).2.1,(segments ph listed order).2.2⟩) returns
  have different : boot.kernelPml4 ≠ pml4 := fun same => sp.kernel (same ▸ member)
  have high : upperHalf k.heap.cursor := by
    have := heapOk.low
    have : heapStart.toNat = 0xFFFFC00000000000 := rfl
    unfold upperHalf
    omega
  constructor
  · intro root either v upper outside
    have other : ¬imageSlots boot k.heap.cursor after.heap.cursor pml4 (elfPhdrs vnode) boot.kernelPml4 (pathOf v)
        (ptIndex v) := by
      rintro (heap | ⟨_,_,_,page⟩)
      · exact outside (windowSlots_page heap heapOk.aligned.cursor heapOk'.aligned.cursor high upper)
      · exact different page.1
    rcases either with rfl | process
    · exact evolves.translate_kernel half other
    · exact evolves.translate_upper half process upper other
  · intro root process v lower moved
    have selected : Adm boot procs root (pathOf v) := adm_pathOf v (.inr ⟨process,lower⟩)
    have here : imageSlots boot k.heap.cursor after.heap.cursor pml4 (elfPhdrs vnode) root (pathOf v) (ptIndex v) := by
      by_contra other
      refine moved ?_
      rw [evolves.spaces.translate process selected,sp.translate process selected,
        evolves.leaves selected rfl (index_lt v).2.2.2 other]
    rcases here with heap | ⟨ph,listed,load,page⟩
    · exact absurd (heap.1 ▸ process) sp.kernel
    · have segment : ph ∈ elfSegments vnode := List.mem_filter.mpr ⟨listed,by simpa using load⟩
      have range := rangeSlots_page lower page
      refine ⟨page.1,?_⟩
      rcases range_page (n := v.toNat / 4096) (show firstPage ph ≤ _ ∧ _ < endPage ph by omega) with inside | empty
      · exact .inl ⟨ph,segment,inside⟩
      · exact .inr ⟨ph,segment,empty⟩

def upperFile : Vnode := elfFile [⟨1#32,6#32,0x1000#64,0xFFFF900000000000#64,0x10#64,0x20#64⟩]

def spillFile : Vnode := filledFile 0x55#8 [⟨1#32,5#32,0x1000#64,0x400800#64,0x1000#64,0x1000#64⟩]

/-- The loader as a process meets it: nothing else was ever mapped. The heap may grow up to `limit`. -/
def Contained (vnode : Vnode) (limit : Kernel → Nat) : Prop :=
  ∀ loaded pml4 s after, loadFresh vnode = .ok ((loaded,pml4),s,after) →
    UpperKept fbBoot [pml4] heapStart.toNat (limit after) s after.pmm ∧
      LowerWithin [pml4] pml4 (SegmentPage vnode) s after.pmm

theorem not_contained {v : U64} {limit : Kernel → Nat} (root : U64 → U64)
    (either : ∀ pml4, root pml4 = 0x9000#64 ∨ root pml4 = pml4) (upper : upperHalf v)
    (evaluated : (loadFresh vnode).toOption.map (fun r =>
      (decide (heapStart.toNat ≤ v.toNat ∧ v.toNat < limit r.2.2),
        (mmuTranslate r.2.1.mem (root r.1.2) v).isSome == (mmuTranslate r.2.2.pmm.mem (root r.1.2) v).isSome)) =
      some (false,false)) : ¬Contained vnode limit := by
  intro contained
  match result : loadFresh vnode with
  | .error stop => rw [result] at evaluated; cases evaluated
  | .ok ((loaded,pml4),s,after) =>
    rw [result] at evaluated
    simp only [Except.toOption,Option.map_some,Option.some.injEq,Prod.mk.injEq,decide_eq_false_iff_not] at evaluated
    have same := (contained loaded pml4 s after result).1 (root pml4)
      ((either pml4).imp id (fun h => by simp [h])) v upper evaluated.1
    simp [same] at evaluated

def emptyFile : Vnode := elfFile [⟨1#32,6#32,0x1000#64,0x400010#64,0#64,0#64⟩]

theorem emptyFile_segments : elfSegments emptyFile =
    [⟨1#32,6#32,0x1000#64,0x400010#64,0#64,0#64⟩] := by decide +kernel

/-- Loading needs a heap page. With the new heap pages left out, a segment may lie in the kernel half, a chunk that
runs over the end of its page changes kernel tables, and an empty segment that starts inside a page gets that page. -/
theorem elf_loader_escapes : ¬Contained alignedFile (fun _ => 0) ∧
    ¬Contained upperFile (fun after => after.heap.cursor.toNat) ∧
    ¬Contained spillFile (fun after => after.heap.cursor.toNat) ∧
    ¬Contained emptyFile (fun after => after.heap.cursor.toNat) := by
  refine ⟨?_,?_,?_,?_⟩
  · exact not_contained (v := heapStart) (fun _ => 0x9000#64) (fun _ => .inl rfl) (by decide) (by decide +kernel)
  · exact not_contained (v := 0xFFFF900000000000#64) id (fun _ => .inr rfl) (by decide) (by decide +kernel)
  · exact not_contained (v := 0xFFFFC00000064000#64) (fun _ => 0x9000#64) (fun _ => .inl rfl) (by decide)
      (by decide +kernel)
  · intro contained
    have evaluated : (loadFresh emptyFile).toOption.map (fun r =>
        ((mmuTranslate r.2.1.mem r.1.2 0x400000#64).isSome,(mmuTranslate r.2.2.pmm.mem r.1.2 0x400000#64).isSome)) =
        some (false,true) := by decide +kernel
    match result : loadFresh emptyFile with
    | .error stop => rw [result] at evaluated; cases evaluated
    | .ok ((loaded,pml4),s,after) =>
      rw [result] at evaluated
      simp only [Except.toOption,Option.map_some,Option.some.injEq,Prod.mk.injEq] at evaluated
      obtain ⟨_,ph,listed,a,low,high,_⟩ := (contained loaded pml4 s after result).2 pml4 (by simp) 0x400000#64
        (by decide) (fun same => by rw [same,evaluated.1] at evaluated; cases evaluated.2)
      rw [emptyFile_segments,List.mem_singleton] at listed
      rw [listed] at low high
      exact absurd high (Nat.not_lt.mpr low)

theorem fbStart_half : KernelHalf fbBoot [] fbStart.pmm := by
  obtain ⟨_,_,same⟩ := boot_spaces fbBoot_ok fbBoot_tables
  refine ⟨fun i bound => ?_,by simp⟩
  unfold fbStart
  dsimp only
  rw [same _ [] _ i (adm_nil (.inl rfl)) rfl bound,entry_zero]
  exact fun present => absurd present not_present_zero

theorem elf_loader_contained_aligned : ∃ pml4 s info after,
    pagingCreateAddressSpace fbBoot fbStart.pmm = .ok (pml4,s) ∧
      elfLoadIntoAddressSpace fbBoot pml4 alignedFile info ⟨s,fbStart.heap⟩ = .ok (true,after) ∧
      UpperKept fbBoot [pml4] heapStart.toNat after.heap.cursor.toNat s after.pmm ∧
      LowerWithin [pml4] pml4 (fun n => SegmentPage alignedFile n ∨ EmptySegmentPage alignedFile n) s after.pmm := by
  have evaluated : (loadFresh alignedFile).toOption.map Prod.fst = some (true,0x10F000#64) := by decide +kernel
  obtain ⟨⟨s,after⟩,returns⟩ := returns_of_fst evaluated
  obtain ⟨creates,loads⟩ := loadFresh_calls returns
  obtain ⟨free,spaces,heapOk⟩ := fbStart_ok
  obtain ⟨rest,created⟩ := pagingCreateAddressSpace_spec fbBoot_ok spaces creates
  have contained := elf_loader_contained fbBoot_ok fbBoot_cpu (by simp) (k := ⟨s,fbStart.heap⟩) created.spaces
    (created.heapOk heapOk) (created.kernelHalf fbStart_half)
    (fun ph listed _ => by
      rw [alignedFile_segments,List.mem_singleton] at listed
      subst listed
      simp [ElfPhdr.whole,WholeChunks]) loads
  exact ⟨_,s,_,after,creates,loads,contained⟩

end Reddyos
