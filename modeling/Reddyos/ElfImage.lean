import Reddyos.ElfSegment
import Reddyos.Framebuffer

/-! The whole image: every segment of a file ends up in the address space as the file has
it, and the loader changes no translation but those of its segments and of new heap pages. -/
namespace Reddyos

open ByteMemory RadixForest

variable {boot : Boot} {procs : List U64} {pml4 : U64} {s next : Pmm} {free rest : List U64}
variable {changed : Slots} {k after : Kernel}

def elfPhdrs (vnode : Vnode) : List ElfPhdr :=
  match readElfHeader vnode with
  | none => []
  | some header => (List.range header.phnum.toNat).filterMap (readPhdr vnode header)

def elfSegments (vnode : Vnode) : List ElfPhdr := (elfPhdrs vnode).filter fun ph => ph.type = ptLoad

def PagesApart (ph ph' : ElfPhdr) : Prop :=
  ∀ n, ¬((firstPage ph ≤ n ∧ n < endPage ph) ∧ firstPage ph' ≤ n ∧ n < endPage ph')

def imageSlots (boot : Boot) (low high pml4 : U64) (phs : List ElfPhdr) : Slots := fun root path i =>
  windowSlots boot low high root path i ∨ ∃ ph ∈ phs, ph.type = ptLoad ∧
    rangeSlots pml4 (firstPage ph) (endPage ph - firstPage ph) root path i

theorem imageSlots_first {low middle high : U64} (above : middle.toNat ≤ high.toNat)
    (slot : segmentSlots boot low middle pml4 ph root path i) : imageSlots boot low high pml4 (ph :: phs) root path i := by
  rcases slot with heap | ⟨load,page⟩
  · exact .inl (windowSlots_mono (Nat.le_refl _) above heap)
  · exact .inr ⟨ph,List.mem_cons_self,load,page⟩

theorem imageSlots_rest {low middle high : U64} (ph : ElfPhdr) (above : low.toNat ≤ middle.toNat)
    (slot : imageSlots boot middle high pml4 phs root path i) : imageSlots boot low high pml4 (ph :: phs) root path i := by
  rcases slot with heap | ⟨ph',more,load,page⟩
  · exact .inl (windowSlots_mono above (Nat.le_refl _) heap)
  · exact .inr ⟨ph',List.mem_cons_of_mem _ more,load,page⟩

theorem imageSlots_apart (sp : Spaces boot s free procs) (member : pml4 ∈ procs)
    (separate : ∀ other ∈ phs, other.type = ptLoad → PagesApart ph other)
    (lower : ph.vaddr.toNat + ph.memsz.toNat ≤ 2^47) (low : ph.vaddr.toNat ≤ w.toNat)
    (high : w.toNat < ph.vaddr.toNat + ph.memsz.toNat) : ¬imageSlots boot cursor cursor' pml4 phs pml4 (pathOf w) (ptIndex w) := by
  rintro (heap | ⟨other,more,load,page⟩)
  · exact sp.kernel (heap.1 ▸ member)
  · have lower : lowerHalf w := by unfold lowerHalf; omega
    obtain ⟨from',until'⟩ := rangeSlots_page lower page
    refine separate other more load (w.toNat / 4096) ?_
    unfold firstPage endPage at *
    omega

theorem Shows.evolves (shows : Shows boot procs pml4 s free start size data) (ok : BootOk boot)
    (sp : Spaces boot s free procs) (member : pml4 ∈ procs) (lower : start + size ≤ 2^47)
    (evolves : Evolves boot procs changed s free next rest)
    (other : ∀ w : U64, start ≤ w.toNat → w.toNat < start + size → ¬changed pml4 (pathOf w) (ptIndex w)) :
    Shows boot procs pml4 next rest start size data := by
  intro w low high
  exact (shows w low high).evolves ok sp member (by unfold lowerHalf; omega) evolves (other w low high)

theorem loadSegments_spec {loaded : Bool} (ok : BootOk boot) (cpu : CpuOk boot) (member : pml4 ∈ procs)
    (sp : Spaces boot k.pmm free procs) (heapOk : HeapOk boot k.pmm free k.heap)
    (segments : ∀ ph ∈ indices.filterMap (readPhdr vnode header), ph.type = ptLoad →
      ph.filesz.toNat ≤ ph.memsz.toNat → SegmentOk ph)
    (returns : loadSegments boot pml4 vnode header indices k = .ok (loaded,after)) :
    ∃ rest, Evolves boot procs (imageSlots boot k.heap.cursor after.heap.cursor pml4
        (indices.filterMap (readPhdr vnode header))) k.pmm free after.pmm rest ∧
      LeavesFrom boot procs pml4 k.pmm free after.pmm rest ∧ HeapOk boot after.pmm rest after.heap ∧
      k.heap.cursor.toNat ≤ after.heap.cursor.toNat ∧ (loaded = true → ((indices.filterMap (readPhdr vnode header)).filter fun ph => ph.type = ptLoad).Pairwise
        PagesApart → ∀ ph ∈ indices.filterMap (readPhdr vnode header), ph.type = ptLoad →
        Shows boot procs pml4 after.pmm rest ph.vaddr.toNat ph.memsz.toNat (segmentByte vnode ph)) := by
  induction indices generalizing k free with
  | nil =>
    obtain ⟨rfl,rfl⟩ := ok_pair returns
    exact ⟨free,.refl _ sp,.refl _ _ _ _ _,heapOk,Nat.le_refl _,by simp⟩
  | cons i indices ih =>
    unfold loadSegments at returns
    split at returns
    · obtain ⟨rfl,rfl⟩ := ok_pair returns
      exact ⟨free,.refl _ sp,.refl _ _ _ _ _,heapOk,Nat.le_refl _,by simp⟩
    rename_i ph found
    rw [List.filterMap_cons_some found] at segments ⊢
    obtain ⟨⟨first,k₁⟩,loads,returns⟩ := ok_of_bind returns
    obtain ⟨free₁,evolves,leaves,heapOk₁,above,shows⟩ := loadSegment_spec ok cpu member sp heapOk
      (segments ph (by simp)) loads
    have here : ∀ {last : U64}, k₁.heap.cursor.toNat ≤ last.toNat → Evolves boot procs (imageSlots boot k.heap.cursor last
        pml4 (ph :: indices.filterMap (readPhdr vnode header))) k.pmm free k₁.pmm free₁ :=
      fun last => evolves.weaken fun _ _ _ => imageSlots_first last
    dsimp only at returns
    cases first with
    | false =>
      obtain ⟨rfl,rfl⟩ := ok_pair returns
      exact ⟨free₁,here (Nat.le_refl _),leaves,heapOk₁,above,by simp⟩
    | true =>
      obtain ⟨rest,later,leaves',heapOk',above',all⟩ := ih evolves.spaces heapOk₁
        (fun ph' more => segments ph' (by simp [more])) returns
      have wider := later.weaken (fun _ _ _ => imageSlots_rest ph above)
      refine ⟨rest,(here above').trans wider,leaves.trans leaves' evolves.less later,heapOk',Nat.le_trans above above',?_⟩
      intro done apart ph' listed load
      rcases List.mem_cons.mp listed with rfl | more
      · rw [List.filter_cons_of_pos (by simpa using load)] at apart
        have separate := (List.pairwise_cons.mp apart).1
        obtain ⟨order,seen⟩ := shows rfl load
        have below := (segments ph' (by simp) load order).lower
        refine seen.evolves ok evolves.spaces member below later fun w low high => ?_
        exact imageSlots_apart evolves.spaces member
          (fun other more load' => separate other (List.mem_filter.mpr ⟨more,by simpa using load'⟩)) below low high
      · refine all done ?_ ph' more load
        by_cases load' : ph.type = ptLoad
        · rw [List.filter_cons_of_pos (by simpa using load')] at apart
          exact (List.pairwise_cons.mp apart).2
        · rwa [List.filter_cons_of_neg (by simpa using load')] at apart

theorem elfLoad_spec {loaded : Bool} (ok : BootOk boot) (cpu : CpuOk boot) (member : pml4 ∈ procs)
    (sp : Spaces boot k.pmm free procs) (heapOk : HeapOk boot k.pmm free k.heap)
    (segments : ∀ ph ∈ elfSegments vnode, ph.filesz.toNat ≤ ph.memsz.toNat → SegmentOk ph)
    (returns : elfLoadIntoAddressSpace boot pml4 vnode info k = .ok (loaded,after)) :
    ∃ rest, Evolves boot procs (imageSlots boot k.heap.cursor after.heap.cursor pml4 (elfPhdrs vnode))
        k.pmm free after.pmm rest ∧
      LeavesFrom boot procs pml4 k.pmm free after.pmm rest ∧ HeapOk boot after.pmm rest after.heap ∧
      (loaded = true → (elfSegments vnode).Pairwise PagesApart → ∀ ph ∈ elfSegments vnode,
        Shows boot procs pml4 after.pmm rest ph.vaddr.toNat ph.memsz.toNat (segmentByte vnode ph)) := by
  unfold elfSegments elfPhdrs at *
  unfold elfLoadIntoAddressSpace at returns
  cases valid : readElfHeader vnode with
  | none =>
    rw [valid] at returns
    obtain ⟨rfl,rfl⟩ := ok_pair returns
    exact ⟨free,.refl _ sp,.refl _ _ _ _ _,heapOk,by simp⟩
  | some header =>
    simp only [valid] at segments returns ⊢
    split at returns
    · obtain ⟨rfl,rfl⟩ := ok_pair returns
      exact ⟨free,.refl _ sp,.refl _ _ _ _ _,heapOk,by simp⟩
    obtain ⟨rest,evolves,leaves,heapOk',_,shows⟩ := loadSegments_spec ok cpu member sp heapOk
      (fun ph listed load => segments ph (List.mem_filter.mpr ⟨listed,by simpa using load⟩)) returns
    refine ⟨rest,evolves,leaves,heapOk',fun done apart ph listed => ?_⟩
    obtain ⟨listed,load⟩ := List.mem_filter.mp listed
    exact shows done apart ph listed (by simpa using load)

def userByte (s : Pmm) (pml4 v : U64) : Option (BitVec 8) :=
  (mmuTranslate s.mem pml4 v).map fun phys => s.mem phys.toNat

/-- Every byte of every segment is the file's, or zero behind the part that is in the file. -/
def ImageCorrect (vnode : Vnode) (pml4 : U64) (s : Pmm) : Prop :=
  ∀ ph ∈ elfSegments vnode, ∀ i < ph.memsz.toNat,
    userByte s pml4 (ph.vaddr + BitVec.ofNat 64 i) = some (segmentByte vnode ph i)

/-- No chunk of the segment crosses a page. -/
def ElfPhdr.whole (ph : ElfPhdr) : Prop :=
  WholeChunks ph.vaddr.toNat ph.filesz.toNat ∧ (ph.filesz.toNat < ph.memsz.toNat →
    WholeChunks (ph.vaddr.toNat + ph.filesz.toNat) (ph.memsz.toNat - ph.filesz.toNat))

theorem Sees.userByte (sees : Sees boot procs pml4 s free v b) (sp : Spaces boot s free procs)
    (member : pml4 ∈ procs) (lower : lowerHalf v) : userByte s pml4 v = some b := by
  obtain ⟨e,leaf,_,byte⟩ := sees
  unfold leafOf at leaf
  rw [Reddyos.userByte,sp.translate member (adm_pathOf v (.inr ⟨member,lower⟩)),leaf,Option.map_some,
    Option.map_some,byte]

/-- The image of a file whose segments are disjoint lower-half ranges is right when no chunk
crosses a page. -/
theorem elf_image_correct (ok : BootOk boot) (cpu : CpuOk boot) (sp : Spaces boot k.pmm free procs)
    (heapOk : HeapOk boot k.pmm free k.heap) (creates : pagingCreateAddressSpace boot k.pmm = .ok (pml4,s))
    (loads : elfLoadIntoAddressSpace boot pml4 vnode info ⟨s,k.heap⟩ = .ok (true,after))
    (lower : ∀ ph ∈ elfSegments vnode, ph.vaddr.toNat + ph.memsz.toNat ≤ 2^47)
    (apart : (elfSegments vnode).Pairwise PagesApart) (whole : ∀ ph ∈ elfSegments vnode, ph.whole) :
    ImageCorrect vnode pml4 after.pmm := by
  obtain ⟨left,created⟩ := pagingCreateAddressSpace_spec ok sp creates
  have member : pml4 ∈ pml4 :: procs := by simp
  obtain ⟨rest,evolves,_,_,shows⟩ := elfLoad_spec ok cpu member (k := ⟨s,k.heap⟩) created.spaces
    (created.heapOk heapOk)
    (fun ph listed _ => ⟨lower ph listed,(whole ph listed).1,(whole ph listed).2⟩) loads
  intro ph listed i inside
  have below := lower ph listed
  have address : (ph.vaddr + BitVec.ofNat 64 i).toNat = ph.vaddr.toNat + i := by
    rw [toNat_chunkAddr] <;> rw [BitVec.toNat_ofNat,Nat.mod_eq_of_lt (by omega)]
    omega
  have seen := shows rfl apart ph listed (ph.vaddr + BitVec.ofNat 64 i) (by omega) (by omega)
  rw [address,Nat.add_sub_cancel_left] at seen
  exact seen.userByte evolves.spaces member (by unfold lowerHalf; omega)

def le (n w : Nat) : List (BitVec 8) := (List.range n).map fun i => BitVec.ofNat 8 (w / 256^i)

def phdrBytes (ph : ElfPhdr) : List (BitVec 8) :=
  le 4 ph.type.toNat ++ le 4 ph.flags.toNat ++ le 8 ph.offset.toNat ++ le 8 ph.vaddr.toNat ++ le 8 0 ++
    le 8 ph.filesz.toNat ++ le 8 ph.memsz.toNat ++ le 8 4096

def elfBytes (entry : U64) (phs : List ElfPhdr) : List (BitVec 8) :=
  [0x7F#8,0x45#8,0x4C#8,0x46#8,2#8,1#8,1#8] ++ le 9 0 ++ le 2 2 ++ le 2 62 ++ le 4 1 ++ le 8 entry.toNat ++
    le 8 64 ++ le 8 0 ++ le 4 0 ++ le 2 64 ++ le 2 56 ++ le 2 phs.length ++ le 6 0 ++ phs.flatMap phdrBytes

def filledFile (byte : BitVec 8) (phs : List ElfPhdr) : Vnode :=
  ⟨0x3000#64,fun i => (elfBytes 0x400000#64 phs).getD i byte,by decide⟩

def elfFile (phs : List ElfPhdr) : Vnode := filledFile 0xAA#8 phs

def alignedFile : Vnode := elfFile [⟨1#32,6#32,0x1000#64,0x400000#64,0x10#64,0x20#64⟩]

def crossingFile : Vnode := elfFile [⟨1#32,5#32,0x1000#64,0x400800#64,0x1000#64,0x1000#64⟩]

theorem alignedFile_segments : elfSegments alignedFile =
    [⟨1#32,6#32,0x1000#64,0x400000#64,0x10#64,0x20#64⟩] := by decide +kernel

theorem crossingFile_segments : elfSegments crossingFile =
    [⟨1#32,5#32,0x1000#64,0x400800#64,0x1000#64,0x1000#64⟩] := by decide +kernel

def loadFresh (vnode : Vnode) : Except Stop ((Bool × U64) × Pmm × Kernel) := do
  let (pml4,s) ← pagingCreateAddressSpace fbBoot fbStart.pmm
  let (loaded,after) ← elfLoadIntoAddressSpace fbBoot pml4 vnode ⟨0x400000#64,0#64,0#64,1#16,56#16⟩
    ⟨s,fbStart.heap⟩
  return ((loaded,pml4),s,after)

theorem loadFresh_calls (returns : loadFresh vnode = .ok ((loaded,pml4),s,after)) :
    pagingCreateAddressSpace fbBoot fbStart.pmm = .ok (pml4,s) ∧
      elfLoadIntoAddressSpace fbBoot pml4 vnode ⟨0x400000#64,0#64,0#64,1#16,56#16⟩ ⟨s,fbStart.heap⟩ =
        .ok (loaded,after) := by
  unfold loadFresh at returns
  obtain ⟨⟨pml4',s'⟩,creates,returns⟩ := ok_of_bind returns
  obtain ⟨⟨loaded',after'⟩,loads,returns⟩ := ok_of_bind returns
  simp only [pure,Except.pure,Except.ok.injEq,Prod.mk.injEq] at returns
  obtain ⟨⟨rfl,rfl⟩,rfl,rfl⟩ := returns
  exact ⟨creates,loads⟩

/-- The second half of the chunk lands in a frame that is not the next page's. -/
theorem elf_image_crossing : BootOk fbBoot ∧ CpuOk fbBoot ∧
    (∃ free, Spaces fbBoot fbStart.pmm free [] ∧ HeapOk fbBoot fbStart.pmm free fbStart.heap) ∧
    (∀ ph ∈ elfSegments crossingFile, ph.vaddr.toNat + ph.memsz.toNat ≤ 2^47) ∧
    (elfSegments crossingFile).Pairwise PagesApart ∧
    ∃ pml4 s info after, pagingCreateAddressSpace fbBoot fbStart.pmm = .ok (pml4,s) ∧
      elfLoadIntoAddressSpace fbBoot pml4 crossingFile info ⟨s,fbStart.heap⟩ = .ok (true,after) ∧
      ¬ImageCorrect crossingFile pml4 after.pmm := by
  refine ⟨fbBoot_ok,fbBoot_cpu,fbStart_ok,?_,?_,?_⟩
  · rw [crossingFile_segments]
    simp
  · rw [crossingFile_segments]
    simp
  have evaluated : (loadFresh crossingFile).toOption.map
      (fun r => (r.1,userByte r.2.2.pmm r.1.2 0x401000#64)) =
      some ((true,0x10F000#64),some 0#8) := by decide +kernel
  match result : loadFresh crossingFile with
  | .error stop => rw [result] at evaluated; cases evaluated
  | .ok ((loaded,pml4),s,after) =>
    rw [result] at evaluated
    simp only [Except.toOption,Option.map_some,Option.some.injEq,Prod.mk.injEq] at evaluated
    obtain ⟨⟨rfl,rfl⟩,seen⟩ := evaluated
    obtain ⟨creates,loads⟩ := loadFresh_calls result
    refine ⟨_,s,_,after,creates,loads,fun correct => ?_⟩
    have byte := correct ⟨1#32,5#32,0x1000#64,0x400800#64,0x1000#64,0x1000#64⟩
      (by rw [crossingFile_segments]; exact List.mem_singleton_self _) 0x800 (by decide)
    rw [show (0x400800#64 + BitVec.ofNat 64 0x800) = 0x401000#64 by decide,seen] at byte
    exact absurd byte (by decide +kernel)

theorem elf_image_correct_aligned : ∃ pml4 s info after,
    pagingCreateAddressSpace fbBoot fbStart.pmm = .ok (pml4,s) ∧
      elfLoadIntoAddressSpace fbBoot pml4 alignedFile info ⟨s,fbStart.heap⟩ = .ok (true,after) ∧
      elfSegments alignedFile ≠ [] ∧ ImageCorrect alignedFile pml4 after.pmm := by
  have evaluated : (loadFresh alignedFile).toOption.map Prod.fst = some (true,0x10F000#64) := by decide +kernel
  obtain ⟨⟨s,after⟩,returns⟩ := returns_of_fst evaluated
  obtain ⟨creates,loads⟩ := loadFresh_calls returns
  obtain ⟨free,spaces,heapOk⟩ := fbStart_ok
  refine ⟨_,s,_,after,creates,loads,by rw [alignedFile_segments]; simp,?_⟩
  refine elf_image_correct fbBoot_ok fbBoot_cpu spaces heapOk creates loads ?_ ?_ ?_ <;>
    rw [alignedFile_segments]
  · simp
  · simp
  · simp [ElfPhdr.whole,WholeChunks]

end Reddyos
