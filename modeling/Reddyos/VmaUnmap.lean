import Reddyos.VmaResident

/-! `mmap` and `munmap` of a process whose page records are complete: what `munmap` unmaps,
and what it leaves as it was. -/
namespace Reddyos

open ByteMemory RadixForest OrderedTree

variable {boot : Boot} {procs : List U64} {ft : Ftrees} {m next : Machine} {free : List U64}

def Machine.Resident (boot : Boot) (procs : List U64) (m : Machine) (free : List U64) : Prop :=
  Reddyos.Resident boot procs m.process.pml4 m.process.areas m.kernel free

/-- A process without areas, as `process_create` leaves it: every page it sees is its own. -/
structure ProcessOk (boot : Boot) (procs : List U64) (m : Machine) : Prop where
  empty : NoAreas m
  member : m.process.pml4 ∈ procs
  owned : ∃ free, Spaces boot m.kernel.pmm free procs ∧ HeapOk boot m.kernel.pmm free m.kernel.heap ∧
    ∀ v e, lowerHalf v → leafOf m.kernel.pmm m.process.pml4 v = some e →
      Held boot procs m.kernel.pmm free (e &&& pageMask)

def StackGrows (p : Process) (addr : U64) : Prop :=
  (p.userStackBottomMax ≤ addr + 4096#64 ∧ addr < p.userStackBottom) ∧
    ¬p.userStackBottom - 4096#64 < p.userStackBottomMax

/-- Nothing of `[addr,addr + len)` is mapped yet, all of it in the lower half. -/
def Vacant (m : Machine) (addr len : U64) : Prop :=
  addr.toNat + len.toNat ≤ 2^47 ∧ ∀ v : U64, addr.toNat ≤ v.toNat → v.toNat < addr.toNat + len.toNat →
    mmuTranslate m.kernel.pmm.mem m.process.pml4 v = none

/-- A fault on this area maps a page that is recorded, or no page. -/
def FaultRecorded (vma : Area) (addr : U64) : Prop :=
  vma.type = .anon ∨ ∀ ops fb, vma.file = some ⟨ops,true,some fb⟩ →
    fb.size ≤ (alignDown addr - vma.start) + vma.pgoff

/-- Areas are placed over unmapped pages and the stack does not grow into them; `munmap`
keeps the tree in order; no fault is served by the framebuffer. -/
def ResidentStep (ft : Ftrees) (m : Machine) : VmaCall → Prop
  | .mmap file length _ => alignUp length = 0#64 ∨ (∃ f, file = some f ∧ f.vmaFault = false) ∨
      vmaFindFreeRegion ft m.process.areas length = 0#64 ∨
      Vacant m (vmaFindFreeRegion ft m.process.areas length) (alignUp length)
  | .munmap addr length => TreeStep m (.munmap addr length)
  | .fault addr =>
      (StackGrows m.process addr → lowerHalf (m.process.userStackBottom - 4096#64) ∧
        ∀ p ∈ m.process.areas.list, ¬InArea m.process.areas p (m.process.userStackBottom - 4096#64)) ∧
      (¬StackGrows m.process addr → ∀ p ∈ m.process.areas.list, InArea m.process.areas p addr →
        FaultRecorded (m.process.areas.area p) addr)
  | .store _ _ => True

theorem ProcessOk.resident (start : ProcessOk boot procs m) : ∃ free, m.Resident boot procs free := by
  obtain ⟨empty,member,free,spaces,heap,frames⟩ := start
  unfold NoAreas at empty
  have none : m.process.areas.list = [] := by rw [empty]; rfl
  refine ⟨free,spaces,heap,member,by rw [empty]; exact vmaInv_init,?_,?_,?_,?_,frames⟩ <;>
    simp [none]

theorem allocRecord_resident (ok : BootOk boot) (res : m.Resident boot procs free)
    (bound : bytes.toNat ≤ 2^63) (returns : allocRecord boot bytes m = .ok (block,next)) :
    ∃ rest, next.Resident boot procs rest ∧
      Evolves boot procs (heapSlots boot m.kernel.heap.cursor) m.kernel.pmm free next.kernel.pmm rest := by
  obtain ⟨same,_,taken⟩ := allocRecord_process returns
  unfold Machine.Resident
  rw [same]
  exact res.kmalloc ok bound taken

theorem vmAreaBytes_bound (small : ft.nodeBytes.toNat ≤ 2^62) : (vmAreaBytes ft).toNat ≤ 2^63 := by
  have : (56#64).toNat = 56 := rfl
  rw [vmAreaBytes,BitVec.toNat_add]
  omega

theorem mmuTranslate_none (res : m.Resident boot procs free) (lower : lowerHalf v) :
    mmuTranslate m.kernel.pmm.mem m.process.pml4 v = none ↔ leafOf m.kernel.pmm m.process.pml4 v = none := by
  rw [res.spaces.translate res.member (res.adm lower)]
  simp [leafOf]

/-- A new area joins, over pages that are not mapped. -/
theorem Resident.join {ft : Ftrees} {a : Areas} {k : Kernel} {vma : Area} (lawful : Lawful ft.ops)
    (res : Reddyos.Resident boot procs pml4 a k free) (new : AreaOk vma) (low : vma.stop.toNat ≤ 2^47)
    (records : vma.physPages = [])
    (apart : ∀ p ∈ a.list, vma.stop.toNat ≤ (a.area p).start.toNat ∨ (a.area p).stop.toNat ≤ vma.start.toNat)
    (vacant : ∀ v : U64, vma.start.toNat ≤ v.toNat → v.toNat < vma.stop.toNat → leafOf k.pmm pml4 v = none) :
    Reddyos.Resident boot procs pml4 (vmaInsert ft a.fresh (a.push vma)) k free := by
  obtain ⟨inv,members⟩ := res.vma.insert lawful new apart
  obtain ⟨_,newest,same⟩ := res.vma.push vma
  change (vmaInsert ft a.fresh (a.push vma)).area a.fresh = vma at newest
  change ∀ p ∈ a.list, (vmaInsert ft a.fresh (a.push vma)).area p = a.area p at same
  generalize vmaInsert ft a.fresh (a.push vma) = a' at *
  refine ⟨res.spaces,res.heap,res.member,inv,?_,?_,?_,?_,res.frames⟩
  · intro p listed
    rcases (members p).mp listed with rfl | old
    · rw [newest]; exact low
    · rw [same p old]; exact res.lower p old
  · intro p listed page recorded
    rcases (members p).mp listed with rfl | old
    · rw [newest,records] at recorded
      cases recorded
    · unfold InArea
      rw [same p old] at recorded ⊢
      exact res.inside p old page recorded
  · intro p listed page recorded
    rcases (members p).mp listed with rfl | old
    · rw [newest,records] at recorded
      cases recorded
    · rw [same p old] at recorded
      exact res.table p old page recorded
  · intro p listed v inArea resident
    rcases (members p).mp listed with rfl | old
    · unfold InArea at inArea
      rw [newest] at inArea
      exact absurd (vacant v inArea.1 inArea.2) resident
    · unfold InArea at inArea
      rw [same p old] at inArea ⊢
      exact res.complete p old v inArea resident

theorem doSysMmap_resident (ok : BootOk boot) (lawful : Lawful ft.ops) (small : ft.nodeBytes.toNat ≤ 2^62)
    (res : m.Resident boot procs free) (allowed : ResidentStep ft m (.mmap file length offset))
    (returns : doSysMmap boot ft file length offset m = .ok (result,next)) :
    ∃ rest, next.Resident boot procs rest := by
  rcases doSysMmap_cases returns with
    ⟨_,rfl⟩ | ⟨block,k,taken,nonzero,found,outcome⟩
  · exact ⟨free,res⟩
  obtain ⟨rest,res',evolves⟩ := allocRecord_resident ok res (vmAreaBytes_bound small) taken
  change Reddyos.Resident boot procs m.process.pml4 m.process.areas k rest at res'
  rcases outcome with ⟨_,_,rfl⟩ | ⟨vma,new,device,_,rfl⟩
  · exact ⟨rest,res'.kfree⟩
  rcases allowed with zero | ⟨f,rfl,missing⟩ | nowhere | ⟨top,vacant⟩
  · exact absurd zero nonzero
  · rw [device f rfl] at missing
    cases missing
  · exact absurd nowhere found
  obtain ⟨area,sum,apart,_⟩ := res.vma.join lawful nonzero found (by omega) new
  rw [← new.start] at top vacant
  refine ⟨rest,res'.join lawful area (by omega) new.physPages apart ?_⟩
  intro v above below
  rw [sum] at below
  have lower : lowerHalf v := by unfold lowerHalf; omega
  have old := (mmuTranslate_none res lower).mp (vacant v above below)
  exact (evolves.leaves (res.adm lower) rfl (index_lt v).2.2.2
    (not_heapSlots res.spaces res.member)).trans old

/-- What a successful `munmap` of `[addr,addr + len)` does to the last-level entries. -/
structure Unmapped (pml4 addr len : U64) (a a' : Areas) (s s' : Pmm) : Prop where
  gone : ∀ v : U64, addr.toNat ≤ v.toNat → v.toNat < addr.toNat + len.toNat →
    lowerHalf v ∧ leafOf s' pml4 v = none
  kept : ∀ p ∈ a.list, ∀ v, InArea a p v →
    ¬(addr.toNat ≤ v.toNat ∧ v.toNat < addr.toNat + len.toNat) →
    leafOf s' pml4 v = leafOf s pml4 v ∧ ∃ q ∈ a'.list, InArea a' q v

section

variable {a a' : Areas} {k : Kernel} {pml4 addr len block : U64} {before after : List Nat} {p : Nat}

theorem Resident.unmapped_whole (ok : BootOk boot) (res : Reddyos.Resident boot procs pml4 a k free)
    (split : a.list = before ++ p :: after) (aligned : Aligned addr) (pages : Aligned len)
    (sum : (addr + len).toNat = addr.toNat + len.toNat)
    (cut : Cut a p addr len block before after true a') :
    Unmapped pml4 addr len a a' k.pmm (vmaDestroy pml4 (a.area p).physPages k).pmm := by
  have listed : p ∈ a.list := by simp [split]
  obtain ⟨cleared,_,gone⟩ := res.cut_whole ok split aligned pages sum cut
  have range : ∀ v, InArea a p v ↔ addr.toNat ≤ v.toNat ∧ v.toNat < addr.toNat + len.toNat := by
    intro v
    cases cut with
    | whole first last _ _ _ => rw [InArea,← first,last]
  refine ⟨?_,?_⟩
  · intro v low high
    have inArea := (range v).mpr ⟨low,high⟩
    exact ⟨res.lowerHalf listed inArea,gone v inArea⟩
  · intro q member v inArea beside
    refine ⟨cleared.leaves (res.adm (res.lowerHalf member inArea)) rfl (index_lt v).2.2.2 ?_,
      cut.covers res.vma.inOrder res.vma.fresh split sum member inArea beside⟩
    rintro ⟨_,page,recorded,path,index⟩
    have inside := res.inside p listed page recorded
    have number := (same_page (res.lowerHalf member inArea) (res.lowerHalf listed inside)).mp ⟨path,index⟩
    obtain rfl := res.vma.page_unique member listed inArea inside number
    exact beside ((range v).mp inArea)

theorem Resident.unmapped_part (res : Reddyos.Resident boot procs pml4 a k free)
    (split : a.list = before ++ p :: after) (aligned : Aligned addr) (pages : Aligned len)
    (sum : (addr + len).toNat = addr.toNat + len.toNat)
    (cut : Cut a p addr len block before after false a')
    (cleaned : vmaCleanup (trimArea (a.area p) addr len) = .ok ()) :
    Unmapped pml4 addr len a a' k.pmm k.pmm := by
  have listed : p ∈ a.list := by simp [split]
  have inside := cut.inside
  refine ⟨?_,?_⟩
  · intro v low high
    have inArea : InArea a p v := by
      unfold InArea
      rcases cut.trimmed sum with ⟨_,same,_⟩ | ⟨above,_,_⟩
      · rw [same]; omega
      · omega
    refine ⟨res.lowerHalf listed inArea,res.cut_clear split aligned pages sum cut cleaned inArea ?_⟩
    rcases cut.trimmed sum with ⟨start,_,_⟩ | ⟨_,_,stop⟩
    · rw [start]; omega
    · rw [stop]; omega
  · intro q member v inArea beside
    exact ⟨rfl,cut.covers res.vma.inOrder res.vma.fresh split sum member inArea beside⟩

end

theorem tailRecord_resident (ok : BootOk boot) (small : ft.nodeBytes.toNat ≤ 2^62)
    (res : m.Resident boot procs free) (returns : tailRecord boot ft addr len m = .ok (block,next)) :
    ∃ rest, next.Resident boot procs rest ∧
      Evolves boot procs (heapSlots boot m.kernel.heap.cursor) m.kernel.pmm free next.kernel.pmm rest := by
  unfold tailRecord at returns
  split at returns
  · exact allocRecord_resident ok res (vmAreaBytes_bound small) returns
  · obtain ⟨_,rfl⟩ := ok_pair returns
    exact ⟨free,res,.refl _ res.spaces⟩

theorem doSysMunmap_resident (ok : BootOk boot) (lawful : Lawful ft.ops)
    (small : ft.nodeBytes.toNat ≤ 2^62) (res : m.Resident boot procs free)
    (allowed : TreeStep m (.munmap addr length))
    (returns : doSysMunmap boot ft addr length m = .ok (result,next)) :
    next.process.pml4 = m.process.pml4 ∧ ∃ rest, next.Resident boot procs rest ∧
      Evolves boot procs anywhere m.kernel.pmm free next.kernel.pmm rest ∧
      (result = .ok 0#64 → Unmapped m.process.pml4 addr (alignUp length) m.process.areas
        next.process.areas m.kernel.pmm next.kernel.pmm) := by
  unfold doSysMunmap at returns
  dsimp only at returns
  split at returns
  · obtain ⟨rfl,rfl⟩ := ok_pair returns
    exact ⟨rfl,free,res,.refl _ res.spaces,fun bad => by cases bad⟩
  rename_i nonzero
  obtain ⟨block,k,prepared,outcome⟩ := munmapRegion_cases returns
  obtain ⟨rest,res',evolves⟩ := tailRecord_resident ok small res prepared
  change Reddyos.Resident boot procs m.process.pml4 m.process.areas k rest at res'
  dsimp only at evolves
  have grown : Evolves boot procs anywhere _ free _ rest := evolves.weaken (fun _ _ _ _ => trivial)
  -- the record of a tail changes nothing that the process sees
  have compose : ∀ {a' s'}, Unmapped m.process.pml4 addr (alignUp length) m.process.areas a' k.pmm s' →
      Unmapped m.process.pml4 addr (alignUp length) m.process.areas a' m.kernel.pmm s' := by
    rintro a' s' ⟨gone,kept⟩
    refine ⟨gone,fun p member v inArea beside => ?_⟩
    obtain ⟨leaf,covered⟩ := kept p member v inArea beside
    have lower := res.lowerHalf member inArea
    exact ⟨leaf.trans (evolves.leaves (res.adm lower) rfl (index_lt v).2.2.2
      (not_heapSlots res.spaces res.member)),covered⟩
  obtain ⟨_,rfl,rfl⟩ | ⟨p,a,cutOff,rfl,rfl⟩ | ⟨p,a,cutOff,rfl,cleaned,rfl⟩ := outcome
  · exact ⟨rfl,rest,res',grown,fun bad => by cases bad⟩
  · obtain ⟨sum,aligned,pages,before,after,split,cut⟩ := munmapAreas_cut lawful res.vma nonzero allowed cutOff
    have records : (a.area p).physPages = (m.process.areas.area p).physPages := by
      rw [cut.own,trimArea_physPages]
    have unmapped := res'.unmapped_whole ok split aligned pages sum cut
    obtain ⟨cleared,left,_⟩ := res'.cut_whole ok split aligned pages sum cut
    rw [records]
    have same := (kfree_spec (a.area p).block left.heap).1
    refine ⟨rfl,rest,left.kfree,?_,fun _ => compose ?_⟩
    · dsimp only
      rw [same]
      exact grown.trans (cleared.weaken fun _ _ _ _ => trivial)
    · dsimp only
      rw [same]
      exact unmapped
  · obtain ⟨sum,aligned,pages,before,after,split,cut⟩ := munmapAreas_cut lawful res.vma nonzero allowed cutOff
    rw [cut.own] at cleaned
    exact ⟨rfl,rest,res'.cut_part split aligned pages sum cut cleaned,grown,
      fun _ => compose (res'.unmapped_part split aligned pages sum cut cleaned)⟩

end Reddyos
