import Reddyos.FramebufferMap
import Reddyos.VmaUnmap

/-! Whole runs of a process: page faults and stores keep the page records complete as long
as no fault is served by a device, so `munmap` unmaps what it says and nothing else. -/
namespace Reddyos

open ByteMemory RadixForest OrderedTree

variable {boot : Boot} {procs : List U64} {ft : Ftrees} {m next : Machine} {free : List U64}

def pageSlot (pml4 v : U64) : Slots := fun root path i => root = pml4 ∧ path = pathOf v ∧ i = ptIndex v

structure PageMapped (boot : Boot) (procs : List U64) (pml4 v phys : U64) (k : Kernel) (free : List U64)
    (s : Pmm) (rest : List U64) : Prop where
  evolves : Evolves boot procs (pageSlot pml4 v) k.pmm free s rest
  heap : HeapOk boot s rest k.heap
  held : Held boot procs s rest phys
  leaf : ∀ e, leafOf s pml4 v = some e → e &&& pageMask = phys
  table : ∃ pt, walk (child s.mem) pml4 (pathOf v) = some pt

theorem pageMapped_spec (ok : BootOk boot) (cpu : CpuOk boot) {k : Kernel}
    (sp : Spaces boot k.pmm free procs) (heapOk : HeapOk boot k.pmm free k.heap) (member : pml4 ∈ procs)
    (lower : lowerHalf v) (plain : flags &&& pageMask = 0#64)
    (taken : pmmAllocPage boot k.pmm = .ok (phys,middle))
    (maps : vmmMap boot pml4 v phys flags middle = .ok s) :
    ∃ rest, PageMapped boot procs pml4 v phys k free s rest := by
  obtain ⟨left,allocated⟩ := sp.alloc ok taken
  have selected : Adm boot procs pml4 (pathOf v) := adm_pathOf v (.inr ⟨member,lower⟩)
  obtain ⟨rest,update⟩ := vmmMap_spec ok allocated.spaces selected
    (allocated.spaces.smallOn member selected) maps
  have evolves := (allocated.evolves (pageSlot pml4 v)).trans update.toEvolves
  have new := update.new
  rw [if_pos (leafEntry_present boot phys flags)] at new
  refine ⟨rest,evolves,heapOk.evolves evolves,update.toEvolves.held allocated.held,?_,?_⟩
  · intro e leaf
    rw [← Option.some.inj (new.symm.trans leaf)]
    exact leafEntry_frame cpu (vmmMap_reach maps) allocated.fresh.frame plain
  · unfold leafAt at new
    obtain ⟨pt,found,_⟩ := Option.bind_eq_some_iff.mp new
    exact ⟨pt,found⟩

section

variable {a : Areas} {k k' : Kernel} {rest left : List U64} {v phys : U64} {p : Nat}

theorem PageMapped.owned (mapped : PageMapped boot procs pml4 v phys k free s rest)
    (same : pageSlot pml4 v pml4 (pathOf w) (ptIndex w)) (leaf : leafOf s pml4 w = some e) :
    e &&& pageMask = phys := by
  obtain ⟨_,path,index⟩ := same
  unfold leafOf at leaf
  rw [path,index] at leaf
  exact mapped.leaf e leaf

/-- A page mapped in an area and recorded there. -/
theorem Resident.record (res : Reddyos.Resident boot procs pml4 a k free) (listed : p ∈ a.list)
    (mapped : PageMapped boot procs pml4 v phys k free s rest) (inArea : InArea a p v)
    (evolves : Evolves boot procs (heapSlots boot cursor) s rest k'.pmm left)
    (heap : HeapOk boot k'.pmm left k'.heap) (block : U64) :
    Reddyos.Resident boot procs pml4
      (a.set p { a.area p with physPages := (a.area p).physPages ++ [⟨v,phys,block⟩] }) k' left := by
  have kernel : ∀ w : U64, ¬heapSlots boot cursor pml4 (pathOf w) (ptIndex w) :=
    fun _ => not_heapSlots res.spaces res.member
  have leaf : ∀ w, Reddyos.lowerHalf w → ¬pageSlot pml4 v pml4 (pathOf w) (ptIndex w) →
      leafOf k'.pmm pml4 w = leafOf k.pmm pml4 w := by
    intro w lower other
    exact (evolves.leaves (res.adm lower) rfl (index_lt w).2.2.2 (kernel w)).trans
      (mapped.evolves.leaves (res.adm lower) rfl (index_lt w).2.2.2 other)
  have added := recordAdded a p ⟨v,phys,block⟩
  generalize a.set p { a.area p with physPages := (a.area p).physPages ++ [⟨v,phys,block⟩] } = a' at added ⊢
  have bounds := added.bounds
  have list : a'.list = a.list := congrArg inorder bounds.tree
  have inSame : ∀ q w, InArea a' q w ↔ InArea a q w := by
    intro q w
    rw [InArea,bounds.start,bounds.stop,InArea]
  refine ⟨evolves.spaces,heap,res.member,res.vma.same bounds,?_,?_,?_,?_,?_⟩
  · rw [list]
    intro q member
    rw [bounds.stop]
    exact res.lower q member
  · rw [list]
    intro q member page recorded
    rw [inSame]
    rcases added.old recorded with old | ⟨rfl,rfl⟩
    · exact res.inside q member page old
    · exact inArea
  · rw [list]
    intro q member page recorded
    rcases added.old recorded with old | ⟨rfl,rfl⟩
    · have selected := res.adm (res.lowerHalf member (res.inside q member page old))
      obtain ⟨pt,found⟩ := res.table q member page old
      exact ⟨pt,evolves.mono selected (mapped.evolves.mono selected found)⟩
    · obtain ⟨pt,found⟩ := mapped.table
      exact ⟨pt,evolves.mono (res.adm (res.lowerHalf member inArea)) found⟩
  · rw [list]
    intro q member w inW resident
    rw [inSame] at inW
    have lower := res.lowerHalf member inW
    by_cases here : pageSlot pml4 v pml4 (pathOf w) (ptIndex w)
    · obtain ⟨_,path,index⟩ := here
      have number := (same_page lower (res.lowerHalf listed inArea)).mp ⟨path,index⟩
      obtain rfl := res.vma.page_unique member listed inW inArea number
      exact ⟨_,added.new,number.symm⟩
    · rw [leaf w lower here] at resident
      obtain ⟨page,recorded,number⟩ := res.complete q member w inW resident
      exact ⟨page,added.keep recorded,number⟩
  · intro w e lower found
    by_cases here : pageSlot pml4 v pml4 (pathOf w) (ptIndex w)
    · unfold leafOf at found
      rw [evolves.leaves (res.adm lower) rfl (index_lt w).2.2.2 (kernel w)] at found
      rw [mapped.owned here found]
      exact evolves.held mapped.held
    · rw [leaf w lower here] at found
      exact evolves.held (mapped.evolves.held (res.frames w e lower found))

end

theorem growUserStack_resident (ok : BootOk boot) (cpu : CpuOk boot) (res : m.Resident boot procs free)
    (below : ¬m.process.userStackBottom - 4096#64 < m.process.userStackBottomMax →
      lowerHalf (m.process.userStackBottom - 4096#64) ∧
        ∀ p ∈ m.process.areas.list, ¬InArea m.process.areas p (m.process.userStackBottom - 4096#64))
    (returns : growUserStack boot m = .ok (grown,next)) :
    ∃ rest, next.Resident boot procs rest := by
  rcases growUserStack_cases returns with ⟨_,rfl,_⟩ | ⟨_,room,phys,s,s',taken,maps,rfl⟩
  · exact ⟨free,res⟩
  obtain ⟨lower,apart⟩ := below room
  generalize m.process.userStackBottom - 4096#64 = page at *
  obtain ⟨rest,mapped⟩ := pageMapped_spec ok cpu res.spaces res.heap res.member lower (by decide) taken maps
  let k : Kernel := ⟨s',m.kernel.heap⟩
  have evolves : Evolves boot procs _ m.kernel.pmm free k.pmm rest := mapped.evolves
  refine ⟨rest,Resident.evolves res evolves mapped.heap ?_ ?_⟩
  · rintro p listed v inArea ⟨_,path,index⟩
    -- areas consist of whole pages
    have number := (same_page (res.lowerHalf listed inArea) lower).mp ⟨path,index⟩
    have area := res.vma.ok p listed
    have start := area.start
    have stop := area.stop
    apply apart p listed
    unfold InArea at inArea ⊢
    unfold Aligned at start stop
    dsimp only at inArea
    omega
  · intro v e _ here leaf
    rw [mapped.owned here leaf]
    exact mapped.held

theorem vmaFaultHandler_resident (ok : BootOk boot) (cpu : CpuOk boot) (res : m.Resident boot procs free)
    (listed : p ∈ m.process.areas.list) (inArea : InArea m.process.areas p addr)
    (recorded : FaultRecorded (m.process.areas.area p) addr)
    (returns : vmaFaultHandler boot p addr m = .ok (handled,next)) :
    ∃ rest, next.Resident boot procs rest := by
  cases vmaFaultHandler_cases returns with
  | @given phys block s s' k' anon taken live maps grows =>
    have page : InArea m.process.areas p (alignDown addr) := by
      have start := (res.vma.ok p listed).start
      unfold InArea at inArea ⊢
      unfold Aligned at start
      rw [toNat_alignDown]
      omega
    obtain ⟨rest,mapped⟩ := pageMapped_spec ok cpu res.spaces res.heap res.member
      (res.lowerHalf listed page) (by decide) taken maps
    obtain ⟨rest',evolves,heap,_⟩ := kmalloc_spec ok (k := (m.setPmm s').kernel) mapped.evolves.spaces
      mapped.heap (by decide) grows
    have recorded := Resident.record res listed mapped page evolves heap block
    have owned := evolves.held mapped.held
    have held : ∀ f ∈ [phys], Held boot procs k'.pmm rest' f := by simpa using owned
    refine ⟨rest',recorded.write ok held ?_⟩
    intro b outside
    exact fill_outside (by have := outside phys (by simp); omega)
  | noPage anon taken =>
    obtain ⟨left,allocated⟩ := res.spaces.alloc ok taken
    exact absurd rfl (allocated.nonNull ok res.spaces)
  | @framebuffer ops fb _ s fileType file served =>
    have same : s = m.kernel.pmm := by
      unfold fbVmaFault at served
      cases fb with
      | none => exact (ok_pair served).2.symm
      | some fb =>
        have beyond := (recorded.resolve_left (by rw [fileType]; decide)) ops fb file
        dsimp only at served
        rw [if_pos beyond] at served
        exact (ok_pair served).2.symm
    subst same
    exact ⟨free,res⟩

theorem stackFault_cases (returns : stackFault boot addr m = .ok (grown,next)) :
    (grown = false ∧ next = m ∧ ¬StackGrows m.process addr) ∨
      (grown = true ∧ StackGrows m.process addr ∧ growUserStack boot m = .ok (true,next)) := by
  unfold stackFault at returns
  split at returns
  · rename_i near
    rcases growUserStack_cases returns with ⟨rfl,rfl,full⟩ | ⟨rfl,room,_⟩
    · exact .inl ⟨rfl,rfl,fun grows => grows.2 full⟩
    · exact .inr ⟨rfl,⟨near,room⟩,returns⟩
  · rename_i far
    obtain ⟨rfl,rfl⟩ := ok_pair returns
    exact .inl ⟨rfl,rfl,fun grows => far grows.1⟩

theorem pageFaultHandler_resident (ok : BootOk boot) (cpu : CpuOk boot) (lawful : Lawful ft.ops)
    (res : m.Resident boot procs free) (allowed : ResidentStep ft m (.fault addr))
    (returns : pageFaultHandler boot ft addr m = .ok (handled,next)) :
    ∃ rest, next.Resident boot procs rest := by
  obtain ⟨stack,area⟩ := allowed
  rcases pageFaultHandler_cases returns with ⟨_,first⟩ | ⟨first,⟨p,found,handles⟩ | ⟨_,_,rfl⟩⟩
  · rcases stackFault_cases first with ⟨grown,_⟩ | ⟨_,grows,called⟩
    · cases grown
    · exact growUserStack_resident ok cpu res (fun _ => stack grows) called
  · rcases stackFault_cases first with ⟨_,_,stays⟩ | ⟨grown,_⟩
    · obtain ⟨before,after,split,low,high⟩ := vmaFind_some lawful.lookup res.vma.inOrder found
      have listed : p ∈ m.process.areas.list := by simp [split]
      exact vmaFaultHandler_resident ok cpu res listed ⟨low,high⟩ (area stays p listed ⟨low,high⟩) handles
    · cases grown
  · exact ⟨free,res⟩

/-- Every lower-half page of the process lies in a frame of its own. -/
theorem translate_frame (res : m.Resident boot procs free) (lower : lowerHalf v)
    (found : mmuTranslate m.kernel.pmm.mem m.process.pml4 v = some phys) :
    ∃ f, Held boot procs m.kernel.pmm free f ∧ f.toNat ≤ phys.toNat ∧ phys.toNat < f.toNat + 4096 := by
  rw [res.spaces.translate res.member (res.adm lower)] at found
  obtain ⟨e,leaf,rfl⟩ := Option.map_eq_some_iff.mp found
  refine ⟨_,res.frames v e lower leaf,?_⟩
  rw [toNat_physical]
  omega

theorem userStore_resident (ok : BootOk boot) (res : m.Resident boot procs free) :
    (userStore addr byte m).Resident boot procs free := by
  unfold userStore
  split
  · rename_i phys found
    split
    · rename_i lower
      obtain ⟨f,held,low,high⟩ := translate_frame res lower found
      have owned : ∀ g ∈ [f], Held boot procs m.kernel.pmm free g := by simpa using held
      refine Resident.write ok res owned ?_
      intro b outside
      exact fill_outside (by have := outside f (by simp); omega)
    · exact res
  · exact res

theorem runCall_resident (ok : BootOk boot) (cpu : CpuOk boot) (lawful : Lawful ft.ops)
    (small : ft.nodeBytes.toNat ≤ 2^62) (res : m.Resident boot procs free)
    (allowed : ResidentStep ft m call) (returns : runCall boot ft call m = .ok next) :
    ∃ rest, next.Resident boot procs rest := by
  cases call with
  | mmap file length offset =>
    obtain ⟨⟨result,m'⟩,called,returns⟩ := ok_of_bind returns
    obtain rfl := Except.ok.inj returns
    exact doSysMmap_resident ok lawful small res allowed called
  | munmap addr length =>
    obtain ⟨⟨result,m'⟩,called,returns⟩ := ok_of_bind returns
    obtain rfl := Except.ok.inj returns
    obtain ⟨_,rest,left,_⟩ := doSysMunmap_resident ok lawful small res allowed called
    exact ⟨rest,left⟩
  | fault addr =>
    obtain ⟨⟨handled,m'⟩,called,returns⟩ := ok_of_bind returns
    obtain rfl := Except.ok.inj returns
    exact pageFaultHandler_resident ok cpu lawful res allowed called
  | store addr byte =>
    obtain rfl := Except.ok.inj returns
    exact ⟨free,userStore_resident ok res⟩

theorem reach_resident (ok : BootOk boot) (cpu : CpuOk boot) (lawful : Lawful ft.ops)
    (small : ft.nodeBytes.toNat ≤ 2^62)
    (reach : VmaReach boot ft (ProcessOk boot procs) (ResidentStep ft) m) :
    ∃ free, m.Resident boot procs free := by
  induction reach with
  | init start => exact start.resident
  | step _ allowed returns ih =>
    obtain ⟨free,res⟩ := ih
    exact runCall_resident ok cpu lawful small res allowed returns

theorem alignUp_aligned (pages : Aligned len) : alignUp len = len := by
  have := len.isLt
  unfold Aligned at pages
  apply BitVec.eq_of_toNat_eq
  rw [toNat_alignUp len (by omega)]
  omega

def RangeUnmapped (addr len : U64) (m : Machine) : Prop :=
  ∀ v : U64, addr.toNat ≤ v.toNat → v.toNat < addr.toNat + len.toNat →
    mmuTranslate m.kernel.pmm.mem m.process.pml4 v = none

/-- After a `munmap` that returns 0 the range is gone from the page tables. -/
theorem munmap_unmaps (ok : BootOk boot) (cpu : CpuOk boot) (lawful : Lawful ft.ops)
    (small : ft.nodeBytes.toNat ≤ 2^62)
    (reach : VmaReach boot ft (ProcessOk boot procs) (ResidentStep ft) m)
    (pages : Aligned len) (allowed : ResidentStep ft m (.munmap addr len))
    (returns : doSysMunmap boot ft addr len m = .ok (.ok 0#64,next)) : RangeUnmapped addr len next := by
  obtain ⟨free,res⟩ := reach_resident ok cpu lawful small reach
  obtain ⟨process,rest,left,_,unmapped⟩ := doSysMunmap_resident ok lawful small res allowed returns
  have unmapped := unmapped rfl
  rw [alignUp_aligned pages] at unmapped
  intro v low high
  obtain ⟨lower,gone⟩ := unmapped.gone v low high
  rw [mmuTranslate_none left lower,process]
  exact gone

/-- Every page of an area outside `[addr,addr + len)` that was there before is still there,
with the same translation, the same bytes and a record in the area that now covers it. -/
def OthersKept (addr len : U64) (m next : Machine) : Prop :=
  ∀ p ∈ m.process.areas.list, ∀ v phys : U64, InArea m.process.areas p v →
    ¬(addr.toNat ≤ v.toNat ∧ v.toNat < addr.toNat + len.toNat) →
    mmuTranslate m.kernel.pmm.mem m.process.pml4 v = some phys →
    mmuTranslate next.kernel.pmm.mem next.process.pml4 v = some phys ∧
      next.kernel.pmm.mem phys.toNat = m.kernel.pmm.mem phys.toNat ∧
      ∃ q ∈ next.process.areas.list, InArea next.process.areas q v ∧
        Recorded (next.process.areas.area q).physPages v

theorem munmap_keeps_others (ok : BootOk boot) (cpu : CpuOk boot) (lawful : Lawful ft.ops)
    (small : ft.nodeBytes.toNat ≤ 2^62)
    (reach : VmaReach boot ft (ProcessOk boot procs) (ResidentStep ft) m)
    (pages : Aligned len) (allowed : ResidentStep ft m (.munmap addr len))
    (returns : doSysMunmap boot ft addr len m = .ok (.ok 0#64,next)) : OthersKept addr len m next := by
  obtain ⟨free,res⟩ := reach_resident ok cpu lawful small reach
  obtain ⟨process,rest,left,evolves,unmapped⟩ := doSysMunmap_resident ok lawful small res allowed returns
  have unmapped := unmapped rfl
  rw [alignUp_aligned pages] at unmapped
  intro p listed v phys inArea beside found
  have lower := res.lowerHalf listed inArea
  obtain ⟨same,q,now,covered⟩ := unmapped.kept p listed v inArea beside
  obtain ⟨f,held,low,high⟩ := translate_frame res lower found
  have found' : mmuTranslate next.kernel.pmm.mem next.process.pml4 v = some phys := by
    rw [left.spaces.translate left.member (left.adm lower),process]
    rw [res.spaces.translate res.member (res.adm lower)] at found
    unfold leafOf at same
    rw [same,found]
  refine ⟨found',evolves.bytes ok res.spaces held low high,q,now,covered,?_⟩
  refine left.complete q now v covered fun absent => ?_
  rw [(mmuTranslate_none left lower).mpr absent] at found'
  cases found'

def fbProcess : Except Stop (Framebuffer × Machine) := do
  let (fb,k) ← fbInit fbBoot ⟨0xFFFF8000E0000000#64,4#64,4#64,16#64,32#16⟩ fbStart
  let (pml4,s) ← pagingCreateAddressSpace fbBoot k.pmm
  return (fb,⟨⟨s,k.heap⟩,⟨pml4,0xEFFE0000#64,0xEFF60000#64,areasInit⟩⟩)

theorem fbProcess_ok (returns : fbProcess = .ok (fb,m)) : ProcessOk fbBoot [m.process.pml4] m ∧
    ∀ v, lowerHalf v → mmuTranslate m.kernel.pmm.mem m.process.pml4 v = none := by
  unfold fbProcess at returns
  obtain ⟨⟨fb',k⟩,init,returns⟩ := ok_of_bind returns
  obtain ⟨⟨pml4,s⟩,creates,returns⟩ := ok_of_bind returns
  obtain ⟨_,rfl⟩ := ok_pair returns
  obtain ⟨free,inv⟩ := fbStart_kernel.inv
  obtain ⟨⟨rest,⟨⟨spaces,heapOk,_⟩,_⟩⟩,_⟩ := fbInit_kept fbBoot_ok fbBoot_cpu inv init
  obtain ⟨left,created⟩ := pagingCreateAddressSpace_spec fbBoot_ok spaces creates
  refine ⟨⟨rfl,by simp,left,created.spaces,created.heapOk heapOk,?_⟩,?_⟩
  · intro v e lower leaf
    rw [leafOf,created.leaf lower] at leaf
    cases leaf
  · intro v lower
    dsimp only
    rw [created.spaces.translate (by simp) (adm_pathOf v (.inr ⟨by simp,lower⟩)),created.leaf lower]
    rfl

def touchThenUnmap (device : Bool) (length addr : U64) :
    Except Stop ((Framebuffer × Machine) × Machine × Machine × Except Errno U64 × Machine) := do
  let (fb,m₀) ← fbProcess
  let file := if device then some ⟨true,true,some fb⟩ else none
  let m₁ ← runCall fbBoot spineTrees (.mmap file length 0#64) m₀
  let m₂ ← runCall fbBoot spineTrees (.fault 0x10000000#64) m₁
  let (result,next) ← doSysMunmap fbBoot spineTrees addr 4096#64 m₂
  return ((fb,m₀),m₁,m₂,result,next)

theorem touchThenUnmap_calls
    (returns : touchThenUnmap device length addr = .ok ((fb,m₀),m₁,m₂,result,next)) :
    fbProcess = .ok (fb,m₀) ∧
      runCall fbBoot spineTrees (.mmap (if device then some ⟨true,true,some fb⟩ else none) length 0#64) m₀ = .ok m₁ ∧
      runCall fbBoot spineTrees (.fault 0x10000000#64) m₁ = .ok m₂ ∧
      doSysMunmap fbBoot spineTrees addr 4096#64 m₂ = .ok (result,next) := by
  unfold touchThenUnmap at returns
  obtain ⟨⟨fb',m₀'⟩,start,returns⟩ := ok_of_bind returns
  obtain ⟨m₁',first,returns⟩ := ok_of_bind returns
  obtain ⟨m₂',second,returns⟩ := ok_of_bind returns
  obtain ⟨⟨result',next'⟩,third,returns⟩ := ok_of_bind returns
  simp only [pure,Except.pure,Except.ok.injEq,Prod.mk.injEq] at returns
  obtain ⟨⟨rfl,rfl⟩,rfl,rfl,rfl,rfl⟩ := returns
  exact ⟨start,first,second,third⟩

theorem result_zero {result : Except Errno U64} (value : result.toOption = some 0#64) : result = .ok 0#64 := by
  cases result with
  | error e => cases value
  | ok x => exact congrArg _ (Option.some.inj value)

theorem touchThenUnmap_reach
    (returns : touchThenUnmap device length addr = .ok ((fb,m₀),m₁,m₂,result,next)) :
    VmaReach fbBoot spineTrees (ProcessOk fbBoot [m₀.process.pml4]) (fun _ _ => True) m₂ := by
  obtain ⟨start,first,second,_⟩ := touchThenUnmap_calls returns
  exact .step (.step (.init (fbProcess_ok start).1) trivial first) trivial second

/-- A page of the framebuffer is not recorded, so it outlives its area. -/
theorem munmap_leaves_framebuffer : BootOk fbBoot ∧ CpuOk fbBoot ∧ Lawful spineTrees.ops ∧
    ∃ procs m next, VmaReach fbBoot spineTrees (ProcessOk fbBoot procs) (fun _ _ => True) m ∧
      doSysMunmap fbBoot spineTrees 0x10000000#64 4096#64 m = .ok (.ok 0#64,next) ∧
      ¬RangeUnmapped 0x10000000#64 4096#64 next := by
  refine ⟨fbBoot_ok,fbBoot_cpu,spineOps_lawful,?_⟩
  have evaluated : (touchThenUnmap true 4096#64 0x10000000#64).toOption.map (fun r =>
      (r.2.2.2.1.toOption,mmuTranslate r.2.2.2.2.kernel.pmm.mem r.2.2.2.2.process.pml4 0x10000000#64)) =
      some (some 0#64,some 0x10B000#64) := by decide +kernel
  match result : touchThenUnmap true 4096#64 0x10000000#64 with
  | .error stop => rw [result] at evaluated; cases evaluated
  | .ok ((fb,m₀),m₁,m₂,returned,next) =>
    rw [result] at evaluated
    simp only [Except.toOption,Option.map_some,Option.some.injEq,Prod.mk.injEq] at evaluated
    obtain ⟨zero,mapped⟩ := evaluated
    obtain ⟨_,_,_,last⟩ := touchThenUnmap_calls result
    refine ⟨_,m₂,next,touchThenUnmap_reach result,?_,fun gone => ?_⟩
    · rw [last,result_zero zero]
    · rw [gone 0x10000000#64 (by decide) (by decide)] at mapped
      cases mapped

/-- A page of the framebuffer has no record even where it stays. -/
theorem munmap_beside_framebuffer : BootOk fbBoot ∧ CpuOk fbBoot ∧ Lawful spineTrees.ops ∧
    ∃ procs m next, VmaReach fbBoot spineTrees (ProcessOk fbBoot procs) (fun _ _ => True) m ∧
      doSysMunmap fbBoot spineTrees 0x10001000#64 4096#64 m = .ok (.ok 0#64,next) ∧
      ¬OthersKept 0x10001000#64 4096#64 m next := by
  refine ⟨fbBoot_ok,fbBoot_cpu,spineOps_lawful,?_⟩
  have evaluated : (touchThenUnmap true 8192#64 0x10001000#64).toOption.map (fun r =>
      (r.2.2.2.1.toOption,mmuTranslate r.2.2.1.kernel.pmm.mem r.2.2.1.process.pml4 0x10000000#64,
        r.2.2.2.2.process.areas.list,(r.2.2.2.2.process.areas.area 0).physPages)) =
      some (some 0#64,some 0x10B000#64,[0],[]) := by decide +kernel
  have before : (touchThenUnmap true 8192#64 0x10001000#64).toOption.map (fun r =>
      (r.2.2.1.process.areas.list,(r.2.2.1.process.areas.area 0).start,
        (r.2.2.1.process.areas.area 0).stop)) =
      some ([0],0x10000000#64,0x10002000#64) := by decide +kernel
  match result : touchThenUnmap true 8192#64 0x10001000#64 with
  | .error stop => rw [result] at evaluated; cases evaluated
  | .ok ((fb,m₀),m₁,m₂,returned,next) =>
    rw [result] at evaluated before
    simp only [Except.toOption,Option.map_some,Option.some.injEq,Prod.mk.injEq] at evaluated before
    obtain ⟨zero,mapped,list',records⟩ := evaluated
    obtain ⟨list,start,stop⟩ := before
    obtain ⟨_,_,_,last⟩ := touchThenUnmap_calls result
    refine ⟨_,m₂,next,touchThenUnmap_reach result,?_,fun kept => ?_⟩
    · rw [last,result_zero zero]
    · obtain ⟨_,_,q,member,_,page,recorded,_⟩ := kept 0 (by simp [list]) 0x10000000#64 0x10B000#64
        (by unfold InArea; rw [start,stop]; decide) (by decide) mapped
      rw [list',List.mem_singleton] at member
      rw [member,records] at recorded
      cases recorded

/-- The same calls on anonymous memory are all admitted. -/
theorem touchThenUnmap_admitted (length addr : U64) (short : length.toNat ≤ 8192)
    (returns : touchThenUnmap false length addr = .ok ((fb,m₀),m₁,m₂,result,next))
    (placed : vmaFindFreeRegion spineTrees m₀.process.areas length = 0x10000000#64)
    (anon : m₁.process.areas.list = [0] ∧ (m₁.process.areas.area 0).type = .anon)
    (stack : m₁.process.userStackBottomMax = 0xEFF60000#64) :
    VmaReach fbBoot spineTrees (ProcessOk fbBoot [m₀.process.pml4]) (ResidentStep spineTrees) m₂ := by
  obtain ⟨start,first,second,_⟩ := touchThenUnmap_calls returns
  obtain ⟨ok,empty⟩ := fbProcess_ok start
  refine .step (.step (.init ok) ?_ first) ?_ second
  · have up := toNat_alignUp length (by omega)
    refine .inr (.inr (.inr ?_))
    rw [placed]
    refine ⟨?_,fun v _ high => empty v ?_⟩
    · have : (0x10000000#64).toNat = 0x10000000 := rfl
      omega
    · have : (0x10000000#64).toNat = 0x10000000 := rfl
      unfold lowerHalf
      omega
  · have stays : ¬StackGrows m₁.process 0x10000000#64 := by
      intro grows
      have near := grows.1.1
      rw [stack] at near
      exact absurd near (by decide)
    refine ⟨fun grows => absurd grows stays,fun _ p member _ => .inl ?_⟩
    rw [anon.1,List.mem_singleton] at member
    rw [member]
    exact anon.2

theorem munmap_unmaps_touch : ∃ procs m next,
    VmaReach fbBoot spineTrees (ProcessOk fbBoot procs) (ResidentStep spineTrees) m ∧
      doSysMunmap fbBoot spineTrees 0x10000000#64 4096#64 m = .ok (.ok 0#64,next) ∧
      mmuTranslate m.kernel.pmm.mem m.process.pml4 0x10000000#64 = some 0x108000#64 ∧
      RangeUnmapped 0x10000000#64 4096#64 next := by
  have evaluated : (touchThenUnmap false 4096#64 0x10000000#64).toOption.map (fun r =>
      (r.2.2.2.1.toOption,mmuTranslate r.2.2.1.kernel.pmm.mem r.2.2.1.process.pml4 0x10000000#64)) =
      some (some 0#64,some 0x108000#64) := by decide +kernel
  have before : (touchThenUnmap false 4096#64 0x10000000#64).toOption.map (fun r =>
      (vmaFindFreeRegion spineTrees r.1.2.process.areas 4096#64,(r.2.1.process.areas.list,
        (r.2.1.process.areas.area 0).type),r.2.1.process.userStackBottomMax)) =
      some (0x10000000#64,([0],.anon),0xEFF60000#64) := by decide +kernel
  match result : touchThenUnmap false 4096#64 0x10000000#64 with
  | .error stop => rw [result] at evaluated; cases evaluated
  | .ok ((fb,m₀),m₁,m₂,returned,next) =>
    rw [result] at evaluated before
    simp only [Except.toOption,Option.map_some,Option.some.injEq,Prod.mk.injEq] at evaluated before
    obtain ⟨zero,mapped⟩ := evaluated
    obtain ⟨placed,anon,stack⟩ := before
    obtain ⟨_,_,_,last⟩ := touchThenUnmap_calls result
    rw [result_zero zero] at last
    have reach := touchThenUnmap_admitted 4096#64 _ (by decide) result placed anon stack
    exact ⟨_,m₂,next,reach,last,mapped,munmap_unmaps fbBoot_ok fbBoot_cpu spineOps_lawful (by decide) reach
      (by simp [Aligned]) (fun _ _ _ _ => ⟨by decide,.inl (by simp [Aligned])⟩) last⟩

theorem munmap_keeps_others_touch : ∃ procs m next,
    VmaReach fbBoot spineTrees (ProcessOk fbBoot procs) (ResidentStep spineTrees) m ∧
      doSysMunmap fbBoot spineTrees 0x10001000#64 4096#64 m = .ok (.ok 0#64,next) ∧
      mmuTranslate m.kernel.pmm.mem m.process.pml4 0x10000000#64 = some 0x108000#64 ∧
      OthersKept 0x10001000#64 4096#64 m next := by
  have evaluated : (touchThenUnmap false 8192#64 0x10001000#64).toOption.map (fun r =>
      (r.2.2.2.1.toOption,mmuTranslate r.2.2.1.kernel.pmm.mem r.2.2.1.process.pml4 0x10000000#64)) =
      some (some 0#64,some 0x108000#64) := by decide +kernel
  have before : (touchThenUnmap false 8192#64 0x10001000#64).toOption.map (fun r =>
      (vmaFindFreeRegion spineTrees r.1.2.process.areas 8192#64,(r.2.1.process.areas.list,
        (r.2.1.process.areas.area 0).type),r.2.1.process.userStackBottomMax)) =
      some (0x10000000#64,([0],.anon),0xEFF60000#64) := by decide +kernel
  match result : touchThenUnmap false 8192#64 0x10001000#64 with
  | .error stop => rw [result] at evaluated; cases evaluated
  | .ok ((fb,m₀),m₁,m₂,returned,next) =>
    rw [result] at evaluated before
    simp only [Except.toOption,Option.map_some,Option.some.injEq,Prod.mk.injEq] at evaluated before
    obtain ⟨zero,mapped⟩ := evaluated
    obtain ⟨placed,anon,stack⟩ := before
    obtain ⟨_,_,_,last⟩ := touchThenUnmap_calls result
    rw [result_zero zero] at last
    have reach := touchThenUnmap_admitted 8192#64 _ (by decide) result placed anon stack
    exact ⟨_,m₂,next,reach,last,mapped,munmap_keeps_others fbBoot_ok fbBoot_cpu spineOps_lawful (by decide)
      reach (by simp [Aligned]) (fun _ _ _ _ => ⟨by decide,.inl (by simp [Aligned])⟩) last⟩

end Reddyos
