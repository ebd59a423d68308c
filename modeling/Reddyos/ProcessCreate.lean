import Reddyos.ElfImage
import Reddyos.Progress
import Reddyos.Vfs
import Reddyos.VmaWindow
import Reddyos.VmmDestroy

/-! `process_create` of `scheduler/process.c` and the frames it leaves behind when it fails.
What follows a successful load (the initial stack and the standard descriptors) is not part
of the model, as the call no longer fails there. -/
namespace Reddyos

open ByteMemory LinkedChain RadixForest

def userStackPages : Nat := 32
def userStackBottom : U64 := userStackTop - 4096#64 * BitVec.ofNat 64 userStackPages

def stackFlags : U64 := pageUser ||| pageWritable ||| pagePresent

def mapStack (boot : Boot) (pml4 : U64) : Nat → List U64 → Pmm → Except Stop ((Bool × List U64) × Pmm)
  | 0, pages, s => return ((true,pages),s)
  | left + 1, pages, s => do
    let (phys,s) ← pmmAllocPage boot s
    if phys = 0#64 then return ((false,pages),s)
    let s := { s with mem := fill s.mem phys.toNat 0#8 4096 }
    let s ← vmmMap boot pml4 (userStackBottom + BitVec.ofNat 64 pages.length * 4096#64) phys stackFlags s
    mapStack boot pml4 left (pages ++ [phys]) s

def freePages (boot : Boot) (pages : List U64) (s : Pmm) : Pmm :=
  pages.foldl (fun s page => pmmFreePage boot page s) s

/-- The file under a name and what its header says; `fs` is the file that `vfs_open` finds. -/
def openElf (fs : CString → Option Vnode) (filename : Option CString) : Option (CString × Vnode × ElfInfo) := do
  let name ← filename
  let vnode ← fs name
  let info ← elfReadInfo vnode
  return (name,vnode,info)

/-- `process_create` from there to the end of the load: the record of the process, its root table and the number
of the next. `processSize` is the size of a `process_t`, which holds a `bstree_t`. -/
def loadProcess (boot : Boot) (processSize : U64) (vnode : Vnode) (info : ElfInfo) (nextPid : U64) (k : Kernel) :
    Except Stop ((Option (U64 × U64) × U64) × Kernel) := do
  let (p,k) ← kmalloc boot processSize k
  if p = 0#64 then return ((none,nextPid),k)
  let (fds,k) ← kcalloc boot 16#64 8#64 k
  if fds = 0#64 then return ((none,nextPid),kfree p k)
  let (pml4,s) ← pagingCreateAddressSpace boot k.pmm
  if pml4 = 0#64 then return ((none,nextPid),kfree p { k with pmm := s })
  let nextPid := nextPid + 1#64
  let ((mapped,pages),s) ← mapStack boot pml4 userStackPages [] s
  if mapped = false then
    return ((none,nextPid),kfree p { k with pmm := pagingDestroyAddressSpace boot pml4 (freePages boot pages s) })
  let (loaded,k) ← elfLoadIntoAddressSpace boot pml4 vnode info { k with pmm := s }
  if loaded = false then
    let k := kfree p { k with pmm := pagingDestroyAddressSpace boot pml4 k.pmm }
    return ((none,nextPid),{ k with pmm := freePages boot pages k.pmm })
  return ((some (p,pml4),nextPid),k)

/-- `process_create` without the contents of the stack; the number of the process does not matter. -/
def processCreate (boot : Boot) (processSize : U64) (fs : CString → Option Vnode) (filename : Option CString)
    (k : Kernel) : Except Stop (Option U64 × Kernel) :=
  match openElf fs filename with
  | none => return (none,k)
  | some (_,vnode,info) => do
    let ((process,_),k) ← loadProcess boot processSize vnode info 1#64 k
    return (process.map Prod.fst,k)

/-- The name is missing or no file is found, or its header is refused. -/
def Refused (fs : CString → Option Vnode) (filename : Option CString) : Prop :=
  ∀ name vnode, filename = some name → fs name = some vnode → elfReadInfo vnode = none

def BacksHeap (boot : Boot) (k : Kernel) (f : U64) : Prop :=
  ∃ v e, heapStart.toNat ≤ v.toNat ∧ v.toNat < k.heap.cursor.toNat ∧
    leafOf k.pmm boot.kernelPml4 v = some e ∧ e &&& pageMask = f

/-- The free list ends, holds no frame twice, and of the frames that were available before
only those of the heap are missing. -/
def FramesReturned (boot : Boot) (free : List U64) (k after : Kernel) : Prop :=
  ∃ free', FreeList boot after.pmm free' ∧ free'.Nodup ∧
    ∀ f ∈ avail boot k.pmm free, f ∈ avail boot after.pmm free' ∨ BacksHeap boot after f

def stackPage : Nat := userStackBottom.toNat / 4096

structure StackClear (vnode : Vnode) : Prop where
  segments : ∀ ph ∈ elfSegments vnode, ph.filesz.toNat ≤ ph.memsz.toNat → SegmentOk ph
  page : ∃ n, stackPage ≤ n ∧ n < stackPage + userStackPages ∧
    ∀ ph ∈ elfSegments vnode, ¬(firstPage ph ≤ n ∧ n < endPage ph)

variable {boot : Boot} {procs free free₀ pages : List U64} {pml4 : U64} {s s₀ next : Pmm} {k after : Kernel}
variable {changed : Slots} {first : Nat}

theorem freePages_eq (boot : Boot) (pages : List U64) (s : Pmm) : freePages boot pages s = pushAll boot pages s := by
  induction pages generalizing s with
  | nil => rfl
  | cons page rest ih => exact ih (pmmFreePage boot page s)

theorem Backed.evolves {rest : List U64} (backed : Backed boot procs pml4 s free first pages) (member : pml4 ∈ procs)
    (evolves : Evolves boot procs nowhere s free next rest) : Backed boot procs pml4 next rest first pages where
  nodup := backed.nodup
  held := fun f listed => ⟨evolves.held (backed.held f listed).1,(backed.held f listed).2⟩
  leaf := by
    intro v lower f low page
    obtain ⟨e,leaf,frame⟩ := backed.leaf v lower f low page
    exact ⟨e,(evolves.leaves (adm_pathOf v (.inr ⟨member,lower⟩)) rfl (index_lt v).2.2.2 id).trans leaf,frame⟩

/-- One round: a page is taken and mapped behind the others. -/
theorem Filling.round {middle : Pmm} {left : List U64} {v : U64} (ok : BootOk boot) (cpu : CpuOk boot)
    (member : pml4 ∈ procs)
    (filling : Filling boot procs (rangeSlots pml4 first count) pml4 s₀ free₀ first pages s free)
    (allocated : Allocated boot s free procs page middle left) (room : pages.length < count) (lower : lowerHalf v)
    (number : v.toNat / 4096 = first + pages.length) (plain : flags &&& pageMask = 0#64)
    (maps : vmmMap boot pml4 v page flags middle = .ok next) :
    ∃ rest, Filling boot procs (rangeSlots pml4 first count) pml4 s₀ free₀ first (pages ++ [page]) next rest := by
  have taken := allocated.evolves nowhere
  have backed := filling.backed.evolves member taken
  have new : page ∉ pages := fun old => (filling.backed.held page old).1.2.1 allocated.source
  obtain ⟨rest,evolves,mapped⟩ := backed.map ok cpu taken.spaces member new
    ⟨allocated.held,allocated.nonNull ok filling.evolves.spaces⟩ plain lower number maps
  refine ⟨rest,?_,mapped,?_⟩
  · refine (filling.evolves.trans (taken.weaken fun _ _ _ never => never.elim)).trans (evolves.weaken ?_)
    rintro root path i ⟨rfl,w,below,range,path,index⟩
    exact ⟨rfl,w,below,by omega,path,index⟩
  · intro f listed
    rcases List.mem_append.mp listed with old | last
    · exact filling.source f old
    · rw [List.mem_singleton.mp last]
      exact filling.evolves.less _ allocated.source

theorem toNat_stackAddr (bound : i < userStackPages) :
    (userStackBottom + BitVec.ofNat 64 i * 4096#64).toNat = 4096 * (stackPage + i) := by
  have bottom : userStackBottom.toNat = 4096 * stackPage := by decide
  have page : stackPage = 0xEFFE0 := by decide
  have count : userStackPages = 32 := rfl
  have step : (4096#64).toNat = 4096 := rfl
  rw [BitVec.toNat_add,BitVec.toNat_mul,BitVec.toNat_ofNat,bottom,step]
  omega

theorem mapStack_spec {mapped : Bool} {all : List U64} (ok : BootOk boot) (cpu : CpuOk boot) (member : pml4 ∈ procs)
    (filling : Filling boot procs (rangeSlots pml4 stackPage userStackPages) pml4 s₀ free₀ stackPage pages s free)
    (count : pages.length + left = userStackPages)
    (returns : mapStack boot pml4 left pages s = .ok ((mapped,all),next)) :
    mapped = true ∧ all.length = userStackPages ∧ ∃ rest,
      Filling boot procs (rangeSlots pml4 stackPage userStackPages) pml4 s₀ free₀ stackPage all next rest := by
  induction left generalizing pages s free with
  | zero =>
    obtain ⟨result,rfl⟩ := ok_pair returns
    obtain ⟨rfl,rfl⟩ := Prod.mk.inj result
    exact ⟨rfl,count,free,filling⟩
  | succ left ih =>
    obtain ⟨⟨page,middle⟩,takes,returns⟩ := ok_of_bind returns
    obtain ⟨free₁,allocated⟩ := filling.evolves.spaces.alloc ok takes
    dsimp only at returns
    rw [if_neg (allocated.nonNull ok filling.evolves.spaces),fill_of_zero allocated.fresh.zero] at returns
    obtain ⟨mappedState,maps,returns⟩ := ok_of_bind returns
    have address := toNat_stackAddr (show pages.length < userStackPages by omega)
    have page_number : stackPage + userStackPages ≤ 2^35 := by decide
    obtain ⟨free₂,longer⟩ := filling.round ok cpu member allocated (by omega) (by unfold lowerHalf; omega) (by omega)
      (by decide) maps
    exact ih longer (by rw [List.length_append,List.length_singleton]; omega) returns

theorem mapStack_returns (ok : BootOk boot) (reach : Reachable boot) (member : pml4 ∈ procs)
    (sp : Spaces boot s free procs) (count : pages.length + left = userStackPages)
    (room : n + 4 * left ≤ (avail boot s free).length) :
    ∃ all next rest, mapStack boot pml4 left pages s = .ok ((true,all),next) ∧ Spaces boot next rest procs ∧
      n ≤ (avail boot next rest).length := by
  induction left generalizing pages s free with
  | zero => exact ⟨pages,s,free,rfl,sp,room⟩
  | succ left ih =>
    obtain ⟨page,middle,free₁,takes,allocated,room₁⟩ := sp.alloc_returns ok (show n + 4 * left + 3 < _ by omega)
    have address := toNat_stackAddr (show pages.length < userStackPages by omega)
    have page_number : stackPage + userStackPages ≤ 2^35 := by decide
    have selected : Adm boot procs pml4 (pathOf (userStackBottom + BitVec.ofNat 64 pages.length * 4096#64)) :=
      adm_pathOf _ (.inr ⟨member,by unfold lowerHalf; omega⟩)
    obtain ⟨mapped,free₂,maps,update,room₂⟩ := vmmMap_returns ok allocated.spaces selected
      (allocated.spaces.smallOn member selected) (reach page (avail_frame sp.pmm allocated.source)) stackFlags room₁
    have longer : (pages ++ [page]).length + left = userStackPages := by
      rw [List.length_append,List.length_singleton]
      omega
    obtain ⟨all,next,rest,returns,spaces,enough⟩ := ih update.toEvolves.spaces longer room₂
    refine ⟨all,next,rest,?_,spaces,enough⟩
    unfold mapStack
    rw [takes]
    change (if page = 0#64 then _ else _) = _
    rw [if_neg (allocated.nonNull ok sp),fill_of_zero allocated.fresh.zero]
    change (vmmMap boot pml4 _ page stackFlags middle >>= _) = _
    rw [maps]
    exact returns

/-- A page of the stack that no segment takes is still mapped after the load. -/
theorem stack_page_left {heap heap' : Heap} {rest : List U64} (member : pml4 ∈ procs)
    (filling : Filling boot procs changed pml4 s₀ free₀ stackPage pages next free)
    (length : pages.length = userStackPages) (kernel : boot.kernelPml4 ∉ procs)
    (evolves : Evolves boot procs (imageSlots boot heap.cursor heap'.cursor pml4 (elfPhdrs vnode)) next free after.pmm rest)
    (clear : StackClear vnode) : ∃ f ∈ pages, f ∈ released after.pmm.mem pml4 := by
  obtain ⟨n,low,high,off⟩ := clear.page
  have bound : stackPage + userStackPages ≤ 2^35 := by decide
  have value : (BitVec.ofNat 64 (4096 * n)).toNat = 4096 * n := by
    rw [BitVec.toNat_ofNat]
    omega
  have number : (BitVec.ofNat 64 (4096 * n)).toNat / 4096 = n := by omega
  have lower : lowerHalf (BitVec.ofNat 64 (4096 * n)) := by
    unfold lowerHalf
    omega
  obtain ⟨f,page⟩ : ∃ f, pages[n - stackPage]? = some f := ⟨_,List.getElem?_eq_getElem (by omega)⟩
  obtain ⟨e,leaf,frame⟩ := filling.backed.leaf _ lower f (by omega) (by rwa [number])
  have kept : leafOf after.pmm pml4 (BitVec.ofNat 64 (4096 * n)) = some e := by
    refine (evolves.leaves (adm_pathOf _ (.inr ⟨member,lower⟩)) rfl (index_lt _).2.2.2 ?_).trans leaf
    rintro (heap | ⟨ph,listed,load,range⟩)
    · exact kernel (heap.1 ▸ member)
    · obtain ⟨from',until'⟩ := rangeSlots_page lower range
      rw [number] at from' until'
      exact off ph (List.mem_filter.mpr ⟨listed,by simpa using load⟩) ⟨from',by omega⟩
  refine ⟨f,List.mem_of_getElem? page,?_⟩
  rw [← frame]
  exact mem_released lower kept

/-- The teardown releases the stack pages that are still mapped, and then they are released
once more. -/
theorem load_failed_cyclic {heap : Heap} {loaded : Bool} (ok : BootOk boot) (cpu : CpuOk boot)
    (sp : Spaces boot s free procs) (created : Created boot s free procs pml4 s₀ free₀)
    (heapOk : HeapOk boot s₀ free₀ heap)
    (stack : mapStack boot pml4 userStackPages [] s₀ = .ok ((true,pages),next))
    (loads : elfLoadIntoAddressSpace boot pml4 vnode info ⟨next,heap⟩ = .ok (loaded,after))
    (clear : StackClear vnode) :
    Cyclic boot (freePages boot pages (pagingDestroyAddressSpace boot pml4 after.pmm)) := by
  have member : pml4 ∈ pml4 :: procs := List.mem_cons_self
  have none : Filling boot (pml4 :: procs) (rangeSlots pml4 stackPage userStackPages) pml4 s₀ free₀ stackPage [] s₀ free₀ :=
    ⟨.refl _ created.spaces,⟨by simp,by simp,by simp⟩,by simp⟩
  obtain ⟨_,length,free₁,filling⟩ := mapStack_spec ok cpu member none (by simp) stack
  obtain ⟨rest,evolves,leaves,_,_⟩ := elfLoad_spec ok cpu member filling.evolves.spaces
    (heapOk.evolves filling.evolves) clear.segments loads
  have whole : Evolves boot (pml4 :: procs) anywhere s₀ free₀ after.pmm rest :=
    (filling.evolves.weaken fun _ _ _ _ => trivial).trans (evolves.weaken fun _ _ _ _ => trivial)
  have all := (filling.leaves member length).trans leaves filling.evolves.less evolves
  have inside : LeavesIn boot (pml4 :: procs) after.pmm pml4
      (fun g => Held boot (pml4 :: procs) after.pmm rest g ∧ g ∈ frames boot) := by
    refine leavesIn_of_lower whole.spaces member fun v e lower leaf => ?_
    rcases all v e lower leaf with old | ⟨taken,held⟩
    · rw [leafOf,created.leaf lower] at old
      cases old
    · exact ⟨held,avail_frame created.spaces.pmm taken⟩
  obtain ⟨destroys,tables⟩ := pagingDestroyAddressSpace_eq whole.spaces member inside fun g some => some.1
  have framed : ∀ g ∈ released after.pmm.mem pml4 ++ pages, g ∈ frames boot := by
    intro g listed
    rcases List.mem_append.mp listed with walked | stacked
    · rcases tables g walked with ⟨more,selected,found⟩ | data
      · rcases whole.tables selected found with old | new
        · by_cases root : more = []
          · subst more
            rw [← Option.some.inj old]
            exact avail_frame sp.pmm created.source
          · rw [created.empty selected root] at old
            cases old
        · exact avail_frame created.spaces.pmm new
      · exact data.2
    · exact avail_frame created.spaces.pmm (filling.source g stacked)
  have free_aligned : ∀ f ∈ rest, Aligned f := fun f listed => frame_aligned ok (whole.spaces.pmm.subset f listed)
  rw [freePages_eq,destroys,← pushAll_append]
  refine pushAll_twice whole.spaces.pmm.list free_aligned (List.nodup_append.mp whole.spaces.pmm.nodup).1
    (fun f listed => ⟨frame_aligned ok (framed f listed),ok.nonNull f (framed f listed)⟩) ?_
  intro distinct
  obtain ⟨f,stacked,walked⟩ := stack_page_left member filling length created.spaces.kernel evolves clear
  exact (List.nodup_append.mp (List.nodup_append.mp distinct).1).2.2 f walked f stacked rfl

theorem kcalloc_fds (returns : kcalloc boot 16#64 8#64 k = .ok (ptr,after)) : kmalloc boot 128#64 k = .ok (ptr,after) := by
  unfold kcalloc at returns
  rwa [if_neg (by decide)] at returns

theorem kfree_pmm (ptr : U64) (k : Kernel) : (kfree ptr k).pmm = k.pmm := by
  unfold kfree
  split <;> rfl

theorem openElf_refused (refused : Refused fs filename) : openElf fs filename = none := by
  unfold openElf
  cases filename with
  | none => rfl
  | some name =>
    cases file : fs name with
    | none => simp [file]
    | some vnode => simp [file,refused name vnode rfl file]

theorem openElf_some : openElf fs filename = some (name,vnode,info) ↔
    filename = some name ∧ fs name = some vnode ∧ elfReadInfo vnode = some info := by
  unfold openElf
  constructor
  · intro found
    obtain ⟨_,given,found⟩ := Option.bind_eq_some_iff.mp found
    obtain ⟨_,file,found⟩ := Option.bind_eq_some_iff.mp found
    obtain ⟨_,valid,found⟩ := Option.bind_eq_some_iff.mp found
    obtain ⟨rfl,rest⟩ := Prod.mk.inj (Option.some.inj found)
    obtain ⟨rfl,rfl⟩ := Prod.mk.inj rest
    exact ⟨given,file,valid⟩
  · rintro ⟨rfl,file,valid⟩
    simp [file,valid]

theorem processCreate_refused (refused : Refused fs filename)
    (returns : processCreate boot processSize fs filename k = .ok (result,after)) : result = none ∧ after = k := by
  unfold processCreate at returns
  rw [openElf_refused refused] at returns
  obtain ⟨rfl,rfl⟩ := ok_pair returns
  exact ⟨rfl,rfl⟩

/-- A call that fails after the header was accepted has failed to load the file. -/
theorem processCreate_cyclic (ok : BootOk boot) (cpu : CpuOk boot) (sp : Spaces boot k.pmm free procs)
    (heapOk : HeapOk boot k.pmm free k.heap) (small : processSize.toNat ≤ 2^63) (valid : elfReadInfo vnode = some info)
    (file : fs name = some vnode) (clear : StackClear vnode)
    (returns : processCreate boot processSize fs (some name) k = .ok (none,after)) : Cyclic boot after.pmm := by
  unfold processCreate at returns
  rw [openElf_some.mpr ⟨rfl,file,valid⟩] at returns
  obtain ⟨⟨⟨process,nextPid⟩,k'⟩,returns,ends⟩ := ok_of_bind returns
  obtain ⟨nothing,rfl⟩ := ok_pair ends
  obtain rfl := Option.map_eq_none_iff.mp nothing
  unfold loadProcess at returns
  obtain ⟨⟨p,k₁⟩,first,returns⟩ := ok_of_bind returns
  obtain ⟨free₁,grown₁,heapOk₁,live₁,_⟩ := kmalloc_spec ok sp heapOk small first
  dsimp only at returns
  rw [if_neg live₁] at returns
  obtain ⟨⟨fds,k₂⟩,second,returns⟩ := ok_of_bind returns
  obtain ⟨free₂,grown₂,heapOk₂,live₂,_⟩ := kmalloc_spec ok grown₁.spaces heapOk₁ (by decide) (kcalloc_fds second)
  dsimp only at returns
  rw [if_neg live₂] at returns
  obtain ⟨⟨pml4,s⟩,creates,returns⟩ := ok_of_bind returns
  obtain ⟨free₃,created⟩ := pagingCreateAddressSpace_spec ok grown₂.spaces creates
  have root : pml4 ≠ 0#64 := by
    have bounds := (frame_bounds ok (avail_frame grown₂.spaces.pmm created.source)).1
    rintro rfl
    exact absurd bounds (by decide)
  dsimp only at returns
  rw [if_neg root] at returns
  obtain ⟨⟨⟨mapped,pages⟩,s'⟩,stack,returns⟩ := ok_of_bind returns
  have none : Filling boot (pml4 :: procs) (rangeSlots pml4 stackPage userStackPages) pml4 s free₃ stackPage [] s free₃ :=
    ⟨.refl _ created.spaces,⟨by simp,by simp,by simp⟩,by simp⟩
  obtain ⟨rfl,_⟩ := mapStack_spec ok cpu List.mem_cons_self none (by simp) stack
  dsimp only at returns
  rw [if_neg (by decide)] at returns
  obtain ⟨⟨loaded,k₃⟩,loads,returns⟩ := ok_of_bind returns
  cases loaded with
  | true => cases returns
  | false =>
    obtain ⟨_,rfl⟩ := ok_pair returns
    have cyclic := load_failed_cyclic ok cpu grown₂.spaces created (created.heapOk heapOk₂) stack loads clear
    dsimp only
    rwa [kfree_pmm]

/-- A call refused before it allocates leaves every frame where it was. Once the file is being
loaded, a failure puts the stack pages on the free list twice. -/
theorem process_create_failure (ok : BootOk boot) (cpu : CpuOk boot) (sp : Spaces boot k.pmm free procs)
    (heapOk : HeapOk boot k.pmm free k.heap) (small : processSize.toNat ≤ 2^63)
    (returns : processCreate boot processSize fs filename k = .ok (none,after)) :
    (Refused fs filename → FramesReturned boot free k after) ∧
      ∀ name vnode, filename = some name → fs name = some vnode → elfReadInfo vnode ≠ none → StackClear vnode →
        ¬FramesReturned boot free k after := by
  constructor
  · intro refused
    obtain ⟨_,rfl⟩ := processCreate_refused refused returns
    exact ⟨free,sp.pmm.list,(List.nodup_append.mp sp.pmm.nodup).1,fun f listed => .inl listed⟩
  · rintro name vnode rfl file accepted clear ⟨listed,list,_⟩
    obtain ⟨info,valid⟩ := Option.ne_none_iff_exists'.mp accepted
    exact (processCreate_cyclic ok cpu sp heapOk small valid file clear returns).no_list list

/-- With frames for two heap pages, the root table and the stack, a file that cannot be loaded
makes the call fail. -/
theorem processCreate_fails (ok : BootOk boot) (reach : Reachable boot) (sp : Spaces boot k.pmm free procs)
    (heapOk : HeapOk boot k.pmm free k.heap) (small : processSize.toNat ≤ 4000) (file : fs name = some vnode)
    (valid : elfReadInfo vnode = some info)
    (fails : ∀ pml4 k, elfLoadIntoAddressSpace boot pml4 vnode info k = .ok (false,k))
    (room : 137 ≤ (avail boot k.pmm free).length) :
    ∃ after, processCreate boot processSize fs (some name) k = .ok (none,after) := by
  obtain ⟨p,k₁,free₁,first,spaces₁,heapOk₁,live₁,room₁⟩ := kmalloc_returns (n := 133) ok reach sp heapOk small room
  have fdsSmall : (128#64).toNat ≤ 4000 := by decide
  obtain ⟨fds,k₂,free₂,second,spaces₂,_,live₂,room₂⟩ := kmalloc_returns (n := 129) ok reach spaces₁ heapOk₁ fdsSmall room₁
  obtain ⟨pml4,s,free₃,creates,created,room₃⟩ := pagingCreateAddressSpace_returns (n := 128) ok spaces₂ room₂
  have none : ([] : List U64).length + userStackPages = userStackPages := Nat.zero_add _
  obtain ⟨pages,s',free₄,stack,_,_⟩ := mapStack_returns (n := 0) ok reach List.mem_cons_self created.spaces none
    (by simpa [userStackPages] using room₃)
  have table : kcalloc boot 16#64 8#64 k₁ = .ok (fds,k₂) := by
    unfold kcalloc
    rw [if_neg (by decide)]
    exact second
  have root : pml4 ≠ 0#64 := by
    have bounds := (frame_bounds ok (avail_frame spaces₂.pmm created.source)).1
    rintro rfl
    exact absurd bounds (by decide)
  unfold processCreate
  rw [openElf_some.mpr ⟨rfl,file,valid⟩]
  unfold loadProcess
  simp only [first,table,creates,stack,fails,live₁,live₂,root,bind,Except.bind,if_true,if_false,Bool.true_eq_false]
  exact ⟨_,rfl⟩

def processBoot : Boot := ⟨[⟨0x100000#64,0x100000#64,0#64⟩],0xFFFF800000000000#64,0xFFFFFFFFFF#64,0x9000#64⟩

def processStart : Kernel := ⟨pmmInit processBoot ⟨fun _ => 0#8,0#64,0,0#64⟩,heapInit⟩

theorem processBoot_frames : frames processBoot = framesFrom 256 512 := by
  simp [frames,processBoot,entryFrames,Usable,limineMemmapUsable,firstFrame,endFrame,MemmapEntry.limit]

theorem processBoot_bounds (listed : f ∈ frames processBoot) : 0x100000 ≤ f.toNat ∧ f.toNat < 0x200000 := by
  rw [processBoot_frames,framesFrom,List.mem_map] at listed
  obtain ⟨i,range,rfl⟩ := listed
  obtain ⟨low,high⟩ := List.mem_range'_1.mp range
  rw [toNat_frameAddr (by omega)]
  omega

theorem processBoot_ok : BootOk processBoot where
  fits := by simp [processBoot,Usable,limineMemmapUsable,MemmapEntry.limit]
  disjoint := by simp [processBoot]
  nonNull := by
    intro f listed zero
    obtain ⟨_,high⟩ := processBoot_bounds listed
    rw [← memphys_virt processBoot f,zero] at high
    exact absurd high (by decide)

theorem processBoot_cpu : CpuOk processBoot := ⟨40,by decide,rfl⟩

theorem processBoot_reach : Reachable processBoot := by
  intro f listed
  obtain ⟨_,high⟩ := processBoot_bounds listed
  exact BitVec.le_def.mpr (Nat.le_trans (Nat.le_of_lt high) (by decide))

theorem processStart_ok : ∃ free, Spaces processBoot processStart.pmm free [] ∧
    HeapOk processBoot processStart.pmm free processStart.heap ∧ (avail processBoot processStart.pmm free).length = 256 := by
  have count : (frames processBoot).length = 256 := by
    rw [processBoot_frames,length_framesFrom]
  have few : heapStart.toNat + 8192 * (frames processBoot).length < 2^64 := by
    rw [count]
    decide
  have apart : processBoot.kernelPml4 ∉ frames processBoot := fun listed =>
    absurd (processBoot_bounds listed).1 (by decide)
  obtain ⟨free,spaces,heapOk⟩ := boot_heap processBoot_ok (zero_tables (by simp [FrameOk,Aligned,processBoot]) apart)
    (fun v _ => smallOn_zero _ v) few
  unfold processStart
  dsimp only
  refine ⟨free,spaces,heapOk,?_⟩
  obtain ⟨free',inv,perm⟩ := pmmInit_partitioned processBoot_ok fun _ => 0#8
  obtain rfl := Chain.unique (virt_injective processBoot) spaces.pmm.list inv.list
  rw [List.append_nil] at perm
  exact perm.length_eq.trans count

def oversizedSegment : ElfPhdr := ⟨1#32,6#32,0x1000#64,0x400000#64,0x30#64,0x20#64⟩

def oversizedFile : Vnode := elfFile [oversizedSegment]

def oversizedHeader : ElfHeader :=
  ⟨[0x7F#8,0x45#8,0x4C#8,0x46#8],2#8,1#8,1#8,62#16,1#32,0x400000#64,64#64,56#16,1#16⟩

theorem oversizedFile_header : readElfHeader oversizedFile = some oversizedHeader := by decide +kernel

theorem oversizedFile_phdr : readPhdr oversizedFile oversizedHeader 0 = some oversizedSegment := by decide +kernel

theorem oversizedFile_segments : elfSegments oversizedFile = [oversizedSegment] := by
  simp [elfSegments,elfPhdrs,oversizedFile_header,oversizedFile_phdr,show oversizedHeader.phnum.toNat = 1 from rfl]
  decide

theorem oversizedFile_info : elfReadInfo oversizedFile = some ⟨0x400000#64,0#64,0#64,1#16,56#16⟩ := by
  simp [elfReadInfo,findPhdr,oversizedFile_header,oversizedFile_phdr,show oversizedHeader.phnum.toNat = 1 from rfl]
  decide

theorem oversizedFile_load (boot : Boot) (pml4 : U64) (k : Kernel) :
    elfLoadIntoAddressSpace boot pml4 oversizedFile ⟨0x400000#64,0#64,0#64,1#16,56#16⟩ k = .ok (false,k) := by
  simp [elfLoadIntoAddressSpace,loadSegments,oversizedFile_header,oversizedFile_phdr,
    show oversizedHeader.phnum.toNat = 1 from rfl]
  rfl

theorem oversizedFile_clear : StackClear oversizedFile where
  segments := by
    intro ph listed fits
    rw [oversizedFile_segments,List.mem_singleton] at listed
    subst listed
    exact absurd fits (by decide)
  page := by
    refine ⟨stackPage,Nat.le_refl _,by decide,?_⟩
    intro ph listed
    rw [oversizedFile_segments,List.mem_singleton] at listed
    subst listed
    decide

def oversizedFs : CString → Option Vnode := fun _ => some oversizedFile

theorem oversizedFs_fails : ∃ free after, Spaces processBoot processStart.pmm free [] ∧
    HeapOk processBoot processStart.pmm free processStart.heap ∧
    processCreate processBoot 1024#64 oversizedFs (some [0x61#8]) processStart = .ok (none,after) := by
  obtain ⟨free,spaces,heapOk,count⟩ := processStart_ok
  obtain ⟨after,returns⟩ : ∃ after,
      processCreate processBoot 1024#64 oversizedFs (some [0x61#8]) processStart = .ok (none,after) :=
    processCreate_fails processBoot_ok processBoot_reach spaces heapOk (by decide) rfl oversizedFile_info
      (oversizedFile_load processBoot) (by omega)
  exact ⟨free,after,spaces,heapOk,returns⟩

/-- Every page of the stack goes onto the free list twice. -/
theorem process_create_oversized : BootOk processBoot ∧ CpuOk processBoot ∧ ∃ free after,
    Spaces processBoot processStart.pmm free [] ∧ HeapOk processBoot processStart.pmm free processStart.heap ∧
      processCreate processBoot 1024#64 oversizedFs (some [0x61#8]) processStart = .ok (none,after) ∧
      ¬FramesReturned processBoot free processStart after := by
  obtain ⟨free,after,spaces,heapOk,returns⟩ := oversizedFs_fails
  refine ⟨processBoot_ok,processBoot_cpu,free,after,spaces,heapOk,returns,fun ⟨listed,list,_⟩ => ?_⟩
  exact (processCreate_cyclic processBoot_ok processBoot_cpu spaces heapOk (by decide) oversizedFile_info rfl
    oversizedFile_clear returns).no_list list

/-- A call without a name, and one for a file that cannot be loaded. -/
theorem process_create_failures : ∃ free after,
    FramesReturned processBoot free processStart processStart ∧
      processCreate processBoot 1024#64 oversizedFs (some [0x61#8]) processStart = .ok (none,after) ∧
      ¬FramesReturned processBoot free processStart after := by
  obtain ⟨free,after,spaces,heapOk,returns⟩ := oversizedFs_fails
  have refused : processCreate processBoot 1024#64 oversizedFs none processStart = .ok (none,processStart) := rfl
  refine ⟨free,after,?_,returns,?_⟩
  · exact (process_create_failure processBoot_ok processBoot_cpu spaces heapOk (by decide) refused).1 nofun
  · refine (process_create_failure processBoot_ok processBoot_cpu spaces heapOk (by decide) returns).2 _ _ rfl rfl ?_
      oversizedFile_clear
    rw [oversizedFile_info]
    exact Option.some_ne_none _

end Reddyos
