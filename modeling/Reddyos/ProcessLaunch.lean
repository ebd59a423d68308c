import Reddyos.ProcessCreate
import Reddyos.ProcessMemory
import Reddyos.ProcessStack

/-! `process_create` of `scheduler/process.c` to its end, the standard descriptors aside: the
image and the stack that the new process finds, and what the call means to the others. -/
namespace Reddyos

open ByteMemory RadixForest PagedMemory

structure CreatedProcess where
  block : U64
  owner : StackOwner
  rsp : U64
  process : Process

/-- A memory of 64-bit addresses as bytes; where nothing is, they mean nothing. -/
def flat (memory : Memory U64 (BitVec 8)) : Mem := fun a =>
  if a < 2^64 then (memory (BitVec.ofNat 64 a)).getD 0#8 else 0#8

def storeBytes (bytes : Mem) (a : Nat) : Nat → Machine → Machine
  | 0, m => m
  | n + 1, m => userStore (BitVec.ofNat 64 (a + n)) (bytes (a + n)) (storeBytes bytes a n m)

def stackBytes : Nat := 4096 * userStackPages

def newProcess (pml4 : U64) : Process := ⟨pml4,userStackBottom,userStackBottom - 4096#64 * 128#64,areasInit⟩

/-- `process_create`, with the number that the process gets and the time its stack is seeded
with. The stores of `setup_process_stack` go to the pages of the stack only. -/
def createProcess (boot : Boot) (processSize : U64) (fs : CString → Option Vnode) (nextPid uptime : U64)
    (filename : Option CString) (k : Kernel) : Except Stop ((Option CreatedProcess × U64) × Kernel) :=
  match openElf fs filename with
  | none => return ((none,nextPid),k)
  | some (name,vnode,info) => do
    let ((loaded,next),k) ← loadProcess boot processSize vnode info nextPid k
    match loaded with
    | none => return ((none,next),k)
    | some (p,pml4) =>
      let process := newProcess pml4
      let owner : StackOwner := ⟨nextPid,info.entry,userStackTop,userStackBottom⟩
      let (rsp,mem) ← setupProcessStack owner name info uptime (flat (userLoad ⟨k,process⟩))
      return ((some ⟨p,owner,rsp,process⟩,next),
        (storeBytes mem userStackBottom.toNat stackBytes ⟨k,process⟩).kernel)

variable {boot : Boot} {procs : List U64} {pml4 : U64} {s s₀ next : Pmm} {free free₀ rest pages : List U64}
variable {k after : Kernel} {changed : Slots} {m : Machine}

structure Loaded (boot : Boot) (processSize : U64) (vnode : Vnode) (info : ElfInfo) (k : Kernel) (block pml4 : U64)
    (loaded : Kernel) : Prop where
  steps : ∃ k₁ fds k₂ s pages s', kmalloc boot processSize k = .ok (block,k₁) ∧
    kcalloc boot 16#64 8#64 k₁ = .ok (fds,k₂) ∧ pagingCreateAddressSpace boot k₂.pmm = .ok (pml4,s) ∧
    mapStack boot pml4 userStackPages [] s = .ok ((true,pages),s') ∧
    elfLoadIntoAddressSpace boot pml4 vnode info ⟨s',k₂.heap⟩ = .ok (true,loaded)

theorem loadProcess_cases {new : Option (U64 × U64)}
    (returns : loadProcess boot processSize vnode info nextPid k = .ok ((new,nextPid'),after)) :
    new = none ∨ ∃ block pml4, new = some (block,pml4) ∧ nextPid' = nextPid + 1#64 ∧
      Loaded boot processSize vnode info k block pml4 after := by
  unfold loadProcess at returns
  obtain ⟨⟨p,k₁⟩,first,returns⟩ := ok_of_bind returns
  dsimp only at returns
  split at returns
  · exact .inl (Prod.mk.inj (ok_pair returns).1).1.symm
  obtain ⟨⟨fds,k₂⟩,second,returns⟩ := ok_of_bind returns
  dsimp only at returns
  split at returns
  · exact .inl (Prod.mk.inj (ok_pair returns).1).1.symm
  obtain ⟨⟨pml4,s⟩,creates,returns⟩ := ok_of_bind returns
  dsimp only at returns
  split at returns
  · exact .inl (Prod.mk.inj (ok_pair returns).1).1.symm
  obtain ⟨⟨⟨mapped,pages⟩,s'⟩,stack,returns⟩ := ok_of_bind returns
  dsimp only at returns
  cases mapped with
  | false => exact .inl (Prod.mk.inj (ok_pair returns).1).1.symm
  | true =>
    rw [if_neg (by decide)] at returns
    obtain ⟨⟨done,loaded⟩,loads,returns⟩ := ok_of_bind returns
    dsimp only at returns
    cases done with
    | false => exact .inl (Prod.mk.inj (ok_pair returns).1).1.symm
    | true =>
      rw [if_neg (by decide)] at returns
      obtain ⟨result,rfl⟩ := ok_pair returns
      obtain ⟨rfl,rfl⟩ := Prod.mk.inj result
      exact .inr ⟨p,pml4,rfl,rfl,⟨k₁,fds,k₂,s,pages,s',first,second,creates,stack,loads⟩⟩

theorem createProcess_cases {new : CreatedProcess}
    (returns : createProcess boot processSize fs nextPid uptime filename k = .ok ((some new,nextPid'),after)) :
    ∃ name vnode info block pml4 loaded rsp mem, filename = some name ∧ fs name = some vnode ∧
      elfReadInfo vnode = some info ∧ Loaded boot processSize vnode info k block pml4 loaded ∧
      setupProcessStack ⟨nextPid,info.entry,userStackTop,userStackBottom⟩ name info uptime
        (flat (userLoad ⟨loaded,newProcess pml4⟩)) = .ok (rsp,mem) ∧
      new = ⟨block,⟨nextPid,info.entry,userStackTop,userStackBottom⟩,rsp,newProcess pml4⟩ ∧
      nextPid' = nextPid + 1#64 ∧
      after = (storeBytes mem userStackBottom.toNat stackBytes ⟨loaded,newProcess pml4⟩).kernel := by
  unfold createProcess at returns
  split at returns
  · cases (Prod.mk.inj (ok_pair returns).1).1
  · rename_i name vnode info found
    obtain ⟨rfl,file,valid⟩ := openElf_some.mp found
    obtain ⟨⟨⟨process,next⟩,loaded⟩,loads,returns⟩ := ok_of_bind returns
    dsimp only at returns
    rcases loadProcess_cases loads with rfl | ⟨block,pml4,rfl,rfl,steps⟩
    · cases (Prod.mk.inj (ok_pair returns).1).1
    · obtain ⟨⟨rsp,mem⟩,stacked,returns⟩ := ok_of_bind returns
      obtain ⟨result,rfl⟩ := ok_pair returns
      obtain ⟨created,rfl⟩ := Prod.mk.inj result
      obtain rfl := Option.some.inj created
      exact ⟨name,vnode,info,block,pml4,loaded,rsp,mem,rfl,file,valid,steps,stacked,rfl,rfl,rfl⟩

/-- The frames behind the pages of a process are its own, and none lies behind two of them. -/
structure PrivateLeaves (boot : Boot) (procs : List U64) (pml4 : U64) (s : Pmm) (free : List U64) : Prop where
  held : ∀ v e, lowerHalf v → leafOf s pml4 v = some e → Held boot procs s free (e &&& pageMask)
  single : ∀ v w e e', lowerHalf v → lowerHalf w → leafOf s pml4 v = some e → leafOf s pml4 w = some e' →
    e &&& pageMask = e' &&& pageMask → v.toNat / 4096 = w.toNat / 4096

theorem PrivateLeaves.evolves (leaves : PrivateLeaves boot procs pml4 s free) (member : pml4 ∈ procs)
    (evolves : Evolves boot procs changed s free next rest)
    (off : ∀ v, lowerHalf v → ¬changed pml4 (pathOf v) (ptIndex v)) : PrivateLeaves boot procs pml4 next rest := by
  have same : ∀ v, lowerHalf v → leafOf next pml4 v = leafOf s pml4 v :=
    fun v lower => evolves.leaves (adm_pathOf v (.inr ⟨member,lower⟩)) rfl (index_lt v).2.2.2 (off v lower)
  constructor
  · intro v e lower leaf
    rw [same v lower] at leaf
    exact evolves.held (leaves.held v e lower leaf)
  · intro v w e e' lower lower' leaf leaf'
    rw [same v lower] at leaf
    rw [same w lower'] at leaf'
    exact leaves.single v w e e' lower lower' leaf leaf'

/-- Pages that come in a row, on frames that were free. -/
theorem Filling.privateLeaves {count first : Nat} (member : pml4 ∈ procs)
    (filling : Filling boot procs (rangeSlots pml4 first count) pml4 s₀ free₀ first pages s free)
    (length : pages.length = count) (old : PrivateLeaves boot procs pml4 s₀ free₀) :
    PrivateLeaves boot procs pml4 s free := by
  have inside : ∀ v e, lowerHalf v → leafOf s pml4 v = some e →
      (first ≤ v.toNat / 4096 ∧ v.toNat / 4096 < first + count) →
      pages[v.toNat / 4096 - first]? = some (e &&& pageMask) := by
    intro v e lower leaf range
    obtain ⟨f,page⟩ : ∃ f, pages[v.toNat / 4096 - first]? = some f := ⟨_,List.getElem?_eq_getElem (by omega)⟩
    obtain ⟨e',found,frame⟩ := filling.backed.leaf v lower f range.1 page
    obtain rfl : e = e' := Option.some.inj (leaf.symm.trans found)
    rwa [frame]
  have outside : ∀ v e, lowerHalf v → leafOf s pml4 v = some e →
      ¬(first ≤ v.toNat / 4096 ∧ v.toNat / 4096 < first + count) → leafOf s₀ pml4 v = some e := by
    intro v e lower leaf range
    refine (filling.evolves.leaves (adm_pathOf v (.inr ⟨member,lower⟩)) rfl (index_lt v).2.2.2 ?_).symm.trans leaf
    exact fun slot => range (rangeSlots_page lower slot)
  have apart : ∀ v w e e', lowerHalf v → lowerHalf w → leafOf s pml4 v = some e → leafOf s pml4 w = some e' →
      (first ≤ v.toNat / 4096 ∧ v.toNat / 4096 < first + count) →
      ¬(first ≤ w.toNat / 4096 ∧ w.toNat / 4096 < first + count) → e &&& pageMask ≠ e' &&& pageMask := by
    intro v w e e' lower lower' leaf leaf' range range' same
    have taken := filling.source _ (List.mem_of_getElem? (inside v e lower leaf range))
    rw [same] at taken
    exact (old.held w e' lower' (outside w e' lower' leaf' range')).2.1 taken
  constructor
  · intro v e lower leaf
    by_cases range : first ≤ v.toNat / 4096 ∧ v.toNat / 4096 < first + count
    · exact (filling.backed.held _ (List.mem_of_getElem? (inside v e lower leaf range))).1
    · exact filling.evolves.held (old.held v e lower (outside v e lower leaf range))
  · intro v w e e' lower lower' leaf leaf' same
    by_cases range : first ≤ v.toNat / 4096 ∧ v.toNat / 4096 < first + count <;>
      by_cases range' : first ≤ w.toNat / 4096 ∧ w.toNat / 4096 < first + count
    · have page := inside v e lower leaf range
      have page' := inside w e' lower' leaf' range'
      rw [← same] at page'
      have short : v.toNat / 4096 - first < pages.length := by omega
      have index := (List.getElem?_inj short filling.backed.nodup).mp (page.trans page'.symm)
      omega
    · exact absurd same (apart v w e e' lower lower' leaf leaf' range range')
    · exact absurd same.symm (apart w v e' e lower' lower leaf' leaf range' range)
    · exact old.single v w e e' lower lower' (outside v e lower leaf range) (outside w e' lower' leaf' range') same

theorem loadSegment_private {loaded : Bool} (ok : BootOk boot) (cpu : CpuOk boot) (member : pml4 ∈ procs)
    (sp : Spaces boot k.pmm free procs) (heapOk : HeapOk boot k.pmm free k.heap)
    (segment : ph.type = ptLoad → ph.filesz.toNat ≤ ph.memsz.toNat → SegmentOk ph)
    (old : PrivateLeaves boot procs pml4 k.pmm free)
    (returns : loadSegment boot pml4 vnode ph k = .ok (loaded,after)) :
    ∃ rest, Spaces boot after.pmm rest procs ∧ PrivateLeaves boot procs pml4 after.pmm rest := by
  unfold loadSegment at returns
  split at returns
  · obtain ⟨rfl,rfl⟩ := ok_pair returns
    exact ⟨free,sp,old⟩
  rename_i load
  rw [not_not] at load
  split at returns
  · obtain ⟨rfl,rfl⟩ := ok_pair returns
    exact ⟨free,sp,old⟩
  rename_i order
  rw [BitVec.lt_def,Nat.not_lt] at order
  have segment := segment load order
  split at returns
  · obtain ⟨rfl,rfl⟩ := ok_pair returns
    exact ⟨free,sp,old⟩
  obtain ⟨⟨ptr,k₁⟩,array,returns⟩ := ok_of_bind returns
  obtain ⟨free₁,grown,_,live,_⟩ := kmalloc_spec ok sp heapOk (toNat_pageArray segment.lower) array
  dsimp only at returns
  rw [if_neg live] at returns
  obtain ⟨⟨result,s₂⟩,allocates,returns⟩ := ok_of_bind returns
  obtain ⟨pages,rfl,length,mapping⟩ := pages_mapped ok cpu member grown.spaces segment.lower allocates
  obtain ⟨⟨mapped,s₃⟩,maps,returns⟩ := ok_of_bind returns
  obtain ⟨rfl,free₃,filling⟩ := mapping _ _ maps
  dsimp only at returns
  rw [if_neg (by decide)] at returns
  obtain ⟨⟨filled,s₄⟩,fills,returns⟩ := ok_of_bind returns
  obtain ⟨rfl,rfl⟩ := ok_pair returns
  obtain ⟨filled,_⟩ := fillSegment_spec ok member filling length order segment fills
  have kept := old.evolves member grown fun _ _ => not_heapSlots sp member
  exact ⟨free₃,filled.evolves.spaces,filled.privateLeaves member length kept⟩

theorem loadSegments_private {loaded : Bool} (ok : BootOk boot) (cpu : CpuOk boot) (member : pml4 ∈ procs)
    (sp : Spaces boot k.pmm free procs) (heapOk : HeapOk boot k.pmm free k.heap)
    (segments : ∀ ph ∈ indices.filterMap (readPhdr vnode header), ph.type = ptLoad →
      ph.filesz.toNat ≤ ph.memsz.toNat → SegmentOk ph)
    (old : PrivateLeaves boot procs pml4 k.pmm free)
    (returns : loadSegments boot pml4 vnode header indices k = .ok (loaded,after)) :
    ∃ rest, Spaces boot after.pmm rest procs ∧ PrivateLeaves boot procs pml4 after.pmm rest := by
  induction indices generalizing k free with
  | nil =>
    obtain ⟨rfl,rfl⟩ := ok_pair returns
    exact ⟨free,sp,old⟩
  | cons i indices ih =>
    unfold loadSegments at returns
    split at returns
    · obtain ⟨rfl,rfl⟩ := ok_pair returns
      exact ⟨free,sp,old⟩
    rename_i ph found
    rw [List.filterMap_cons_some found] at segments
    obtain ⟨⟨first,k₁⟩,loads,returns⟩ := ok_of_bind returns
    have here := segments ph (by simp)
    obtain ⟨free₁,evolves,_,heapOk₁,_⟩ := loadSegment_spec ok cpu member sp heapOk here loads
    obtain ⟨free₂,spaces,kept⟩ := loadSegment_private ok cpu member sp heapOk here old loads
    obtain rfl := freeList_unique evolves.spaces spaces
    dsimp only at returns
    split at returns
    · exact ih evolves.spaces heapOk₁ (fun ph' more => segments ph' (by simp [more])) kept returns
    · obtain ⟨rfl,rfl⟩ := ok_pair returns
      exact ⟨free₁,spaces,kept⟩

/-- The pages of an image lie on frames of their own. -/
theorem elfLoad_private {loaded : Bool} (ok : BootOk boot) (cpu : CpuOk boot) (member : pml4 ∈ procs)
    (sp : Spaces boot k.pmm free procs) (heapOk : HeapOk boot k.pmm free k.heap)
    (segments : ∀ ph ∈ elfSegments vnode, ph.filesz.toNat ≤ ph.memsz.toNat → SegmentOk ph)
    (old : PrivateLeaves boot procs pml4 k.pmm free)
    (returns : elfLoadIntoAddressSpace boot pml4 vnode info k = .ok (loaded,after)) :
    ∃ rest, Spaces boot after.pmm rest procs ∧ PrivateLeaves boot procs pml4 after.pmm rest := by
  unfold elfSegments elfPhdrs at segments
  unfold elfLoadIntoAddressSpace at returns
  cases valid : readElfHeader vnode with
  | none =>
    rw [valid] at returns
    obtain ⟨rfl,rfl⟩ := ok_pair returns
    exact ⟨free,sp,old⟩
  | some header =>
    simp only [valid] at segments returns
    split at returns
    · obtain ⟨rfl,rfl⟩ := ok_pair returns
      exact ⟨free,sp,old⟩
    · exact loadSegments_private ok cpu member sp heapOk
        (fun ph listed load => segments ph (List.mem_filter.mpr ⟨listed,by simpa using load⟩)) old returns

/-- What a change of the kernel leaves of the pages of the processes `others`. -/
structure Beside (boot : Boot) (others procs : List U64) (s : Pmm) (free : List U64) (procs' : List U64) (next : Pmm)
    (rest : List U64) : Prop where
  held : Held boot procs s free f → Held boot procs' next rest f
  tables : root ∈ others → lowerHalf v → walk (child s.mem) root (pathOf v) = some pt →
    walk (child next.mem) root (pathOf v) = some pt
  leaf : root ∈ others → lowerHalf v → leafOf next root v = leafOf s root v
  bytes : Held boot procs s free f → f.toNat ≤ b → b < f.toNat + 4096 → next.mem b = s.mem b

variable {others procs' : List U64}

theorem Beside.trans {middle last : Pmm} {procs'' left rest : List U64}
    (first : Beside boot others procs s free procs' middle left)
    (second : Beside boot others procs' middle left procs'' last rest) :
    Beside boot others procs s free procs'' last rest where
  held := fun owned => second.held (first.held owned)
  tables := fun member lower found => second.tables member lower (first.tables member lower found)
  leaf := fun member lower => (second.leaf member lower).trans (first.leaf member lower)
  bytes := fun owned low high => (second.bytes (first.held owned) low high).trans (first.bytes owned low high)

theorem Evolves.beside (ok : BootOk boot) (sp : Spaces boot s free procs)
    (evolves : Evolves boot procs changed s free next rest) (members : ∀ root ∈ others, root ∈ procs)
    (off : ∀ root ∈ others, ∀ v, lowerHalf v → ¬changed root (pathOf v) (ptIndex v)) :
    Beside boot others procs s free procs next rest where
  held := evolves.held
  tables := fun {root v _} member lower => evolves.mono (adm_pathOf v (.inr ⟨members root member,lower⟩))
  leaf := fun {root v} member lower =>
    evolves.leaves (adm_pathOf v (.inr ⟨members root member,lower⟩)) rfl (index_lt v).2.2.2 (off root member v lower)
  bytes := fun owned => evolves.bytes ok sp owned

theorem Created.beside (ok : BootOk boot) (sp : Spaces boot s free procs)
    (created : Created boot s free procs pml4 next rest) : Beside boot procs procs s free (pml4 :: procs) next rest where
  held := created.held
  tables := fun {root v _} member lower found =>
    (created.same.walk (adm_pathOf v (.inr ⟨member,lower⟩))).trans found
  leaf := fun {root v} member lower => created.same.leafAt (adm_pathOf v (.inr ⟨member,lower⟩)) (index_lt v).2.2.2
  bytes := by
    rintro f b ⟨frame,apart,_⟩ low high
    exact created.frame b (outside_of_not_mem (fun g here => (avail_ok ok sp.pmm here).1) frame.1 apart low high)

/-- Segments of the lower half on pages of their own, off the stack, whose chunks do not cross a page. -/
structure Loadable (vnode : Vnode) : Prop where
  lower : ∀ ph ∈ elfSegments vnode, ph.vaddr.toNat + ph.memsz.toNat ≤ 2^47
  whole : ∀ ph ∈ elfSegments vnode, ph.whole
  apart : (elfSegments vnode).Pairwise PagesApart
  stack : ∀ ph ∈ elfSegments vnode, ∀ n, stackPage ≤ n → n < stackPage + userStackPages →
    ¬(firstPage ph ≤ n ∧ n < endPage ph)

def OnStackPages (v : U64) : Prop :=
  userStackBottom.toNat ≤ v.toNat ∧ v.toNat < userStackBottom.toNat + stackBytes

/-- The process with its image and its empty stack, beside those that are there. -/
structure Arrived (boot : Boot) (procs : List U64) (vnode : Vnode) (s : Pmm) (free : List U64) (m : Machine)
    (rest : List U64) : Prop where
  resident : m.Resident boot (m.process.pml4 :: procs) rest
  alone : PrivatePages m
  new : m.process.pml4 ∉ procs
  beside : Beside boot procs procs s free (m.process.pml4 :: procs) m.kernel.pmm rest
  fresh : ∀ v e, lowerHalf v → leafOf m.kernel.pmm m.process.pml4 v = some e → e &&& pageMask ∈ avail boot s free
  image : ∀ ph ∈ elfSegments vnode, ∀ i < ph.memsz.toNat,
    userLoad m (ph.vaddr + BitVec.ofNat 64 i) = some (segmentByte vnode ph i)
  stack : ∀ v, OnStackPages v → (userLoad m v).isSome

theorem stack_values : userStackBottom.toNat = 4096 * stackPage ∧ stackPage = 0xEFFE0 ∧ userStackPages = 32 ∧
    stackBytes = 131072 ∧ userStackTop.toNat = userStackBottom.toNat + stackBytes := by decide

theorem Loaded.arrived {block : U64} {l : Kernel} (ok : BootOk boot) (cpu : CpuOk boot)
    (sp : Spaces boot k.pmm free procs) (heapOk : HeapOk boot k.pmm free k.heap) (small : processSize.toNat ≤ 2^63)
    (loadable : Loadable vnode) (loaded : Loaded boot processSize vnode info k block pml4 l) :
    ∃ rest, Arrived boot procs vnode k.pmm free ⟨l,newProcess pml4⟩ rest := by
  obtain ⟨k₁,fds,k₂,s,pages,s',first,second,creates,stacked,loads⟩ := loaded.steps
  obtain ⟨free₁,grown₁,heapOk₁,_⟩ := kmalloc_spec ok sp heapOk small first
  obtain ⟨free₂,grown₂,heapOk₂,_⟩ := kmalloc_spec ok grown₁.spaces heapOk₁ (by decide) (kcalloc_fds second)
  obtain ⟨free₃,created⟩ := pagingCreateAddressSpace_spec ok grown₂.spaces creates
  have member : pml4 ∈ pml4 :: procs := List.mem_cons_self
  have none : Filling boot (pml4 :: procs) (rangeSlots pml4 stackPage userStackPages) pml4 s free₃ stackPage [] s free₃ :=
    ⟨.refl _ created.spaces,⟨by simp,by simp,by simp⟩,by simp⟩
  obtain ⟨_,length,free₄,filling⟩ := mapStack_spec ok cpu member none (by simp) stacked
  have heapOk₃ := (created.heapOk heapOk₂).evolves filling.evolves
  have segments : ∀ ph ∈ elfSegments vnode, ph.filesz.toNat ≤ ph.memsz.toNat → SegmentOk ph :=
    fun ph listed _ => ⟨loadable.lower ph listed,(loadable.whole ph listed).1,(loadable.whole ph listed).2⟩
  obtain ⟨rest,evolves,leaves,heapOk₄,shows⟩ := elfLoad_spec ok cpu member (k := ⟨s',k₂.heap⟩) filling.evolves.spaces
    heapOk₃ segments loads
  have nothing : ∀ v e, lowerHalf v → leafOf s pml4 v ≠ some e := by
    intro v e lower leaf
    rw [leafOf,created.leaf lower] at leaf
    cases leaf
  have bare : PrivateLeaves boot (pml4 :: procs) pml4 s free₃ :=
    ⟨fun v e lower leaf => absurd leaf (nothing v e lower),fun v w e e' lower _ leaf => absurd leaf (nothing v e lower)⟩
  obtain ⟨rest',spaces,alone⟩ := elfLoad_private ok cpu member (k := ⟨s',k₂.heap⟩) filling.evolves.spaces heapOk₃
    segments (filling.privateLeaves member length bare) loads
  obtain rfl := freeList_unique evolves.spaces spaces
  have unlisted : ∀ q, q ∉ (newProcess pml4).areas.list := fun q listed => by cases listed
  have resident : Machine.Resident boot (pml4 :: procs) ⟨l,newProcess pml4⟩ rest := by
    refine ⟨spaces,heapOk₄,member,vmaInv_init,?_,?_,?_,?_,alone.held⟩ <;>
      exact fun q listed => absurd listed (unlisted q)
  have inside : ∀ root ∈ procs, root ∈ pml4 :: procs := fun root => List.mem_cons_of_mem pml4
  have other : ∀ root ∈ procs, root ≠ pml4 := fun root listed same => created.new (same ▸ listed)
  have grown := (grown₁.beside ok sp (fun _ => id) fun _ listed _ _ => not_heapSlots sp listed).trans
    (grown₂.beside ok grown₁.spaces (fun _ => id) fun _ listed _ _ => not_heapSlots grown₁.spaces listed)
  have mapped : Beside boot procs (pml4 :: procs) s free₃ (pml4 :: procs) s' free₄ :=
    filling.evolves.beside ok created.spaces inside fun root listed _ _ slot => other root listed slot.1
  have imaged : Beside boot procs (pml4 :: procs) s' free₄ (pml4 :: procs) l.pmm rest := by
    refine evolves.beside ok filling.evolves.spaces inside fun root listed v _ slot => ?_
    rcases slot with heap | ⟨_,_,_,slot⟩
    · exact filling.evolves.spaces.kernel (heap.1 ▸ inside root listed)
    · exact other root listed slot.1
  have beside := ((grown.trans (created.beside ok grown₂.spaces)).trans mapped).trans imaged
  have all := (filling.leaves member length).trans leaves filling.evolves.less evolves
  have less : ∀ f ∈ avail boot s free₃, f ∈ avail boot k.pmm free := fun f here =>
    grown₁.less f (grown₂.less f (created.less f here))
  refine ⟨rest,resident,fun v w e e' => alone.single v w e e',created.new,beside,?_,?_,?_⟩
  · intro v e lower leaf
    rcases all v e lower leaf with old | ⟨taken,_⟩
    · exact absurd old (nothing v e lower)
    · exact less _ taken
  · intro ph listed i bound
    have below := loadable.lower ph listed
    have address : (ph.vaddr + BitVec.ofNat 64 i).toNat = ph.vaddr.toNat + i := by
      rw [toNat_chunkAddr] <;> rw [BitVec.toNat_ofNat,Nat.mod_eq_of_lt (by omega)]
      omega
    have lower : lowerHalf (ph.vaddr + BitVec.ofNat 64 i) := by unfold lowerHalf; omega
    have seen := shows rfl loadable.apart ph listed (ph.vaddr + BitVec.ofNat 64 i) (by omega) (by omega)
    rw [address,Nat.add_sub_cancel_left] at seen
    unfold userLoad
    rw [if_pos lower]
    exact seen.userByte spaces member lower
  · rintro v ⟨low,high⟩
    obtain ⟨bottom,page,count,bytes,_⟩ := stack_values
    have lower : lowerHalf v := by unfold lowerHalf; omega
    have index : v.toNat / 4096 - stackPage < pages.length := by omega
    obtain ⟨e,leaf,_⟩ := filling.backed.leaf v lower _ (by omega) (List.getElem?_eq_getElem index)
    have kept : leafOf l.pmm pml4 v = some e := by
      refine (evolves.leaves (adm_pathOf v (.inr ⟨member,lower⟩)) rfl (index_lt v).2.2.2 ?_).trans leaf
      rintro (heap | ⟨ph,listed,load,range⟩)
      · exact filling.evolves.spaces.kernel (heap.1 ▸ member)
      · obtain ⟨from',until'⟩ := rangeSlots_page lower range
        exact loadable.stack ph (List.mem_filter.mpr ⟨listed,by simpa using load⟩) (v.toNat / 4096) (by omega) (by omega)
          ⟨from',by omega⟩
    rw [userLoad_eq resident lower,show leafOf l.pmm (newProcess pml4).pml4 v = some e from kept]
    rfl

def OnlyStack (p : StackOwner) (m m' : Mem) : Prop := ∀ b, b < p.userStackBottom.toNat ∨ p.rsp.toNat ≤ b → m' b = m b

section

variable {p : StackOwner} {before middle last : Mem} {s t : UserStack}

theorem OnlyStack.refl (p : StackOwner) (m : Mem) : OnlyStack p m m := fun _ _ => rfl

theorem OnlyStack.trans (first : OnlyStack p before middle) (second : OnlyStack p middle last) : OnlyStack p before last :=
  fun b off => (second b off).trans (first b off)

theorem stackStore_only (returns : stackStore p a data n before = .ok last) : OnlyStack p before last := by
  unfold stackStore at returns
  split at returns
  · rename_i inside
    obtain rfl := Except.ok.inj returns
    exact fun b off => copy_outside (by omega)
  · cases returns

theorem pushU64_only (returns : pushU64 p value s = .ok t) : OnlyStack p s.mem t.mem := by
  obtain ⟨mem,stored,returns⟩ := ok_of_bind returns
  obtain rfl := Except.ok.inj returns
  exact stackStore_only stored

theorem pushString_only (returns : pushString p text s = .ok (ptr,t)) : OnlyStack p s.mem t.mem := by
  obtain ⟨mem,stored,returns⟩ := ok_of_bind returns
  obtain ⟨_,rfl⟩ := ok_pair returns
  exact stackStore_only stored

theorem pushStrings_only (returns : pushStrings p texts s = .ok (ptrs,t)) : OnlyStack p s.mem t.mem := by
  induction texts generalizing s ptrs with
  | nil =>
    obtain ⟨_,rfl⟩ := ok_pair returns
    exact .refl p _
  | cons text texts ih =>
    obtain ⟨⟨ptr,first⟩,pushed,returns⟩ := ok_of_bind returns
    obtain ⟨⟨others,final⟩,more,returns⟩ := ok_of_bind returns
    obtain ⟨_,rfl⟩ := ok_pair returns
    exact (pushString_only pushed).trans (ih more)

theorem pushPtrs_only (returns : pushPtrs p values s = .ok t) : OnlyStack p s.mem t.mem := by
  induction values generalizing s with
  | nil =>
    obtain rfl := Except.ok.inj returns
    exact .refl p _
  | cons value values ih =>
    obtain ⟨first,pushed,returns⟩ := ok_of_bind returns
    exact (pushU64_only pushed).trans (ih returns)

theorem pushRandom_only (returns : pushRandom p uptime s = .ok t) : OnlyStack p s.mem t.mem := by
  obtain ⟨first,pushed,returns⟩ := ok_of_bind returns
  obtain ⟨second,pushed',returns⟩ := ok_of_bind returns
  obtain ⟨m₁,stored,returns⟩ := ok_of_bind returns
  obtain ⟨m₂,stored',returns⟩ := ok_of_bind returns
  obtain rfl := Except.ok.inj returns
  exact (((pushU64_only pushed).trans (pushU64_only pushed')).trans (stackStore_only stored)).trans (stackStore_only stored')

theorem setupProcessStack_only (returns : setupProcessStack p filename info uptime before = .ok (rsp,last)) :
    OnlyStack p before last := by
  obtain ⟨⟨name,s₁⟩,named,returns⟩ := ok_of_bind returns
  obtain ⟨⟨env,s₂⟩,strings,returns⟩ := ok_of_bind returns
  obtain ⟨s₃,randomized,returns⟩ := ok_of_bind returns
  obtain ⟨s₄,vector,returns⟩ := ok_of_bind returns
  obtain ⟨s₅,arguments,returns⟩ := ok_of_bind returns
  obtain ⟨rfl,rfl⟩ := ok_pair returns
  have five : env.length = 5 := (pushStrings_spec strings).1.length_eq.symm
  rw [pushAuxvs_eq] at vector
  rw [pushArguments_eq five] at arguments
  have random : OnlyStack p (⟨s₂.mem,s₂.sp &&& ~~~0xF#64⟩ : UserStack).mem s₃.mem := pushRandom_only randomized
  exact ((((pushString_only named).trans (pushStrings_only strings)).trans random).trans (pushPtrs_only vector)).trans
    (pushPtrs_only arguments)

end

def storeEvents (bytes : Mem) (a : Nat) : Nat → List (Event U64 (BitVec 8))
  | 0 => []
  | n + 1 => .store (BitVec.ofNat 64 (a + n)) (bytes (a + n)) :: storeEvents bytes a n

theorem replay_storeEvents {memory : Memory U64 (BitVec 8)} (bound : a + n ≤ 2^64) (v : U64) :
    replay memory (storeEvents bytes a n) v =
      if a ≤ v.toNat ∧ v.toNat < a + n then (memory v).map fun _ => bytes v.toNat else memory v := by
  induction n with
  | zero =>
    rw [if_neg (by omega)]
    rfl
  | succ n ih =>
    have address : (BitVec.ofNat 64 (a + n)).toNat = a + n := by
      rw [BitVec.toNat_ofNat]
      omega
    unfold storeEvents
    rw [replay_cons]
    dsimp only [Event.apply]
    split
    · rename_i here
      subst here
      rw [ih (by omega),if_neg (by omega),if_pos (by omega),address]
    · rename_i off
      have different : v.toNat ≠ a + n := fun same => off (BitVec.eq_of_toNat_eq (same.trans address.symm))
      rw [ih (by omega)]
      by_cases inside : a ≤ v.toNat ∧ v.toNat < a + n
      · rw [if_pos inside,if_pos (by omega)]
      · rw [if_neg inside,if_neg (by omega)]

theorem storeBytes_process (bytes : Mem) (a n : Nat) (m : Machine) : (storeBytes bytes a n m).process = m.process := by
  induction n with
  | zero => rfl
  | succ n ih => exact (userStore_process _ _ _).trans ih

def Processes.put [DecidableEq ι] (g : Processes ι) (i : ι) (m : Machine) (memory : Memory U64 (BitVec 8)) : Processes ι :=
  ⟨m.kernel,Function.update g.own i ⟨m.process,memory⟩⟩

theorem MemoryInv.storeBytes [DecidableEq ι] {g : Processes ι} (ok : BootOk boot) (inv : MemoryInv boot procs g free)
    (i : ι) (bytes : Mem) (a n : Nat) :
    MemoryInv boot procs (g.put i (storeBytes bytes a n (g.machine i)) (replay (g.own i).memory (storeEvents bytes a n)))
      free := by
  induction n with
  | zero =>
    have same : g.put i (g.machine i) (g.own i).memory = g := by
      unfold Processes.put Processes.machine
      rw [Function.update_eq_self]
    change MemoryInv boot procs (g.put i (g.machine i) (g.own i).memory) free
    rwa [same]
  | succ n ih =>
    let before := g.put i (Reddyos.storeBytes bytes a n (g.machine i)) (replay (g.own i).memory (storeEvents bytes a n))
    let after := g.put i (Reddyos.storeBytes bytes a (n + 1) (g.machine i))
      (replay (g.own i).memory (storeEvents bytes a (n + 1)))
    have machine : before.machine i = Reddyos.storeBytes bytes a n (g.machine i) := by
      simp [before,Processes.put,Processes.machine]
    have machine' : after.machine i = userStore (BitVec.ofNat 64 (a + n)) (bytes (a + n)) (before.machine i) := by
      rw [machine]
      simp [after,Processes.put,Processes.machine,Reddyos.storeBytes]
    have alone : PrivatePages (before.machine i) := fun v w e e' lower lower' first second same =>
      (ih.frames i i v w e e' lower lower' first second same).2
    have served : Served boot procs [.store (BitVec.ofNat 64 (a + n)) (bytes (a + n))] (before.machine i) free
        (after.machine i) free := by
      rw [machine']
      exact userStore_served ok (ih.resident i) alone
    refine ih.served served ?_ fun j other => ?_
    · simp [Processes.put,storeEvents]
    · simp [Processes.put,Function.update_of_ne other]

end Reddyos
