import Reddyos.VmaRun

/-! The frames that faults take for anonymous areas. Each one stays with the page it was
taken for until its area is unmapped as a whole, which forgets it. -/
namespace Reddyos

open ByteMemory RadixForest OrderedTree LinkedChain

def faultFrame (boot : Boot) (ft : Ftrees) (addr : U64) (m : Machine) : Option U64 :=
  match stackFault boot addr m with
  | .ok (false,m) =>
    match vmaFind ft m.process.areas addr with
    | some p =>
      if (m.process.areas.area p).type = .anon then
        match pmmAllocPage boot m.kernel.pmm with
        | .ok (phys,_) => if phys = 0#64 then none else some phys
        | .error _ => none
      else none
    | none => none
  | _ => none

def callFrames (boot : Boot) (ft : Ftrees) (m : Machine) : VmaCall → List U64
  | .fault addr => (faultFrame boot ft addr m).toList
  | _ => []

/-- A run, with all frames that its faults have taken. -/
inductive FrameRun (boot : Boot) (ft : Ftrees) (start : Machine → Prop)
    (allowed : Machine → VmaCall → Prop) : Machine → List U64 → Prop where
  | init : start m → FrameRun boot ft start allowed m []
  | step : FrameRun boot ft start allowed m taken → allowed m call → runCall boot ft call m = .ok next →
      FrameRun boot ft start allowed next (callFrames boot ft m call ++ taken)

/-- The frame is recorded in an area, and mapped where the record says. -/
def FiledIn (m : Machine) (p : Nat) (f : U64) : Prop :=
  ∃ page ∈ (m.process.areas.area p).physPages, page.phys = f ∧
    mmuTranslate m.kernel.pmm.mem m.process.pml4 page.start = some f

/-- Every frame is filed in exactly one area or back on the freelist. -/
def FramesKept (boot : Boot) (m : Machine) (taken : List U64) : Prop :=
  ∀ f ∈ taken, (∃ p ∈ m.process.areas.list, FiledIn m p f ∧ ∀ q ∈ m.process.areas.list,
      (∃ page ∈ (m.process.areas.area q).physPages, page.phys = f) → q = p) ∨
    ∃ free, FreeList boot m.kernel.pmm free ∧ f ∈ free

/-- Faults and the stack map pages that are not there yet; no area is unmapped as a whole
while it has a page. -/
def FramesStep (m : Machine) : VmaCall → Prop
  | .mmap file length offset => file = none ∧ TreeStep m (.mmap file length offset)
  | .munmap addr length => TreeStep m (.munmap addr length) ∧ ∀ p ∈ m.process.areas.list,
      (m.process.areas.area p).start = addr →
      (m.process.areas.area p).stop.toNat = addr.toNat + (alignUp length).toNat →
      (m.process.areas.area p).physPages = []
  | .fault addr =>
      (StackGrows m.process addr → lowerHalf (m.process.userStackBottom - 4096#64) ∧
        mmuTranslate m.kernel.pmm.mem m.process.pml4 (m.process.userStackBottom - 4096#64) = none) ∧
      (¬StackGrows m.process addr → ∀ p ∈ m.process.areas.list, InArea m.process.areas p addr →
        lowerHalf addr ∧ mmuTranslate m.kernel.pmm.mem m.process.pml4 addr = none)
  | .store _ _ => True

variable {boot : Boot} {procs : List U64} {ft : Ftrees} {m next : Machine} {free rest : List U64}

/-- The records of the areas name pages that are mapped, each with a frame of its own. -/
structure Filed (boot : Boot) (procs : List U64) (pml4 : U64) (a : Areas) (k : Kernel) (free : List U64) :
    Prop where
  spaces : Spaces boot k.pmm free procs
  heap : HeapOk boot k.pmm free k.heap
  member : pml4 ∈ procs
  vma : VmaInv a
  anon : ∀ p ∈ a.list, (a.area p).type = .anon
  places : ∀ p ∈ a.list, ∀ page ∈ (a.area p).physPages, lowerHalf page.start ∧ Aligned page.start
  mapped : ∀ p ∈ a.list, ∀ page ∈ (a.area p).physPages,
    ∃ e, leafOf k.pmm pml4 page.start = some e ∧ e &&& pageMask = page.phys
  unique : ∀ p ∈ a.list, ∀ q ∈ a.list, ∀ page ∈ (a.area p).physPages, ∀ page' ∈ (a.area q).physPages,
    page.phys = page'.phys → p = q
  frames : ∀ v e, lowerHalf v → leafOf k.pmm pml4 v = some e → Held boot procs k.pmm free (e &&& pageMask)

section

variable {pml4 : U64} {a a' : Areas} {k k' : Kernel} {changed : Slots}

theorem Filed.adm (filed : Filed boot procs pml4 a k free) (lower : lowerHalf v) :
    Adm boot procs pml4 (pathOf v) := adm_pathOf v (.inr ⟨filed.member,lower⟩)

theorem Filed.held (filed : Filed boot procs pml4 a k free) (listed : p ∈ a.list)
    (recorded : page ∈ (a.area p).physPages) : Held boot procs k.pmm free page.phys := by
  obtain ⟨e,leaf,same⟩ := filed.mapped p listed page recorded
  rw [← same]
  exact filed.frames _ e (filed.places p listed page recorded).1 leaf

theorem Filed.leaf_none (filed : Filed boot procs pml4 a k free) (lower : lowerHalf v) :
    mmuTranslate k.pmm.mem pml4 v = none ↔ leafOf k.pmm pml4 v = none := by
  rw [filed.spaces.translate filed.member (filed.adm lower)]
  simp [leafOf]

/-- Calls that set no recorded entry, and no entry of the process to a foreign frame. -/
theorem Filed.evolves (filed : Filed boot procs pml4 a k free)
    (evolves : Evolves boot procs changed k.pmm free k'.pmm rest) (heap : HeapOk boot k'.pmm rest k'.heap)
    (other : ∀ p ∈ a.list, ∀ page ∈ (a.area p).physPages, ¬changed pml4 (pathOf page.start) (ptIndex page.start))
    (new : ∀ v e, lowerHalf v → changed pml4 (pathOf v) (ptIndex v) → leafOf k'.pmm pml4 v = some e →
      Held boot procs k'.pmm rest (e &&& pageMask)) : Filed boot procs pml4 a k' rest := by
  refine ⟨evolves.spaces,heap,filed.member,filed.vma,filed.anon,filed.places,?_,filed.unique,
    frames_evolve filed.member evolves filed.frames new⟩
  intro p listed page recorded
  unfold leafOf
  rw [evolves.leaves (filed.adm (filed.places p listed page recorded).1) rfl (index_lt page.start).2.2.2
    (other p listed page recorded)]
  exact filed.mapped p listed page recorded

theorem Filed.kmalloc (ok : BootOk boot) (filed : Filed boot procs pml4 a k free)
    (bound : size.toNat ≤ 2^63) (returns : Reddyos.kmalloc boot size k = .ok (ptr,k')) :
    ∃ rest, Filed boot procs pml4 a k' rest := by
  obtain ⟨rest,evolves,heap,_⟩ := kmalloc_spec ok filed.spaces filed.heap bound returns
  have kernel : ∀ v : U64, ¬heapSlots boot k.heap.cursor pml4 (pathOf v) (ptIndex v) :=
    fun _ => not_heapSlots filed.spaces filed.member
  exact ⟨rest,filed.evolves evolves heap (fun _ _ page _ => kernel page.start)
    (fun v _ _ here => absurd here (kernel v))⟩

theorem Filed.kfree (filed : Filed boot procs pml4 a k free) (ptr : U64) :
    Filed boot procs pml4 a (Reddyos.kfree ptr k) free := by
  obtain ⟨evolves,heap⟩ := kfree_evolves ptr filed.spaces filed.heap
  exact filed.evolves evolves heap (fun _ _ _ _ => id) (fun _ _ _ here => here.elim)

theorem Filed.write (ok : BootOk boot) (filed : Filed boot procs pml4 a k free)
    (held : ∀ f ∈ pages, Held boot procs k.pmm free f)
    (outside : ∀ b, Outside pages b → mem b = k.pmm.mem b) :
    Filed boot procs pml4 a { k with pmm := { k.pmm with mem := mem } } free := by
  obtain ⟨spaces,same⟩ := filed.spaces.write ok held outside
  have leaf : ∀ v, lowerHalf v → leafOf { k.pmm with mem := mem } pml4 v = leafOf k.pmm pml4 v :=
    fun v lower => same.leafAt (filed.adm lower) (index_lt v).2.2.2
  refine ⟨spaces,filed.heap.quiet same spaces.pmm.nodup (fun _ member => member),filed.member,filed.vma,
    filed.anon,filed.places,?_,filed.unique,?_⟩
  · intro p listed page recorded
    rw [leaf _ (filed.places p listed page recorded).1]
    exact filed.mapped p listed page recorded
  · intro v e lower found
    rw [leaf v lower] at found
    exact same.held (filed.frames v e lower found)

/-- Other areas with the same records, or none. -/
theorem Filed.regroup (filed : Filed boot procs pml4 a k free) (vma : VmaInv a')
    (anon : ∀ q ∈ a'.list, (a'.area q).type = .anon)
    (records : ∀ q ∈ a'.list, (q ∈ a.list ∧ (a'.area q).physPages = (a.area q).physPages) ∨
      (a'.area q).physPages = []) : Filed boot procs pml4 a' k free := by
  have old : ∀ q ∈ a'.list, ∀ page ∈ (a'.area q).physPages,
      q ∈ a.list ∧ page ∈ (a.area q).physPages := by
    intro q listed page recorded
    rcases records q listed with ⟨before,same⟩ | none
    · exact ⟨before,same ▸ recorded⟩
    · rw [none] at recorded
      cases recorded
  refine ⟨filed.spaces,filed.heap,filed.member,vma,anon,?_,?_,?_,filed.frames⟩
  · intro q listed page recorded
    obtain ⟨before,recorded⟩ := old q listed page recorded
    exact filed.places q before page recorded
  · intro q listed page recorded
    obtain ⟨before,recorded⟩ := old q listed page recorded
    exact filed.mapped q before page recorded
  · intro p first q second page inFirst page' inSecond same
    obtain ⟨listed,inFirst⟩ := old p first page inFirst
    obtain ⟨listed',inSecond⟩ := old q second page' inSecond
    exact filed.unique p listed q listed' page inFirst page' inSecond same

structure PageAdded (boot : Boot) (procs : List U64) (pml4 v phys : U64) (k : Kernel) (free : List U64)
    (s : Pmm) (rest : List U64) : Prop extends PageMapped boot procs pml4 v phys k free s rest where
  source : phys ∈ avail boot k.pmm free
  there : ∃ e, leafOf s pml4 v = some e

theorem pageAdded_spec (ok : BootOk boot) (cpu : CpuOk boot) {k : Kernel}
    (sp : Spaces boot k.pmm free procs) (heapOk : HeapOk boot k.pmm free k.heap) (member : pml4 ∈ procs)
    (lower : lowerHalf v) (plain : flags &&& pageMask = 0#64)
    (taken : pmmAllocPage boot k.pmm = .ok (phys,middle))
    (maps : vmmMap boot pml4 v phys flags middle = .ok s) :
    ∃ rest, PageAdded boot procs pml4 v phys k free s rest := by
  obtain ⟨rest,mapped⟩ := pageMapped_spec ok cpu sp heapOk member lower plain taken maps
  obtain ⟨left,allocated⟩ := sp.alloc ok taken
  have selected : Adm boot procs pml4 (pathOf v) := adm_pathOf v (.inr ⟨member,lower⟩)
  obtain ⟨_,update⟩ := vmmMap_spec ok allocated.spaces selected
    (allocated.spaces.smallOn member selected) maps
  have new := update.new
  rw [if_pos (leafEntry_present boot phys flags)] at new
  exact ⟨rest,mapped,allocated.source,_,new⟩

/-- The entry of an absent page is not one of the recorded ones. -/
theorem Filed.absent (filed : Filed boot procs pml4 a k free)
    (absent : leafOf k.pmm pml4 v = none) (listed : p ∈ a.list) (recorded : page ∈ (a.area p).physPages) :
    ¬pageSlot pml4 v pml4 (pathOf page.start) (ptIndex page.start) := by
  rintro ⟨_,path,index⟩
  obtain ⟨e,leaf,_⟩ := filed.mapped p listed page recorded
  unfold leafOf at leaf absent
  rw [path,index,absent] at leaf
  cases leaf

/-- A page without a record, as for the stack. -/
theorem Filed.added (filed : Filed boot procs pml4 a k free)
    (absent : leafOf k.pmm pml4 v = none) (added : PageAdded boot procs pml4 v phys k free s rest) :
    Filed boot procs pml4 a ⟨s,k.heap⟩ rest := by
  let k' : Kernel := ⟨s,k.heap⟩
  have evolves : Evolves boot procs _ k.pmm free k'.pmm rest := added.evolves
  refine filed.evolves evolves added.heap (fun _ listed _ recorded => filed.absent absent listed recorded) ?_
  intro w e _ here leaf
  rw [added.owned here leaf]
  exact added.held

theorem Filed.record (filed : Filed boot procs pml4 a k free) (listed : p ∈ a.list) (lower : lowerHalf v)
    (aligned : Aligned v) (leaf : leafOf k.pmm pml4 v = some e) (same : e &&& pageMask = phys)
    (new : ∀ q ∈ a.list, ∀ page ∈ (a.area q).physPages, page.phys ≠ phys) (block : U64) :
    Filed boot procs pml4
      (a.set p { a.area p with physPages := (a.area p).physPages ++ [⟨v,phys,block⟩] }) k free := by
  have added := recordAdded a p ⟨v,phys,block⟩
  generalize a.set p { a.area p with physPages := (a.area p).physPages ++ [⟨v,phys,block⟩] } = a' at added ⊢
  have list : a'.list = a.list := congrArg inorder added.bounds.tree
  refine ⟨filed.spaces,filed.heap,filed.member,filed.vma.same added.bounds,?_,?_,?_,?_,filed.frames⟩
  · intro q member
    rw [added.type]
    exact filed.anon q (list ▸ member)
  · intro q member page recorded
    rcases added.old recorded with old | ⟨rfl,rfl⟩
    · exact filed.places q (list ▸ member) page old
    · exact ⟨lower,aligned⟩
  · intro q member page recorded
    rcases added.old recorded with old | ⟨rfl,rfl⟩
    · exact filed.mapped q (list ▸ member) page old
    · exact ⟨e,leaf,same⟩
  · rw [list]
    intro q first q' second page inFirst page' inSecond equal
    rcases added.old inFirst with old | ⟨rfl,rfl⟩
    · rcases added.old inSecond with old' | ⟨rfl,rfl⟩
      · exact filed.unique q first q' second page old page' old' equal
      · exact absurd equal (new q first page old)
    · rcases added.old inSecond with old' | ⟨rfl,_⟩
      · exact absurd equal.symm (new q' second page' old')
      · rfl

end

def Listed (a : Areas) (taken : List U64) : Prop :=
  ∀ f ∈ taken, ∃ p ∈ a.list, ∃ page ∈ (a.area p).physPages, page.phys = f

def Machine.Filed (boot : Boot) (procs : List U64) (m : Machine) (free : List U64) : Prop :=
  Reddyos.Filed boot procs m.process.pml4 m.process.areas m.kernel free

theorem Listed.keep (listed : Listed a taken)
    (kept : ∀ p ∈ a.list, (a.area p).physPages ≠ [] →
      p ∈ a'.list ∧ ∀ page ∈ (a.area p).physPages, page ∈ (a'.area p).physPages) : Listed a' taken := by
  intro f member
  obtain ⟨p,inTree,page,recorded,same⟩ := listed f member
  obtain ⟨still,records⟩ := kept p inTree (List.ne_nil_of_mem recorded)
  exact ⟨p,still,page,records page recorded,same⟩

theorem growUserStack_filed (ok : BootOk boot) (cpu : CpuOk boot) (filed : m.Filed boot procs free)
    (below : ¬m.process.userStackBottom - 4096#64 < m.process.userStackBottomMax →
      lowerHalf (m.process.userStackBottom - 4096#64) ∧
        mmuTranslate m.kernel.pmm.mem m.process.pml4 (m.process.userStackBottom - 4096#64) = none)
    (returns : growUserStack boot m = .ok (grown,next)) :
    next.process.areas = m.process.areas ∧ ∃ rest, next.Filed boot procs rest := by
  rcases growUserStack_cases returns with ⟨_,rfl,_⟩ | ⟨_,room,phys,s,s',taken,maps,rfl⟩
  · exact ⟨rfl,free,filed⟩
  obtain ⟨lower,absent⟩ := below room
  generalize m.process.userStackBottom - 4096#64 = page at *
  obtain ⟨rest,added⟩ := pageAdded_spec ok cpu filed.spaces filed.heap filed.member lower (by decide) taken maps
  exact ⟨rfl,rest,Filed.added filed ((Filed.leaf_none filed lower).mp absent) added⟩

theorem alignDown_onPage (lower : lowerHalf addr) : lowerHalf (alignDown addr) ∧ Aligned (alignDown addr) ∧
    pathOf addr = pathOf (alignDown addr) ∧ ptIndex addr = ptIndex (alignDown addr) := by
  have down := toNat_alignDown addr
  have page : lowerHalf (alignDown addr) := by
    unfold lowerHalf at *
    omega
  refine ⟨page,?_,(same_page lower page).mpr (by omega)⟩
  unfold Aligned
  omega

theorem Listed.record (before : Listed a taken) (listed : p ∈ a.list) (page : VmaPhysPage) :
    Listed (a.set p { a.area p with physPages := (a.area p).physPages ++ [page] }) (page.phys :: taken) := by
  intro f member
  rcases List.mem_cons.mp member with rfl | old
  · refine ⟨p,listed,page,?_,rfl⟩
    rw [set_same]
    exact List.mem_append_right _ (List.mem_singleton_self page)
  · obtain ⟨q,inTree,page,inRecords,equal⟩ := before f old
    refine ⟨q,inTree,page,?_,equal⟩
    by_cases here : q = p
    · subst q
      rw [set_same]
      exact List.mem_append_left _ inRecords
    · rw [set_other _ _ here]
      exact inRecords

/-- An anonymous fault on an absent page files the frame it takes. -/
theorem vmaFaultHandler_filed (ok : BootOk boot) (cpu : CpuOk boot) (filed : m.Filed boot procs free)
    (listed : p ∈ m.process.areas.list) (lower : lowerHalf addr)
    (absent : mmuTranslate m.kernel.pmm.mem m.process.pml4 addr = none)
    (returns : vmaFaultHandler boot p addr m = .ok (handled,next)) :
    ∃ phys s rest, pmmAllocPage boot m.kernel.pmm = .ok (phys,s) ∧ phys ≠ 0#64 ∧
      next.Filed boot procs rest ∧ ∀ taken, Listed m.process.areas taken →
        Listed next.process.areas (phys :: taken) := by
  have anon := filed.anon p listed
  cases vmaFaultHandler_cases returns with
  | framebuffer file =>
    rw [anon] at file
    cases file
  | noPage _ taken =>
    obtain ⟨left,allocated⟩ := filed.spaces.alloc ok taken
    exact absurd rfl (allocated.nonNull ok filed.spaces)
  | @given phys block s s' k' _ taken live maps grows =>
    obtain ⟨page,aligned,path,index⟩ := alignDown_onPage lower
    have missing : leafOf m.kernel.pmm m.process.pml4 (alignDown addr) = none := by
      have missing := (Filed.leaf_none filed lower).mp absent
      unfold leafOf at *
      rw [← path,← index]
      exact missing
    obtain ⟨rest,mapped⟩ := pageAdded_spec ok cpu filed.spaces filed.heap filed.member page (by decide) taken maps
    have filed' := Filed.added filed missing mapped
    obtain ⟨rest',evolves,heap,_⟩ := kmalloc_spec ok filed'.spaces filed'.heap (by decide) grows
    have kernel : ∀ v : U64, ¬heapSlots boot m.kernel.heap.cursor m.process.pml4 (pathOf v) (ptIndex v) :=
      fun _ => not_heapSlots filed'.spaces filed.member
    have filed'' := filed'.evolves evolves heap (fun _ _ page _ => kernel page.start)
      (fun v _ _ here => absurd here (kernel v))
    obtain ⟨e,leaf⟩ := mapped.there
    have leaf' : leafOf k'.pmm m.process.pml4 (alignDown addr) = some e :=
      (evolves.leaves (filed.adm page) rfl (index_lt _).2.2.2 (kernel _)).trans leaf
    have new : ∀ q ∈ m.process.areas.list, ∀ page ∈ (m.process.areas.area q).physPages, page.phys ≠ phys := by
      intro q member page recorded equal
      exact (filed.held member recorded).2.1 (equal ▸ mapped.source)
    have recorded := filed''.record listed page aligned leaf' (mapped.leaf e leaf) new block
    have owned := evolves.held mapped.held
    have held : ∀ f ∈ [phys], Held boot procs k'.pmm rest' f := by simpa using owned
    refine ⟨phys,s,rest',taken,live,recorded.write ok held ?_,fun taken before => ?_⟩
    · intro b outside
      exact fill_outside (by have := outside phys (by simp); omega)
    · exact before.record listed ⟨alignDown addr,phys,block⟩

theorem allocRecord_filed (ok : BootOk boot) (filed : m.Filed boot procs free)
    (bound : bytes.toNat ≤ 2^63) (returns : allocRecord boot bytes m = .ok (block,next)) :
    ∃ rest, next.Filed boot procs rest := by
  obtain ⟨same,_,taken⟩ := allocRecord_process returns
  unfold Machine.Filed
  rw [same]
  exact Filed.kmalloc ok filed bound taken

theorem doSysMmap_filed (ok : BootOk boot) (lawful : Lawful ft.ops) (small : ft.nodeBytes.toNat ≤ 2^62)
    (filed : m.Filed boot procs free) (allowed : TreeStep m (.mmap none length offset))
    (returns : doSysMmap boot ft none length offset m = .ok (result,next)) :
    (∃ rest, next.Filed boot procs rest) ∧ ∀ taken, Listed m.process.areas taken →
      Listed next.process.areas taken := by
  rcases doSysMmap_cases returns with
    ⟨_,rfl⟩ | ⟨block,k,record,nonzero,found,⟨_,⟨_,impossible,_⟩,_⟩ | ⟨vma,new,_,_,rfl⟩⟩
  · exact ⟨⟨free,filed⟩,fun _ listed => listed⟩
  · cases impossible
  obtain ⟨rest,filed'⟩ := allocRecord_filed ok filed (vmAreaBytes_bound small) record
  change Reddyos.Filed boot procs m.process.pml4 m.process.areas k rest at filed'
  obtain room := (allowed.resolve_left nonzero).resolve_left (by simp)
  obtain ⟨_,_,_,inv,members⟩ := filed.vma.join lawful nonzero found (vmaFindFreeRegion_top ft nonzero room) new
  obtain ⟨_,newest,same⟩ := filed.vma.push vma
  generalize joined : vmaInsert ft m.process.areas.fresh (m.process.areas.push vma) = a' at *
  have area : a'.area = (m.process.areas.push vma).area := by rw [← joined]; rfl
  rw [← area] at newest same
  refine ⟨⟨rest,filed'.regroup inv ?_ ?_⟩,fun taken listed => listed.keep fun p member _ => ?_⟩
  · intro q member
    rcases (members q).mp member with rfl | old
    · rw [newest,new.type]
      rfl
    · rw [same q old]
      exact filed.anon q old
  · intro q member
    rcases (members q).mp member with rfl | old
    · exact .inr (by rw [newest,new.physPages])
    · exact .inl ⟨old,by rw [same q old]⟩
  · exact ⟨(members p).mpr (.inr member),fun page recorded => by rw [same p member]; exact recorded⟩

/-- The areas after a cut have the records they had. -/
theorem Cut.records (inv : VmaInv a) (split : a.list = before ++ p :: after)
    (cut : Cut a p addr len block before after removed a') (q : Nat) (listed : q ∈ a'.list) :
    (q ∈ a.list ∧ (a'.area q).physPages = (a.area q).physPages ∧ (a'.area q).type = (a.area q).type) ∨
      ((a'.area q).physPages = [] ∧ (a'.area q).type = (a.area p).type) := by
  rcases cut.listed inv.inOrder inv.fresh split q listed with ⟨old,_,area⟩ | ⟨rfl,_,area⟩ | ⟨rfl,_,_,area,_⟩
  · exact .inl ⟨old,by rw [area],by rw [area]⟩
  · refine .inl ⟨by simp [split],by rw [area,trimArea_physPages],?_⟩
    rw [area]
    unfold trimArea
    split <;> rfl
  · exact .inr ⟨by rw [area]; rfl,by rw [area]; rfl⟩

/-- Every area but the one that is cut off as a whole is still there. -/
theorem Cut.stays (inv : VmaInv a) (split : a.list = before ++ p :: after)
    (cut : Cut a p addr len block before after removed a') (listed : q ∈ a.list)
    (other : removed = true → q ≠ p) : q ∈ a'.list ∧ (a'.area q).physPages = (a.area q).physPages := by
  by_cases different : q ≠ p
  · obtain ⟨still,area⟩ := cut.keeps inv.inOrder inv.fresh split listed different
    exact ⟨still,by rw [area]⟩
  obtain rfl : q = p := by simpa using different
  refine ⟨?_,by rw [cut.own,trimArea_physPages]⟩
  cases cut with
  | whole _ _ _ _ _ => exact absurd rfl (other rfl)
  | head _ _ list _ _ => simp [list]
  | tail _ _ list _ _ => simp [list]
  | middle _ _ list _ _ => simp [list]

theorem tailRecord_filed (ok : BootOk boot) (small : ft.nodeBytes.toNat ≤ 2^62)
    (filed : m.Filed boot procs free) (returns : tailRecord boot ft addr len m = .ok (block,next)) :
    ∃ rest, next.Filed boot procs rest := by
  unfold tailRecord at returns
  split at returns
  · exact allocRecord_filed ok filed (vmAreaBytes_bound small) returns
  · obtain ⟨_,rfl⟩ := ok_pair returns
    exact ⟨free,filed⟩

/-- A cut of an area that keeps its pages, or has none. -/
theorem Filed.cut {pml4 : U64} {k : Kernel} (filed : Reddyos.Filed boot procs pml4 a k free)
    (split : a.list = before ++ p :: after) (aligned : Aligned addr) (pages : Aligned len)
    (sum : (addr + len).toNat = addr.toNat + len.toNat)
    (cut : Cut a p addr len block before after removed a')
    (empty : removed = true → (a.area p).physPages = []) :
    Reddyos.Filed boot procs pml4 a' k free ∧ ∀ taken, Listed a taken → Listed a' taken := by
  have records := cut.records filed.vma split
  refine ⟨filed.regroup (filed.vma.cut split aligned pages sum cut) ?_ ?_,fun taken listed => listed.keep ?_⟩
  · intro q member
    rcases records q member with ⟨old,_,type⟩ | ⟨_,type⟩
    · rw [type]
      exact filed.anon q old
    · rw [type]
      exact filed.anon p (by simp [split])
  · intro q member
    rcases records q member with ⟨old,same,_⟩ | ⟨none,_⟩
    · exact .inl ⟨old,same⟩
    · exact .inr none
  · intro q member some'
    obtain ⟨still,same⟩ := cut.stays filed.vma split member (by
      rintro whole rfl
      exact some' (empty whole))
    exact ⟨still,fun page recorded => by rw [same]; exact recorded⟩

theorem doSysMunmap_filed (ok : BootOk boot) (lawful : Lawful ft.ops) (small : ft.nodeBytes.toNat ≤ 2^62)
    (filed : m.Filed boot procs free) (allowed : FramesStep m (.munmap addr length))
    (returns : doSysMunmap boot ft addr length m = .ok (result,next)) :
    (∃ rest, next.Filed boot procs rest) ∧ ∀ taken, Listed m.process.areas taken →
      Listed next.process.areas taken := by
  obtain ⟨tree,empty⟩ := allowed
  unfold doSysMunmap at returns
  dsimp only at returns
  split at returns
  · obtain ⟨_,rfl⟩ := ok_pair returns
    exact ⟨⟨free,filed⟩,fun _ listed => listed⟩
  rename_i nonzero
  obtain ⟨block,k,prepared,outcome⟩ := munmapRegion_cases returns
  obtain ⟨rest,filed'⟩ := tailRecord_filed ok small filed prepared
  change Reddyos.Filed boot procs m.process.pml4 m.process.areas k rest at filed'
  rcases outcome with ⟨_,_,rfl⟩ | ⟨p,a,cutOff,_,rfl⟩ | ⟨p,a,cutOff,_,_,rfl⟩
  · exact ⟨⟨rest,filed'⟩,fun _ listed => listed⟩
  · obtain ⟨sum,aligned,pages,before,after,split,cut⟩ := munmapAreas_cut lawful filed.vma nonzero tree cutOff
    have none : (m.process.areas.area p).physPages = [] := by
      cases cut with
      | whole first last _ _ _ => exact empty p (by simp [split]) first.symm last.symm
    have record : (a.area p).physPages = [] := by
      rw [cut.own,trimArea_physPages,none]
    obtain ⟨left,listed⟩ := Filed.cut filed' split aligned pages sum cut fun _ => none
    rw [record]
    exact ⟨⟨rest,left.kfree _⟩,listed⟩
  · obtain ⟨sum,aligned,pages,before,after,split,cut⟩ := munmapAreas_cut lawful filed.vma nonzero tree cutOff
    obtain ⟨left,listed⟩ := Filed.cut filed' split aligned pages sum cut nofun
    exact ⟨⟨rest,left⟩,listed⟩

theorem pageFaultHandler_filed (ok : BootOk boot) (cpu : CpuOk boot) (lawful : Lawful ft.ops)
    (filed : m.Filed boot procs free) (allowed : FramesStep m (.fault addr))
    (returns : pageFaultHandler boot ft addr m = .ok (handled,next)) :
    (∃ rest, next.Filed boot procs rest) ∧ ∀ taken, Listed m.process.areas taken →
      Listed next.process.areas ((faultFrame boot ft addr m).toList ++ taken) := by
  obtain ⟨stack,area⟩ := allowed
  unfold faultFrame
  rcases pageFaultHandler_cases returns with ⟨_,first⟩ | ⟨first,⟨p,found,handles⟩ | ⟨missing,_,rfl⟩⟩
  · rw [first]
    rcases stackFault_cases first with ⟨grown,_⟩ | ⟨_,grows,called⟩
    · cases grown
    · obtain ⟨same,left⟩ := growUserStack_filed ok cpu filed (fun _ => stack grows) called
      refine ⟨left,fun taken listed => ?_⟩
      dsimp only
      rw [same]
      exact listed
  · rcases stackFault_cases first with ⟨_,_,stays⟩ | ⟨grown,_⟩
    · obtain ⟨before,after,split,low,high⟩ := vmaFind_some lawful.lookup filed.vma.inOrder found
      have listed : p ∈ m.process.areas.list := by simp [split]
      obtain ⟨lower,absent⟩ := area stays p listed ⟨low,high⟩
      obtain ⟨phys,s,rest,taken,live,left,kept⟩ := vmaFaultHandler_filed ok cpu filed listed lower absent handles
      refine ⟨⟨rest,left⟩,fun taken' before => ?_⟩
      simp only [first,found,filed.anon p listed,taken,if_neg live]
      exact kept taken' before
    · cases grown
  · simp only [first,missing]
    exact ⟨⟨free,filed⟩,fun _ listed => listed⟩

/-- Every lower-half page of the process lies in a frame of its own. -/
theorem Filed.translate {pml4 : U64} {k : Kernel} (filed : Reddyos.Filed boot procs pml4 a k free)
    (lower : lowerHalf v) (found : mmuTranslate k.pmm.mem pml4 v = some phys) :
    ∃ f, Held boot procs k.pmm free f ∧ f.toNat ≤ phys.toNat ∧ phys.toNat < f.toNat + 4096 := by
  rw [filed.spaces.translate filed.member (filed.adm lower)] at found
  obtain ⟨e,leaf,rfl⟩ := Option.map_eq_some_iff.mp found
  refine ⟨_,filed.frames v e lower leaf,?_⟩
  rw [toNat_physical]
  omega

theorem userStore_filed (ok : BootOk boot) (filed : m.Filed boot procs free) :
    (userStore addr byte m).Filed boot procs free := by
  unfold userStore
  split
  · rename_i phys found
    split
    · rename_i lower
      obtain ⟨f,held,low,high⟩ := Filed.translate filed lower found
      have owned : ∀ g ∈ [f], Held boot procs m.kernel.pmm free g := by simpa using held
      refine Filed.write ok filed owned ?_
      intro b outside
      exact fill_outside (by have := outside f (by simp); omega)
    · exact filed
  · exact filed

theorem runCall_filed (ok : BootOk boot) (cpu : CpuOk boot) (lawful : Lawful ft.ops)
    (small : ft.nodeBytes.toNat ≤ 2^62) (filed : m.Filed boot procs free)
    (allowed : FramesStep m call) (returns : runCall boot ft call m = .ok next) :
    (∃ rest, next.Filed boot procs rest) ∧ ∀ taken, Listed m.process.areas taken →
      Listed next.process.areas (callFrames boot ft m call ++ taken) := by
  cases call with
  | mmap file length offset =>
    obtain ⟨rfl,room⟩ := allowed
    obtain ⟨⟨result,m'⟩,called,returns⟩ := ok_of_bind returns
    obtain rfl := Except.ok.inj returns
    exact doSysMmap_filed ok lawful small filed room called
  | munmap addr length =>
    obtain ⟨⟨result,m'⟩,called,returns⟩ := ok_of_bind returns
    obtain rfl := Except.ok.inj returns
    exact doSysMunmap_filed ok lawful small filed allowed called
  | fault addr =>
    obtain ⟨⟨handled,m'⟩,called,returns⟩ := ok_of_bind returns
    obtain rfl := Except.ok.inj returns
    exact pageFaultHandler_filed ok cpu lawful filed allowed called
  | store addr byte =>
    obtain rfl := Except.ok.inj returns
    refine ⟨⟨free,userStore_filed ok filed⟩,fun taken listed => ?_⟩
    rw [userStore_process]
    exact listed

theorem ProcessOk.filed (start : ProcessOk boot procs m) : ∃ free, m.Filed boot procs free := by
  obtain ⟨empty,member,free,spaces,heap,frames⟩ := start
  unfold NoAreas at empty
  have none : m.process.areas.list = [] := by rw [empty]; rfl
  refine ⟨free,spaces,heap,member,by rw [empty]; exact vmaInv_init,?_,?_,?_,?_,frames⟩ <;>
    simp [none]

theorem FrameRun.filed (ok : BootOk boot) (cpu : CpuOk boot) (lawful : Lawful ft.ops)
    (small : ft.nodeBytes.toNat ≤ 2^62)
    (run : FrameRun boot ft (ProcessOk boot procs) FramesStep m taken) :
    (∃ free, m.Filed boot procs free) ∧ Listed m.process.areas taken := by
  induction run with
  | init start => exact ⟨start.filed,nofun⟩
  | step _ allowed returns ih =>
    obtain ⟨⟨free,filed⟩,listed⟩ := ih
    obtain ⟨left,kept⟩ := runCall_filed ok cpu lawful small filed allowed returns
    exact ⟨left,kept _ listed⟩

/-- No frame is lost as long as no area is unmapped as a whole while it has a page. -/
theorem frames_kept (ok : BootOk boot) (cpu : CpuOk boot) (lawful : Lawful ft.ops)
    (small : ft.nodeBytes.toNat ≤ 2^62)
    (run : FrameRun boot ft (ProcessOk boot procs) FramesStep m taken) :
    FramesKept boot m taken ∧ (m.process.areas.list = [] → taken = []) := by
  obtain ⟨⟨free,filed⟩,listed⟩ := run.filed ok cpu lawful small
  refine ⟨fun f member => .inl ?_,fun none => ?_⟩
  · obtain ⟨p,inTree,page,recorded,rfl⟩ := listed f member
    obtain ⟨lower,aligned⟩ := filed.places p inTree page recorded
    obtain ⟨e,leaf,same⟩ := filed.mapped p inTree page recorded
    refine ⟨p,inTree,⟨page,recorded,rfl,?_⟩,?_⟩
    · rw [filed.spaces.translate filed.member (filed.adm lower)]
      unfold leafOf at leaf
      rw [leaf,Option.map_some,Option.some.injEq]
      apply BitVec.eq_of_toNat_eq
      unfold Aligned at aligned
      rw [toNat_physical,same]
      omega
    · rintro q other ⟨page',recorded',equal⟩
      exact filed.unique q other p inTree page' recorded' page recorded equal
  · cases taken with
    | nil => rfl
    | cons f rest =>
      obtain ⟨p,inTree,_⟩ := listed f (by simp)
      rw [none] at inTree
      cases inTree

theorem not_onFreelist (sp : Spaces boot s free procs) (held : Held boot procs s free f) :
    ¬∃ list, FreeList boot s list ∧ f ∈ list := by
  rintro ⟨list,chain,member⟩
  rw [Chain.unique (virt_injective boot) chain sp.pmm.list] at member
  exact held.2.1 (List.mem_append_left _ member)

/-- Unmapping a page that was touched loses its frame. -/
theorem frames_lost : BootOk fbBoot ∧ CpuOk fbBoot ∧ Lawful spineTrees.ops ∧ ∃ procs m taken,
    FrameRun fbBoot spineTrees (ProcessOk fbBoot procs) (fun _ _ => True) m taken ∧
      ¬FramesKept fbBoot m taken := by
  refine ⟨fbBoot_ok,fbBoot_cpu,spineOps_lawful,?_⟩
  have evaluated : (touchThenUnmap false 4096#64 0x10000000#64).toOption.map (fun r =>
      (r.2.2.2.1.toOption,mmuTranslate r.2.2.1.kernel.pmm.mem r.2.2.1.process.pml4 0x10000000#64)) =
      some (some 0#64,some 0x108000#64) := by decide +kernel
  have before : (touchThenUnmap false 4096#64 0x10000000#64).toOption.map (fun r =>
      (vmaFindFreeRegion spineTrees r.1.2.process.areas 4096#64,(r.2.1.process.areas.list,
        (r.2.1.process.areas.area 0).type),r.2.1.process.userStackBottomMax)) =
      some (0x10000000#64,([0],.anon),0xEFF60000#64) := by decide +kernel
  have after : (touchThenUnmap false 4096#64 0x10000000#64).toOption.map (fun r =>
      (r.2.2.2.2.process.areas.list,faultFrame fbBoot spineTrees 0x10000000#64 r.2.1)) =
      some ([],some 0x108000#64) := by decide +kernel
  match result : touchThenUnmap false 4096#64 0x10000000#64 with
  | .error stop => rw [result] at evaluated; cases evaluated
  | .ok ((fb,m₀),m₁,m₂,returned,next) =>
    rw [result] at evaluated before after
    simp only [Except.toOption,Option.map_some,Option.some.injEq,Prod.mk.injEq] at evaluated before after
    obtain ⟨zero,mapped⟩ := evaluated
    obtain ⟨placed,anon,stack⟩ := before
    obtain ⟨none,frame⟩ := after
    obtain ⟨start,first,second,last⟩ := touchThenUnmap_calls result
    have third : runCall fbBoot spineTrees (.munmap 0x10000000#64 4096#64) m₂ = .ok next := by
      simp only [runCall,last]
      rfl
    have begun : FrameRun fbBoot spineTrees (ProcessOk fbBoot [m₀.process.pml4]) (fun _ _ => True) m₀ [] :=
      .init (fbProcess_ok start).1
    refine ⟨_,next,_,.step (.step (.step begun trivial first) trivial second) trivial third,fun kept => ?_⟩
    rcases kept 0x108000#64 (by simp [callFrames,frame]) with ⟨p,member,_⟩ | onFreelist
    · rw [none] at member
      cases member
    · -- it was held by the page, and still is by nobody
      have reach := touchThenUnmap_admitted 4096#64 _ (by decide) result placed anon stack
      obtain ⟨free,res⟩ := reach_resident fbBoot_ok fbBoot_cpu spineOps_lawful (by decide) reach
      obtain ⟨f,held,low,high⟩ := translate_frame res (by unfold lowerHalf; decide) mapped
      have same : f = 0x108000#64 := by
        have aligned := held.1.1
        have number : (0x108000#64).toNat = 0x108000 := rfl
        apply BitVec.eq_of_toNat_eq
        unfold Aligned at aligned
        omega
      obtain ⟨_,rest,left,evolves,_⟩ := doSysMunmap_resident fbBoot_ok spineOps_lawful (by decide) res
        (fun _ _ _ _ => ⟨by decide,.inl (by simp [Aligned])⟩) last
      exact not_onFreelist left.spaces (evolves.held (same ▸ held)) onFreelist

theorem frames_kept_touch : ∃ procs m taken,
    FrameRun fbBoot spineTrees (ProcessOk fbBoot procs) FramesStep m taken ∧ taken = [0x108000#64] ∧
      FramesKept fbBoot m taken := by
  have before : (touchThenUnmap false 4096#64 0x10000000#64).toOption.map (fun r =>
      (vmaFindFreeRegion spineTrees r.1.2.process.areas 4096#64,r.2.1.process.userStackBottomMax,
        faultFrame fbBoot spineTrees 0x10000000#64 r.2.1)) =
      some (0x10000000#64,0xEFF60000#64,some 0x108000#64) := by decide +kernel
  have absent : (touchThenUnmap false 4096#64 0x10000000#64).toOption.map (fun r =>
      mmuTranslate r.2.1.kernel.pmm.mem r.2.1.process.pml4 0x10000000#64) = some none := by decide +kernel
  match result : touchThenUnmap false 4096#64 0x10000000#64 with
  | .error stop => rw [result] at absent; cases absent
  | .ok ((fb,m₀),m₁,m₂,returned,next) =>
    rw [result] at before absent
    simp only [Except.toOption,Option.map_some,Option.some.injEq,Prod.mk.injEq] at before absent
    obtain ⟨placed,stack,frame⟩ := before
    obtain ⟨start,first,second,_⟩ := touchThenUnmap_calls result
    have ok := (fbProcess_ok start).1
    have empty : m₀.process.areas.list = [] := by rw [ok.empty]; rfl
    have room : FramesStep m₀ (.mmap none 4096#64 0#64) := by
      refine ⟨rfl,.inr (.inr ⟨0x10000000,by decide,by decide,?_⟩)⟩
      simp [empty]
    have touch : FramesStep m₁ (.fault 0x10000000#64) := by
      refine ⟨fun grows => ?_,fun _ _ _ _ => ⟨by unfold lowerHalf; decide,absent⟩⟩
      have near := grows.1.1
      rw [stack] at near
      exact absurd near (by decide)
    have run : FrameRun fbBoot spineTrees (ProcessOk fbBoot [m₀.process.pml4]) FramesStep m₂ _ :=
      .step (.step (.init ok) room first) touch second
    exact ⟨_,m₂,_,run,by simp [callFrames,frame],
      (frames_kept fbBoot_ok fbBoot_cpu spineOps_lawful (by decide) run).1⟩

end Reddyos
