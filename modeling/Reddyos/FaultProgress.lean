import Reddyos.LargePages
import Reddyos.PageAccess
import Reddyos.VmaRun

/-! Page faults that are handled make progress: either the page is there, or the stack has
come one page closer to its limit. -/
namespace Reddyos

open ByteMemory LinkedChain RadixForest OrderedTree

def Machine.Resolved (m : Machine) (v : U64) : Prop :=
  (mmuTranslate m.kernel.pmm.mem m.process.pml4 v).isSome ∧
    mmuAccess m.kernel.pmm.mem m.process.pml4 v = ⟨true,true,false⟩

/-- The stack is one page longer, and that page is there. -/
structure StackGrown (m next : Machine) : Prop where
  down : next.process.userStackBottom.toNat + 4096 = m.process.userStackBottom.toNat
  limit : m.process.userStackBottomMax.toNat ≤ next.process.userStackBottom.toNat
  fixed : next.process.userStackBottomMax = m.process.userStackBottomMax
  there : next.Resolved next.process.userStackBottom

/-- Faults of one access, each of them handled, that leave it faulting. -/
inductive Refaults (boot : Boot) (ft : Ftrees) (addr : U64) (m : Machine) : Nat → Machine → Prop where
  | start : Refaults boot ft addr m 0 m
  | again : Refaults boot ft addr m n middle → ¬middle.Resolved addr →
      pageFaultHandler boot ft addr middle = .ok (true,next) → Refaults boot ft addr m (n + 1) next

/-- The stack of a process: `process_create` sets the limit 128 pages below the bottom. -/
structure StackOk (p : Process) : Prop where
  bottom : Aligned p.userStackBottom
  limit : Aligned p.userStackBottomMax
  le : p.userStackBottomMax.toNat ≤ p.userStackBottom.toNat
  pages : p.userStackBottom.toNat ≤ p.userStackBottomMax.toNat + 128 * 4096
  lower : p.userStackBottom.toNat ≤ 2^47

structure FaultInv (boot : Boot) (procs : List U64) (m : Machine) (free : List U64) : Prop where
  spaces : Spaces boot m.kernel.pmm free procs
  heap : HeapOk boot m.kernel.pmm free m.kernel.heap
  member : m.process.pml4 ∈ procs
  opened : OpenTables boot procs m.kernel.pmm.mem
  stack : StackOk m.process

variable {boot : Boot} {procs free held : List U64} {ft : Ftrees} {m next : Machine} {s : Pmm}

structure UserPage (boot : Boot) (procs : List U64) (pml4 v : U64) (s : Pmm) (free : List U64) (next : Pmm)
    (rest : List U64) : Prop where
  evolves : Evolves boot procs (pageSlot pml4 v) s free next rest
  opened : OpenTables boot procs next.mem
  leaf : ∃ e, leafOf next pml4 v = some e
  access : mmuAccess next.mem pml4 v = ⟨true,true,false⟩

theorem vmmMap_user {next : Pmm} (ok : BootOk boot) (sp : Spaces boot s free procs) (opened : OpenTables boot procs s.mem)
    (member : pml4 ∈ procs) (lower : lowerHalf v) (rights : entryAccess flags = ⟨true,true,false⟩)
    (plain : AddsNothing phys flags) (maps : vmmMap boot pml4 v phys flags s = .ok next) :
    ∃ rest, UserPage boot procs pml4 v s free next rest := by
  have selected : Adm boot procs pml4 (pathOf v) := adm_pathOf v (.inr ⟨member,lower⟩)
  have small := sp.smallOn member selected
  obtain ⟨rest,update⟩ := vmmMap_spec ok sp selected small maps
  have user : flags &&& pageUser ≠ 0#64 := by
    have bit := congrArg Access.user rights
    exact bne_iff_ne.mp bit
  have after := opened.links (vmmMap_links ok sp selected small maps) fun _ => user
  have leaf := update.new
  rw [if_pos (leafEntry_present boot phys flags)] at leaf
  refine ⟨rest,update.toEvolves,after,⟨_,leaf⟩,?_⟩
  rw [after.access member selected leaf,entryAccess_leaf boot plain,rights]

/-- A frame address has no bits in the place of rights. -/
theorem frame_plain (frame : FrameOk phys) (flags : U64) : AddsNothing phys flags := by
  have none : phys &&& accessBits = 0#64 := by
    rw [← frame.masked,BitVec.and_assoc,show pageMask &&& accessBits = 0#64 by decide,BitVec.and_zero]
  rw [AddsNothing,none,BitVec.zero_and]

/-- Addresses of one page have the same rights. -/
theorem mmuAccess_page (mem : Mem) (path : pathOf v = pathOf w) (index : ptIndex v = ptIndex w) :
    mmuAccess mem pml4 v = mmuAccess mem pml4 w := by
  obtain ⟨first,rest⟩ := List.cons.inj path
  obtain ⟨second,rest⟩ := List.cons.inj rest
  obtain ⟨third,_⟩ := List.cons.inj rest
  simp only [mmuAccess,first,second,third,index]

theorem alignDown_samePage (lower : lowerHalf addr) : lowerHalf (alignDown addr) ∧
    pathOf (alignDown addr) = pathOf addr ∧ ptIndex (alignDown addr) = ptIndex addr := by
  have value := toNat_alignDown addr
  have low : lowerHalf (alignDown addr) := by
    unfold lowerHalf at lower ⊢
    omega
  refine ⟨low,(same_page low lower).mpr ?_⟩
  omega

theorem resolved_of {m : Machine} (sp : Spaces boot m.kernel.pmm free procs) (member : m.process.pml4 ∈ procs)
    (lower : lowerHalf v) (leaf : leafOf m.kernel.pmm m.process.pml4 v = some e)
    (access : mmuAccess m.kernel.pmm.mem m.process.pml4 v = ⟨true,true,false⟩) : m.Resolved v := by
  refine ⟨?_,access⟩
  rw [sp.translate member (adm_pathOf v (.inr ⟨member,lower⟩)),Option.isSome_map]
  exact Option.isSome_iff_exists.mpr ⟨e,leaf⟩

/-- The stack grows by a page, and all is as before. -/
theorem growUserStack_grows (ok : BootOk boot) (inv : FaultInv boot procs m free) (grows : StackGrows m.process addr)
    (returns : growUserStack boot m = .ok (true,next)) : StackGrown m next ∧ ∃ rest, FaultInv boot procs next rest := by
  obtain ⟨⟨_,below⟩,room⟩ := grows
  obtain ⟨bottom,limit,le,pages,low⟩ := inv.stack
  obtain ⟨_,_,_,_,s',taken,maps,rfl⟩ := (growUserStack_cases returns).resolve_left fun full => nomatch full.1
  have positive : 4096 ≤ m.process.userStackBottom.toNat := by
    unfold Aligned at bottom
    have := BitVec.lt_def.mp below
    omega
  have value : (m.process.userStackBottom - 4096#64).toNat = m.process.userStackBottom.toNat - 4096 := by
    have le : 4096#64 ≤ m.process.userStackBottom := BitVec.le_def.mpr positive
    exact BitVec.toNat_sub_of_le le
  have above := Nat.not_lt.mp (fun less => room (BitVec.lt_def.mpr less))
  have lower : lowerHalf (m.process.userStackBottom - 4096#64) := by
    unfold lowerHalf
    omega
  obtain ⟨left,allocated⟩ := inv.spaces.alloc ok taken
  have opened := inv.opened.links (allocated.same.links m.process.pml4 pageUser) fun _ => by decide
  obtain ⟨rest,page⟩ := vmmMap_user ok allocated.spaces opened inv.member lower (by decide)
    (frame_plain allocated.fresh.frame _) maps
  obtain ⟨e,leaf⟩ := page.leaf
  refine ⟨⟨?_,?_,rfl,?_⟩,rest,page.evolves.spaces,?_,inv.member,page.opened,?_⟩
  · dsimp only
    omega
  · dsimp only
    omega
  · exact resolved_of page.evolves.spaces inv.member lower leaf page.access
  · exact (inv.heap.evolves (allocated.evolves anywhere)).evolves page.evolves
  · refine ⟨?_,limit,?_,?_,?_⟩
    · unfold Aligned at bottom ⊢
      dsimp only
      omega
    all_goals
      dsimp only
      omega

/-- What `vmm_lookup` finds lies below the reach of an entry. -/
theorem vmmLookup_high (mem : Mem) (root v : U64) : ((vmmLookup mem root v).getD 0#64).getLsbD 63 = false := by
  unfold vmmLookup
  dsimp only
  split
  · rfl
  · rename_i positive
    rw [vmmVirtToPhysAs_entries] at positive ⊢
    split_ifs at positive ⊢ with top second third last
    · exact absurd (by decide) positive
    · exact absurd (by decide) positive
    · exact absurd (by decide) positive
    · exact absurd (by decide) positive
    · rw [BitVec.ofInt_natCast,BitVec.ofNat_toNat,BitVec.setWidth_eq,Option.getD_some,BitVec.getLsbD_or,BitVec.getLsbD_and,
        BitVec.getLsbD_and,show pageMask.getLsbD 63 = false by decide,show (0xFFF#64).getLsbD 63 = false by decide]
      simp

theorem device_plain (high : phys.getLsbD 63 = false) : AddsNothing phys (pageUser ||| pageWritable) := by
  have bit := nx_bit phys
  rw [high] at bit
  rw [AddsNothing,BitVec.and_assoc,show accessBits &&& ~~~(pageUser ||| pageWritable) = pageNx by decide]
  exact bne_eq_false_iff_eq.mp bit

theorem fbVmaFault_resolves (ok : BootOk boot) (inv : FaultInv boot procs m free) (lower : lowerHalf page)
    (returns : fbVmaFault boot fb m.process.pml4 start pgoff page m.kernel.pmm = .ok (true,s)) :
    ∃ rest, UserPage boot procs m.process.pml4 page m.kernel.pmm free s rest := by
  unfold fbVmaFault at returns
  cases fb with
  | none => cases returns
  | some fb =>
    dsimp only at returns
    split at returns
    · cases returns
    · obtain ⟨s',maps,returns⟩ := ok_of_bind returns
      obtain ⟨_,rfl⟩ := ok_pair returns
      exact vmmMap_user ok inv.spaces inv.opened inv.member lower (by decide)
        (device_plain (vmmLookup_high m.kernel.pmm.mem boot.kernelPml4 _)) maps

/-- A page of anonymous memory, with its record. -/
theorem anon_resolves (ok : BootOk boot) (inv : FaultInv boot procs m free) (lower : lowerHalf addr)
    (taken : pmmAllocPage boot m.kernel.pmm = .ok (phys,s))
    (maps : vmmMap boot m.process.pml4 (alignDown addr) phys (pagePresent ||| pageUser ||| pageWritable) s = .ok s')
    (grows : kmalloc boot vmaPhysPageBytes (m.setPmm s').kernel = .ok (block,k')) :
    Machine.Resolved ⟨{ k' with pmm := { k'.pmm with mem := fill k'.pmm.mem phys.toNat 0#8 4096 } },
      { m.process with areas := areas }⟩ addr := by
  obtain ⟨low,path,index⟩ := alignDown_samePage lower
  obtain ⟨left,allocated⟩ := inv.spaces.alloc ok taken
  have opened := inv.opened.links (allocated.same.links m.process.pml4 pageUser) fun _ => by decide
  obtain ⟨rest,page⟩ := vmmMap_user ok allocated.spaces opened inv.member low (by decide)
    (frame_plain allocated.fresh.frame _) maps
  have selected : Adm boot procs m.process.pml4 (pathOf addr) := adm_pathOf addr (.inr ⟨inv.member,lower⟩)
  obtain ⟨e,leaf⟩ := page.leaf
  have access := page.access
  rw [mmuAccess_page _ path index] at access
  rw [leafOf,path,index] at leaf
  -- the record is allocated behind the mapping
  have heap := (inv.heap.evolves (allocated.evolves anywhere)).evolves page.evolves
  obtain ⟨rest',evolves,_⟩ := kmalloc_spec ok (k := (m.setPmm s').kernel) page.evolves.spaces heap (by decide) grows
  have kept : leafAt k'.pmm.mem m.process.pml4 (pathOf addr) (ptIndex addr) = some e :=
    (evolves.leaves selected rfl (index_lt addr).2.2.2 (not_heapSlots page.evolves.spaces inv.member)).trans leaf
  have rights := (evolves.access selected leaf kept).trans access
  -- the page is cleared last
  have held : ∀ f ∈ [phys], Held boot procs k'.pmm rest' f := by
    simpa using evolves.held (page.evolves.held allocated.held)
  have cleared : ∀ b, Outside [phys] b → fill k'.pmm.mem phys.toNat 0#8 4096 b = k'.pmm.mem b :=
    fun b outside => fill_outside (by have := outside phys (by simp); omega)
  obtain ⟨spaces,tables⟩ := evolves.spaces.write ok held cleared
  refine ⟨?_,(tables.access selected kept).trans rights⟩
  rw [spaces.translate inv.member selected,tables.leafAt selected (index_lt addr).2.2.2,kept]
  rfl

theorem vmaFaultHandler_resolves (ok : BootOk boot) (inv : FaultInv boot procs m free) (lower : lowerHalf addr)
    (returns : vmaFaultHandler boot p addr m = .ok (true,next)) : next.Resolved addr := by
  cases vmaFaultHandler_cases returns with
  | given _ taken _ maps grows => exact anon_resolves ok inv lower taken maps grows
  | @framebuffer _ _ _ s _ _ served =>
    obtain ⟨low,path,index⟩ := alignDown_samePage lower
    obtain ⟨rest,page⟩ := fbVmaFault_resolves ok inv low served
    obtain ⟨e,leaf⟩ := page.leaf
    have access := page.access
    rw [mmuAccess_page _ path index] at access
    rw [leafOf,path,index] at leaf
    exact resolved_of (m := m.setPmm s) page.evolves.spaces inv.member lower leaf access

theorem pageFaultHandler_handled (ok : BootOk boot) (inv : FaultInv boot procs m free) (lower : lowerHalf addr)
    (returns : pageFaultHandler boot ft addr m = .ok (true,next)) :
    next.Resolved addr ∨ StackGrown m next ∧ ∃ rest, FaultInv boot procs next rest := by
  rcases pageFaultHandler_cases returns with ⟨_,first⟩ | ⟨_,⟨p,_,handles⟩ | ⟨_,refused,_⟩⟩
  · rcases stackFault_cases first with ⟨grown,_⟩ | ⟨_,grows,called⟩
    · cases grown
    · exact .inr (growUserStack_grows ok inv grows called)
  · exact .inl (vmaFaultHandler_resolves ok inv lower handles)
  · cases refused

/-- After some handled faults the stack has come as many pages closer to its limit, or the last of them has
resolved the access. -/
theorem Refaults.measure (ok : BootOk boot) (inv : FaultInv boot procs m free) (lower : lowerHalf addr)
    (faults : Refaults boot ft addr m n next) :
    (∃ rest, FaultInv boot procs next rest) ∧ next.process.userStackBottomMax = m.process.userStackBottomMax ∧
        next.process.userStackBottom.toNat + 4096 * n = m.process.userStackBottom.toNat ∨
      next.Resolved addr ∧ m.process.userStackBottomMax.toNat + 4096 * (n - 1) ≤ m.process.userStackBottom.toNat := by
  induction faults with
  | start => exact .inl ⟨⟨free,inv⟩,rfl,by omega⟩
  | again _ faulting handled ih =>
    rcases ih with ⟨⟨rest,inv'⟩,limit,bottom⟩ | ⟨resolved,_⟩
    · rcases pageFaultHandler_handled ok inv' lower handled with resolved | ⟨grown,kept⟩
      · have le := inv'.stack.le
        rw [limit] at le
        exact .inr ⟨resolved,by omega⟩
      · refine .inl ⟨kept,grown.fixed.trans limit,?_⟩
        rw [← bottom,← grown.down,Nat.mul_succ,Nat.add_assoc,Nat.add_comm 4096]
    · exact absurd resolved faulting

theorem Refaults.bounded (ok : BootOk boot) (inv : FaultInv boot procs m free) (lower : lowerHalf addr)
    (faults : Refaults boot ft addr m n next) : n ≤ 129 := by
  have pages := inv.stack.pages
  rcases faults.measure ok inv lower with ⟨⟨rest,inv'⟩,limit,bottom⟩ | ⟨_,few⟩
  · have le := inv'.stack.le
    rw [limit] at le
    omega
  · omega

/-- A fault far from the stack and outside all areas. -/
theorem pageFaultHandler_refuses (lookup : Lookup ft.ops) (inOrder : InOrder m.process.areas)
    (outside : ∀ p ∈ m.process.areas.list, ¬InArea m.process.areas p addr)
    (far : ¬(m.process.userStackBottomMax.toNat ≤ addr.toNat + 4096 ∧ addr.toNat < m.process.userStackBottom.toNat))
    (lower : lowerHalf addr) : pageFaultHandler boot ft addr m = .ok (false,m) := by
  have missing : vmaFind ft m.process.areas addr = none := by
    cases found : vmaFind ft m.process.areas addr with
    | none => rfl
    | some p =>
      obtain ⟨listed,inside⟩ := ((area_lookup lookup inOrder).1 addr p).mp found
      exact absurd inside (outside p listed)
  have away : ¬(m.process.userStackBottomMax ≤ addr + 4096#64 ∧ addr < m.process.userStackBottom) := by
    have sum : (addr + 4096#64).toNat = addr.toNat + 4096 := by
      unfold lowerHalf at lower
      exact toNat_add_page (by omega)
    rw [BitVec.le_def,BitVec.lt_def,sum]
    exact far
  have stack : stackFault boot addr m = .ok (false,m) := if_neg away
  unfold pageFaultHandler
  rw [stack]
  simp only [bind,Except.bind]
  rw [if_neg (by decide),missing]
  rfl

/-- A fault that is handled leaves the page there or the stack longer, so one access is handled at most 129 times;
a fault that is far from the stack and in no area is refused and changes nothing. -/
theorem fault_progress (ok : BootOk boot) (tables : BootTables boot mem)
    (run : SpacesRun boot mem events m.kernel.pmm spaces held) (small : ∀ event ∈ events, event.small boot mem = true)
    (user : ∀ event ∈ events, event.forUser) (member : m.process.pml4 ∈ spaces.map Space.pml4)
    (list : FreeList boot m.kernel.pmm free) (heap : HeapOk boot m.kernel.pmm free m.kernel.heap)
    (stack : StackOk m.process) (lookup : Lookup ft.ops) (inOrder : InOrder m.process.areas) (lower : lowerHalf addr) :
    (∀ next, pageFaultHandler boot ft addr m = .ok (true,next) → next.Resolved addr ∨ StackGrown m next) ∧
      (∀ n next, Refaults boot ft addr m n next → n ≤ 129) ∧
      ((∀ p ∈ m.process.areas.list, ¬InArea m.process.areas p addr) →
        ¬(m.process.userStackBottomMax.toNat ≤ addr.toNat + 4096 ∧ addr.toNat < m.process.userStackBottom.toNat) →
        pageFaultHandler boot ft addr m = .ok (false,m)) := by
  obtain ⟨free',paged⟩ := run.inv ok tables small
  obtain rfl := Chain.unique (virt_injective boot) list paged.forest.pmm.list
  have inv : FaultInv boot (spaces.map Space.pml4) m free :=
    ⟨paged.forest,heap,member,run.opened ok tables small user,stack⟩
  refine ⟨fun next returns => ?_,fun n next faults => faults.bounded ok inv lower,fun outside far => ?_⟩
  · exact (pageFaultHandler_handled ok inv lower returns).imp_right And.left
  · exact pageFaultHandler_refuses lookup inOrder outside far lower

def deepStack : Except Stop (Machine × Machine) := do
  let (pml4,s) ← pagingCreateAddressSpace fbBoot fbStart.pmm
  let m : Machine := ⟨⟨s,fbStart.heap⟩,⟨pml4,0xEFFE0000#64,0xEFF60000#64,areasInit⟩⟩
  let (_,next) ← pageFaultHandler fbBoot spineTrees 0xEFFDFFF8#64 m
  return (m,next)

theorem deepStack_calls (returns : deepStack = .ok (m,next)) : ∃ pml4 s handled,
    pagingCreateAddressSpace fbBoot fbStart.pmm = .ok (pml4,s) ∧
      m = ⟨⟨s,fbStart.heap⟩,⟨pml4,0xEFFE0000#64,0xEFF60000#64,areasInit⟩⟩ ∧
      pageFaultHandler fbBoot spineTrees 0xEFFDFFF8#64 m = .ok (handled,next) := by
  unfold deepStack at returns
  obtain ⟨⟨pml4,s⟩,creates,returns⟩ := ok_of_bind returns
  obtain ⟨⟨handled,next'⟩,fault,returns⟩ := ok_of_bind returns
  obtain ⟨rfl,rfl⟩ := ok_pair returns
  exact ⟨pml4,s,handled,creates,rfl,fault⟩

theorem fault_progress_stack : ∃ m next,
    pageFaultHandler fbBoot spineTrees 0xEFFDFFF8#64 m = .ok (true,next) ∧
      (next.Resolved 0xEFFDFFF8#64 ∨ StackGrown m next) ∧
      (∀ n next, Refaults fbBoot spineTrees 0xEFFDFFF8#64 m n next → n ≤ 129) ∧
      pageFaultHandler fbBoot spineTrees 0x10000000#64 m = .ok (false,m) := by
  have evaluated : deepStack.toOption.map (fun r =>
      (pageFaultHandler fbBoot spineTrees 0xEFFDFFF8#64 r.1).toOption.map Prod.fst) = some (some true) := by
    decide +kernel
  cases result : deepStack with
  | error stop => rw [result] at evaluated; cases evaluated
  | ok r =>
    obtain ⟨m,next⟩ := r
    rw [result] at evaluated
    obtain ⟨pml4,s,handled,creates,start,fault⟩ := deepStack_calls result
    simp only [Except.toOption,Option.map_some,Option.some.injEq,fault] at evaluated
    subst evaluated
    obtain ⟨free,spaces,heap⟩ := fbStart_ok
    obtain ⟨rest,created⟩ := pagingCreateAddressSpace_spec fbBoot_ok spaces creates
    have kept := created.heapOk heap
    have run := SpacesRun.create (.init (m := fun _ => 0#8)) creates
    subst m
    have stack : StackOk ⟨pml4,0xEFFE0000#64,0xEFF60000#64,areasInit⟩ := by
      constructor <;> simp [Aligned]
    have inOrder : InOrder areasInit := ⟨by decide,by decide⟩
    have lookup : Lookup spineTrees.ops := spineOps_lawful.lookup
    have progress := fun addr (lower : lowerHalf addr) => fault_progress
      (m := ⟨⟨s,fbStart.heap⟩,⟨pml4,0xEFFE0000#64,0xEFF60000#64,areasInit⟩⟩) fbBoot_ok fbBoot_tables run
      (by simp [SpaceEvent.small]) (by simp [SpaceEvent.forUser]) List.mem_cons_self created.spaces.pmm.list kept
      stack lookup inOrder lower
    obtain ⟨grows,bounded,_⟩ := progress 0xEFFDFFF8#64 (by unfold lowerHalf; decide)
    obtain ⟨_,_,refused⟩ := progress 0x10000000#64 (by unfold lowerHalf; decide)
    exact ⟨_,next,fault,grows next fault,bounded,refused (fun _ listed => absurd listed List.not_mem_nil) (by simp)⟩

end Reddyos
