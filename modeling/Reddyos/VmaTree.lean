import Reddyos.VmaCut

/-! The area tree over whole runs of `mmap`, `munmap`, page faults and stores. -/
namespace Reddyos

open ByteMemory OrderedTree

inductive VmaCall where
  | mmap (file : Option VmaFile) (length offset : U64)
  | munmap (addr length : U64)
  | fault (addr : U64)
  | store (addr : U64) (byte : BitVec 8)

def runCall (boot : Boot) (ft : Ftrees) : VmaCall → Machine → Except Stop Machine
  | .mmap file length offset, m => return (← doSysMmap boot ft file length offset m).2
  | .munmap addr length, m => return (← doSysMunmap boot ft addr length m).2
  | .fault addr, m => return (← pageFaultHandler boot ft addr m).2
  | .store addr byte, m => return userStore addr byte m

/-- States reached from a `start` state by calls that `allowed` admits. -/
inductive VmaReach (boot : Boot) (ft : Ftrees) (start : Machine → Prop)
    (allowed : Machine → VmaCall → Prop) : Machine → Prop where
  | init : start m → VmaReach boot ft start allowed m
  | step : VmaReach boot ft start allowed m → allowed m call → runCall boot ft call m = .ok next →
      VmaReach boot ft start allowed next

def NoAreas (m : Machine) : Prop := m.process.areas = areasInit

structure TreeOk (a : Areas) : Prop where
  area : ∀ p ∈ a.list, AreaOk (a.area p)
  disjoint : ∀ p ∈ a.list, ∀ q ∈ a.list, p ≠ q →
    (a.area p).stop.toNat ≤ (a.area q).start.toNat ∨ (a.area q).stop.toNat ≤ (a.area p).start.toNat
  ordered : a.list.Pairwise fun p q => (a.area p).start.toNat < (a.area q).start.toNat

/-- A mapping of the rounded length has room, or fails anyway; an unmapping of addresses
of an area does not run past the end of the address space, and is aligned or refused. -/
def TreeStep (m : Machine) : VmaCall → Prop
  | .mmap file length _ => alignUp length = 0#64 ∨ (∃ f, file = some f ∧ f.vmaFault = false) ∨
      ∃ x, FreeAt m.process.areas x (alignUp length).toNat
  | .munmap addr length => ∀ p ∈ m.process.areas.list,
      (m.process.areas.area p).start.toNat ≤ addr.toNat →
      addr.toNat < (m.process.areas.area p).stop.toNat →
      addr.toNat + (alignUp length).toNat < 2^64 ∧
        (Aligned addr ∨ (m.process.areas.area p).stop.toNat < addr.toNat + (alignUp length).toNat)
  | .fault _ => True
  | .store _ _ => True

theorem VmaInv.treeOk (inv : VmaInv a) : TreeOk a where
  area := inv.ok
  disjoint := by
    intro p first q second different
    obtain ⟨before,after,split⟩ := List.append_of_mem first
    obtain ⟨early,late⟩ := inv.inOrder.member split
    rw [split,List.mem_append,List.mem_cons] at second
    rcases second with h | rfl | h
    · exact .inr (early q h).2
    · exact absurd rfl different
    · exact .inl (late q h).2
  ordered := inv.sorted

structure SameAreas (a a' : Areas) : Prop where
  tree : a'.tree = a.tree
  fresh : a'.fresh = a.fresh
  start : ∀ p, (a'.area p).start = (a.area p).start
  stop : ∀ p, (a'.area p).stop = (a.area p).stop

structure RecordAdded (a a' : Areas) (p : Nat) (page : VmaPhysPage) : Prop where
  bounds : SameAreas a a'
  type : ∀ q, (a'.area q).type = (a.area q).type
  pages : ∀ q, (a'.area q).physPages = if q = p then (a.area q).physPages ++ [page] else (a.area q).physPages

theorem recordAdded (a : Areas) (p : Nat) (page : VmaPhysPage) :
    RecordAdded a (a.set p { a.area p with physPages := (a.area p).physPages ++ [page] }) p page := by
  have area : ∀ q, (a.set p { a.area p with physPages := (a.area p).physPages ++ [page] }).area q =
      if q = p then { a.area q with physPages := (a.area q).physPages ++ [page] } else a.area q := by
    intro q
    by_cases here : q = p
    · subst q
      rw [set_same,if_pos rfl]
    · rw [set_other _ _ here,if_neg here]
  refine ⟨⟨rfl,rfl,fun q => ?_,fun q => ?_⟩,fun q => ?_,fun q => ?_⟩ <;>
  · rw [area]
    split <;> rfl

theorem RecordAdded.old (added : RecordAdded a a' p page) (recorded : other ∈ (a'.area q).physPages) :
    other ∈ (a.area q).physPages ∨ (q = p ∧ other = page) := by
  rw [added.pages] at recorded
  split at recorded
  · rename_i here
    rcases List.mem_append.mp recorded with old | last
    · exact .inl old
    · exact .inr ⟨here,List.mem_singleton.mp last⟩
  · exact .inl recorded

theorem RecordAdded.keep (added : RecordAdded a a' p page) (recorded : other ∈ (a.area q).physPages) :
    other ∈ (a'.area q).physPages := by
  rw [added.pages]
  split
  · exact List.mem_append_left _ recorded
  · exact recorded

theorem RecordAdded.new (added : RecordAdded a a' p page) : page ∈ (a'.area p).physPages := by
  rw [added.pages,if_pos rfl]
  exact List.mem_append_right _ (List.mem_singleton_self page)

theorem VmaInv.same (inv : VmaInv a) (same : SameAreas a a') : VmaInv a' := by
  have list : a'.list = a.list := congrArg inorder same.tree
  have ok : ∀ p ∈ a'.list, AreaOk (a'.area p) := by
    intro p member
    obtain ⟨low,nonempty,start,stop⟩ := inv.ok p (list ▸ member)
    rw [← same.start] at low nonempty start
    rw [← same.stop] at nonempty stop
    exact ⟨low,nonempty,start,stop⟩
  refine ⟨ok,?_,?_⟩
  · rw [list]
    simpa only [same.start,same.stop] using inv.apart
  · rw [list,same.fresh]
    exact inv.fresh

theorem allocRecord_process (returns : allocRecord boot bytes m = .ok (block,next)) :
    next.process = m.process ∧ block ≠ 0#64 ∧
      kmalloc boot bytes m.kernel = .ok (block,next.kernel) := by
  obtain ⟨⟨block',kernel⟩,taken,returns⟩ := ok_of_bind returns
  dsimp only at returns
  split at returns
  · cases returns
  · rename_i live
    obtain ⟨rfl,rfl⟩ := ok_pair returns
    exact ⟨rfl,live,taken⟩

theorem doSysMmap_cases (returns : doSysMmap boot ft file length offset m = .ok (result,next)) :
    ((∃ e, result = .error e) ∧ next = m) ∨
    ∃ block k, allocRecord boot (vmAreaBytes ft) m = .ok (block,⟨k,m.process⟩) ∧ alignUp length ≠ 0#64 ∧
      vmaFindFreeRegion ft m.process.areas length ≠ 0#64 ∧
      ((result = .error .enodev ∧ (∃ f, file = some f ∧ f.vmaFault = false) ∧
        next = ⟨kfree block k,m.process⟩) ∨
      ∃ vma, NewArea file (vmaFindFreeRegion ft m.process.areas length) (alignUp length) vma ∧
        (∀ f, file = some f → f.vmaFault = true) ∧
        result = .ok (vmaFindFreeRegion ft m.process.areas length) ∧
        next = ⟨k,{ m.process with
          areas := vmaInsert ft m.process.areas.fresh (m.process.areas.push vma) }⟩) := by
  unfold doSysMmap at returns
  dsimp only at returns
  split at returns
  · obtain ⟨rfl,rfl⟩ := ok_pair returns
    exact .inl ⟨⟨_,rfl⟩,rfl⟩
  rename_i nonzero
  split at returns
  · obtain ⟨rfl,rfl⟩ := ok_pair returns
    exact .inl ⟨⟨_,rfl⟩,rfl⟩
  rename_i found
  obtain ⟨⟨block,k,process⟩,taken,returns⟩ := ok_of_bind returns
  obtain ⟨same,_,_⟩ := allocRecord_process taken
  dsimp only at same
  subst process
  refine .inr ⟨block,k,taken,nonzero,found,?_⟩
  dsimp only at returns
  split at returns
  · cases returns
  match outcome : mmapRegion ft file (vmaFindFreeRegion ft m.process.areas length) (alignUp length) 0#64 offset
      block m.process.areas with
  | (mapped,areas) =>
    rw [outcome] at returns
    rcases mmapRegion_cases outcome with ⟨f,rfl,missing,rfl,rfl⟩ | ⟨device,rfl,vma,new,rfl⟩
    · obtain ⟨rfl,rfl⟩ := ok_pair returns
      exact .inl ⟨rfl,⟨f,rfl,missing⟩,rfl⟩
    · obtain ⟨rfl,rfl⟩ := ok_pair returns
      exact .inr ⟨vma,new,device,rfl,rfl⟩

/-- A new area on a place that is free joins the tree. -/
theorem VmaInv.join {ft : Ftrees} (lawful : Lawful ft.ops) (inv : VmaInv a)
    (nonzero : alignUp length ≠ 0#64) (found : vmaFindFreeRegion ft a length ≠ 0#64)
    (top : (vmaFindFreeRegion ft a length).toNat + (alignUp length).toNat < 2^64)
    (new : NewArea file (vmaFindFreeRegion ft a length) (alignUp length) vma) :
    AreaOk vma ∧ vma.stop.toNat = vma.start.toNat + (alignUp length).toNat ∧
      (∀ p ∈ a.list, vma.stop.toNat ≤ (a.area p).start.toNat ∨ (a.area p).stop.toNat ≤ vma.start.toNat) ∧
      VmaInv (vmaInsert ft a.fresh (a.push vma)) ∧
      ∀ p, p ∈ (vmaInsert ft a.fresh (a.push vma)).list ↔ p = a.fresh ∨ p ∈ a.list := by
  obtain ⟨⟨low,_,free⟩,aligned⟩ := vmaFindFreeRegion_free ft inv nonzero found top
  obtain ⟨_,rounded⟩ := toNat_roundUp nonzero
  have positive : (alignUp length).toNat ≠ 0 := fun zero => nonzero (BitVec.eq_of_toNat_eq zero)
  have sum : vma.stop.toNat = vma.start.toNat + (alignUp length).toNat := by
    rw [new.stop,new.start,BitVec.toNat_add]
    exact Nat.mod_eq_of_lt top
  rw [← new.start] at low free aligned
  have area : AreaOk vma := by
    refine ⟨low,by omega,aligned,?_⟩
    unfold Aligned at *
    omega
  rw [← sum] at free
  exact ⟨area,sum,free,inv.insert lawful area free⟩

theorem doSysMmap_areas {ft : Ftrees} (lawful : Lawful ft.ops) (inv : VmaInv m.process.areas)
    (allowed : TreeStep m (.mmap file length offset))
    (returns : doSysMmap boot ft file length offset m = .ok (result,next)) :
    VmaInv next.process.areas := by
  rcases doSysMmap_cases returns with
    ⟨_,rfl⟩ | ⟨block,k,_,nonzero,found,⟨_,_,rfl⟩ | ⟨vma,new,device,_,rfl⟩⟩
  · exact inv
  · exact inv
  rcases allowed with zero | ⟨f,rfl,missing⟩ | room
  · exact absurd zero nonzero
  · rw [device f rfl] at missing
    cases missing
  · exact (inv.join lawful nonzero found (vmaFindFreeRegion_top ft nonzero room) new).2.2.2.1

theorem munmapRegion_cases (returns : munmapRegion boot ft addr len m = .ok (result,next)) :
    ∃ block k, tailRecord boot ft addr len m = .ok (block,⟨k,m.process⟩) ∧
      ((munmapAreas ft addr len block m.process.areas = none ∧ result = .error .einval ∧
        next = ⟨k,m.process⟩) ∨
      (∃ p a, munmapAreas ft addr len block m.process.areas = some (p,true,a) ∧ result = .ok 0#64 ∧
        next = ⟨kfree (a.area p).block (vmaDestroy m.process.pml4 (a.area p).physPages k),
          { m.process with areas := a }⟩) ∨
      ∃ p a, munmapAreas ft addr len block m.process.areas = some (p,false,a) ∧ result = .ok 0#64 ∧
        vmaCleanup (a.area p) = .ok () ∧ next = ⟨k,{ m.process with areas := a }⟩) := by
  unfold munmapRegion at returns
  obtain ⟨⟨block,k,process⟩,prepared,returns⟩ := ok_of_bind returns
  have same : process = m.process := by
    unfold tailRecord at prepared
    split at prepared
    · exact (allocRecord_process prepared).1
    · obtain ⟨_,rfl⟩ := ok_pair prepared
      rfl
  subst same
  refine ⟨block,k,prepared,?_⟩
  dsimp only at returns
  split at returns
  · rename_i refused
    obtain ⟨rfl,rfl⟩ := ok_pair returns
    exact .inl ⟨refused,rfl,rfl⟩
  · rename_i p a whole
    obtain ⟨rfl,rfl⟩ := ok_pair returns
    exact .inr (.inl ⟨p,a,whole,rfl,rfl⟩)
  · rename_i p a part
    obtain ⟨_,cleaned,returns⟩ := ok_of_bind returns
    obtain ⟨rfl,rfl⟩ := ok_pair returns
    exact .inr (.inr ⟨p,a,part,rfl,cleaned,rfl⟩)

/-- The cut behind a `munmap_region` that returns 0. -/
theorem munmapAreas_cut {ft : Ftrees} (lawful : Lawful ft.ops) (inv : VmaInv m.process.areas)
    (nonzero : alignUp length ≠ 0#64) (allowed : TreeStep m (.munmap addr length))
    (cutOff : munmapAreas ft addr (alignUp length) block m.process.areas = some (p,removed,a)) :
    (addr + alignUp length).toNat = addr.toNat + (alignUp length).toNat ∧ Aligned addr ∧
      Aligned (alignUp length) ∧ ∃ before after, m.process.areas.list = before ++ p :: after ∧
        Cut m.process.areas p addr (alignUp length) block before after removed a := by
  obtain ⟨_,rounded⟩ := toNat_roundUp nonzero
  obtain ⟨before,after,split,low,high⟩ := vmaFind_some lawful.lookup inv.inOrder (munmapAreas_found cutOff)
  obtain ⟨top,aligned⟩ := allowed p (by simp [split]) low high
  have sum : (addr + alignUp length).toNat = addr.toNat + (alignUp length).toNat := by
    rw [BitVec.toNat_add]
    exact Nat.mod_eq_of_lt top
  obtain ⟨before,after,split,cut⟩ := munmapAreas_cases lawful inv.inOrder inv.fresh sum cutOff
  have inside := cut.inside
  refine ⟨sum,aligned.resolve_right (by omega),?_,before,after,split,cut⟩
  unfold Aligned
  omega

theorem doSysMunmap_areas {ft : Ftrees} (lawful : Lawful ft.ops) (inv : VmaInv m.process.areas)
    (allowed : TreeStep m (.munmap addr length))
    (returns : doSysMunmap boot ft addr length m = .ok (result,next)) :
    VmaInv next.process.areas := by
  unfold doSysMunmap at returns
  dsimp only at returns
  split at returns
  · obtain ⟨_,rfl⟩ := ok_pair returns
    exact inv
  rename_i nonzero
  obtain ⟨block,k,_,⟨_,_,rfl⟩ | ⟨p,a,cutOff,_,rfl⟩ | ⟨p,a,cutOff,_,_,rfl⟩⟩ := munmapRegion_cases returns
  · exact inv
  · obtain ⟨sum,aligned,pages,before,after,split,cut⟩ := munmapAreas_cut lawful inv nonzero allowed cutOff
    exact inv.cut split aligned pages sum cut
  · obtain ⟨sum,aligned,pages,before,after,split,cut⟩ := munmapAreas_cut lawful inv nonzero allowed cutOff
    exact inv.cut split aligned pages sum cut

theorem growUserStack_cases (returns : growUserStack boot m = .ok (grown,next)) :
    (grown = false ∧ next = m ∧ m.process.userStackBottom - 4096#64 < m.process.userStackBottomMax) ∨
      (grown = true ∧ ¬m.process.userStackBottom - 4096#64 < m.process.userStackBottomMax ∧
        ∃ phys s s', pmmAllocPage boot m.kernel.pmm = .ok (phys,s) ∧
          vmmMap boot m.process.pml4 (m.process.userStackBottom - 4096#64) phys
            (pageUser ||| pageWritable ||| pagePresent) s = .ok s' ∧
          next = ⟨{ m.kernel with pmm := s' },
            { m.process with userStackBottom := m.process.userStackBottom - 4096#64 }⟩) := by
  unfold growUserStack at returns
  dsimp only at returns
  split at returns
  · rename_i full
    obtain ⟨rfl,rfl⟩ := ok_pair returns
    exact .inl ⟨rfl,rfl,full⟩
  · rename_i room
    obtain ⟨⟨phys,s⟩,taken,returns⟩ := ok_of_bind returns
    obtain ⟨s',maps,returns⟩ := ok_of_bind returns
    obtain ⟨rfl,rfl⟩ := ok_pair returns
    exact .inr ⟨rfl,room,phys,s,s',taken,maps,rfl⟩

/-- Of the process, only the bottom of its stack moves. -/
theorem stackFault_process (returns : stackFault boot addr m = .ok (grown,next)) :
    next.process = { m.process with userStackBottom := next.process.userStackBottom } := by
  unfold stackFault at returns
  split at returns
  · rcases growUserStack_cases returns with ⟨_,rfl,_⟩ | ⟨_,_,_,_,_,_,_,rfl⟩ <;> rfl
  · obtain ⟨_,rfl⟩ := ok_pair returns
    rfl

/-- What `vma_fault_handler` does for an area: a fresh page, mapped, recorded and cleared last; nothing when there
is no page; what the framebuffer does. -/
inductive AreaFault (boot : Boot) (p : Nat) (addr : U64) (m : Machine) : Bool → Machine → Prop where
  | given {phys block : U64} {s s' : Pmm} {k : Kernel} : (m.process.areas.area p).type = .anon →
      pmmAllocPage boot m.kernel.pmm = .ok (phys,s) → phys ≠ 0#64 →
      vmmMap boot m.process.pml4 (alignDown addr) phys (pagePresent ||| pageUser ||| pageWritable) s = .ok s' →
      kmalloc boot vmaPhysPageBytes (m.setPmm s').kernel = .ok (block,k) →
      AreaFault boot p addr m true ⟨{ k with pmm := { k.pmm with mem := fill k.pmm.mem phys.toNat 0#8 4096 } },
        { m.process with areas := m.process.areas.set p { m.process.areas.area p with
          physPages := (m.process.areas.area p).physPages ++ [⟨alignDown addr,phys,block⟩] } }⟩
  | noPage {s : Pmm} : (m.process.areas.area p).type = .anon → pmmAllocPage boot m.kernel.pmm = .ok (0#64,s) →
      AreaFault boot p addr m false (m.setPmm s)
  | framebuffer {ops : Bool} {fb : Option Framebuffer} {handled : Bool} {s : Pmm} : (m.process.areas.area p).type = .file →
      (m.process.areas.area p).file = some ⟨ops,true,fb⟩ →
      fbVmaFault boot fb m.process.pml4 (m.process.areas.area p).start (m.process.areas.area p).pgoff (alignDown addr)
        m.kernel.pmm = .ok (handled,s) →
      AreaFault boot p addr m handled (m.setPmm s)

theorem vmaFaultHandler_cases (returns : vmaFaultHandler boot p addr m = .ok (handled,next)) :
    AreaFault boot p addr m handled next := by
  unfold vmaFaultHandler at returns
  dsimp only at returns
  split at returns
  · rename_i anon
    obtain ⟨⟨phys,s⟩,taken,returns⟩ := ok_of_bind returns
    dsimp only at returns
    split at returns
    · rename_i null
      obtain ⟨rfl,rfl⟩ := ok_pair returns
      exact .noPage anon (null ▸ taken)
    · rename_i live
      obtain ⟨s',maps,returns⟩ := ok_of_bind returns
      obtain ⟨m',added,returns⟩ := ok_of_bind returns
      obtain ⟨rfl,rfl⟩ := ok_pair returns
      obtain ⟨⟨block,m''⟩,record,added⟩ := ok_of_bind added
      obtain ⟨same,_,grows⟩ := allocRecord_process record
      obtain rfl := Except.ok.inj added
      change m''.process = m.process at same
      dsimp only [Machine.setPmm,Machine.setAreas]
      rw [same]
      exact .given anon taken live maps grows
  · rename_i type
    split at returns
    · rename_i fb file
      obtain ⟨⟨handled',s⟩,served,returns⟩ := ok_of_bind returns
      obtain ⟨rfl,rfl⟩ := ok_pair returns
      exact .framebuffer type file served
    · cases returns

theorem SameAreas.refl (a : Areas) : SameAreas a a := ⟨rfl,rfl,fun _ => rfl,fun _ => rfl⟩

/-- The stack comes first; a stack that does not grow leaves everything as it was. -/
theorem pageFaultHandler_cases (returns : pageFaultHandler boot ft addr m = .ok (handled,next)) :
    (handled = true ∧ stackFault boot addr m = .ok (true,next)) ∨
      (stackFault boot addr m = .ok (false,m) ∧
        ((∃ p, vmaFind ft m.process.areas addr = some p ∧ vmaFaultHandler boot p addr m = .ok (handled,next)) ∨
          (vmaFind ft m.process.areas addr = none ∧ handled = false ∧ next = m))) := by
  obtain ⟨⟨grown,m'⟩,stack,later⟩ := ok_of_bind returns
  cases grown with
  | true =>
    obtain ⟨rfl,rfl⟩ := ok_pair later
    exact .inl ⟨rfl,stack⟩
  | false =>
    have same : m' = m := by
      unfold stackFault at stack
      split at stack
      · rcases growUserStack_cases stack with ⟨_,same,_⟩ | ⟨grown,_⟩
        · exact same
        · cases grown
      · exact (ok_pair stack).2.symm
    subst same
    refine .inr ⟨stack,?_⟩
    dsimp only at later
    rw [if_neg (by decide)] at later
    cases found : vmaFind ft m'.process.areas addr with
    | some p =>
      rw [found] at later
      exact .inl ⟨p,rfl,later⟩
    | none =>
      rw [found] at later
      obtain ⟨rfl,rfl⟩ := ok_pair later
      exact .inr ⟨rfl,rfl,rfl⟩

theorem vmaFaultHandler_areas (returns : vmaFaultHandler boot p addr m = .ok (handled,next)) :
    SameAreas m.process.areas next.process.areas := by
  cases vmaFaultHandler_cases returns with
  | given => exact (recordAdded m.process.areas p _).bounds
  | noPage => exact .refl _
  | framebuffer => exact .refl _

theorem pageFaultHandler_areas (returns : pageFaultHandler boot ft addr m = .ok (handled,next)) :
    SameAreas m.process.areas next.process.areas := by
  rcases pageFaultHandler_cases returns with ⟨_,stack⟩ | ⟨_,⟨p,_,handles⟩ | ⟨_,_,rfl⟩⟩
  · rw [stackFault_process stack]
    exact .refl _
  · exact vmaFaultHandler_areas handles
  · exact .refl _

theorem userStore_process (addr : U64) (byte : BitVec 8) (m : Machine) :
    (userStore addr byte m).process = m.process := by
  unfold userStore
  split
  · split <;> rfl
  · rfl

theorem vmaInv_init : VmaInv areasInit := ⟨by simp [Areas.list,areasInit,inorder],List.Pairwise.nil,
  by simp [Areas.list,areasInit,inorder]⟩

theorem runCall_areas {ft : Ftrees} (lawful : Lawful ft.ops) (inv : VmaInv m.process.areas)
    (allowed : TreeStep m call) (returns : runCall boot ft call m = .ok next) :
    VmaInv next.process.areas := by
  cases call with
  | mmap file length offset =>
    obtain ⟨⟨result,m'⟩,called,returns⟩ := ok_of_bind returns
    obtain rfl := Except.ok.inj returns
    exact doSysMmap_areas lawful inv allowed called
  | munmap addr length =>
    obtain ⟨⟨result,m'⟩,called,returns⟩ := ok_of_bind returns
    obtain rfl := Except.ok.inj returns
    exact doSysMunmap_areas lawful inv allowed called
  | fault addr =>
    obtain ⟨⟨handled,m'⟩,called,returns⟩ := ok_of_bind returns
    obtain rfl := Except.ok.inj returns
    exact inv.same (pageFaultHandler_areas called)
  | store addr byte =>
    obtain rfl := Except.ok.inj returns
    rw [userStore_process]
    exact inv

/-- The area tree is a tree of disjoint page ranges in every state reached by calls that
have room and do not cut an area at an unaligned or wrapping place. -/
theorem vma_tree_ok {ft : Ftrees} (lawful : Lawful ft.ops) (reach : VmaReach boot ft NoAreas TreeStep m) :
    TreeOk m.process.areas := by
  have inv : VmaInv m.process.areas := by
    induction reach with
    | init empty =>
      unfold NoAreas at empty
      rw [empty]
      exact vmaInv_init
    | step _ allowed returns ih => exact runCall_areas lawful ih allowed returns
  exact inv.treeOk

def vmaStart : Machine := ⟨fbStart,⟨0x8000#64,0xEFFE0000#64,0xEFF60000#64,areasInit⟩⟩

theorem vmaStart_empty : NoAreas vmaStart := rfl

def mapThenUnmap (addr : U64) : Except Stop (Machine × Machine) := do
  let m ← runCall fbBoot spineTrees (.mmap none 8192#64 0#64) vmaStart
  let next ← runCall fbBoot spineTrees (.munmap addr 4096#64) m
  return (m,next)

theorem mapThenUnmap_calls (returns : mapThenUnmap addr = .ok (m,next)) :
    runCall fbBoot spineTrees (.mmap none 8192#64 0#64) vmaStart = .ok m ∧
      runCall fbBoot spineTrees (.munmap addr 4096#64) m = .ok next := by
  unfold mapThenUnmap at returns
  obtain ⟨m',first,returns⟩ := ok_of_bind returns
  obtain ⟨next',second,returns⟩ := ok_of_bind returns
  obtain ⟨rfl,rfl⟩ := ok_pair returns
  exact ⟨first,second⟩

/-- Unmapping from the middle of a page leaves an area that ends there. -/
theorem vma_tree_unaligned : Lawful spineTrees.ops ∧
    ∃ m, VmaReach fbBoot spineTrees NoAreas (fun _ _ => True) m ∧ ¬TreeOk m.process.areas := by
  refine ⟨spineOps_lawful,?_⟩
  have evaluated : (mapThenUnmap 0x10000800#64).toOption.map
      (fun r => (r.2.process.areas.list,(r.2.process.areas.area 0).stop)) =
      some ([0,1],0x10000800#64) := by decide +kernel
  match result : mapThenUnmap 0x10000800#64 with
  | .error stop => rw [result] at evaluated; cases evaluated
  | .ok (m,next) =>
    rw [result] at evaluated
    simp only [Except.toOption,Option.map_some,Option.some.injEq,Prod.mk.injEq] at evaluated
    obtain ⟨list,stop⟩ := evaluated
    obtain ⟨first,second⟩ := mapThenUnmap_calls result
    refine ⟨next,.step (.step (.init vmaStart_empty) trivial first) trivial second,fun tree => ?_⟩
    have aligned := (tree.area 0 (by simp [list])).stop
    rw [stop] at aligned
    exact absurd aligned (by simp [Aligned])

theorem vma_tree_ok_aligned : ∃ m, VmaReach fbBoot spineTrees NoAreas TreeStep m ∧ m.process.areas.list = [0] ∧
    TreeOk m.process.areas := by
  have evaluated : (mapThenUnmap 0x10000000#64).toOption.map
      (fun r => (r.1.process.areas.list,r.2.process.areas.list)) = some ([0],[0]) := by decide +kernel
  match result : mapThenUnmap 0x10000000#64 with
  | .error stop => rw [result] at evaluated; cases evaluated
  | .ok (m,next) =>
    rw [result] at evaluated
    simp only [Except.toOption,Option.map_some,Option.some.injEq,Prod.mk.injEq] at evaluated
    obtain ⟨first,second⟩ := mapThenUnmap_calls result
    have room : TreeStep vmaStart (.mmap none 8192#64 0#64) := by
      refine .inr (.inr ⟨0x10000000,by decide,by decide,?_⟩)
      intro p member
      cases member
    have aligned : TreeStep m (.munmap 0x10000000#64 4096#64) := by
      intro p _ _ _
      exact ⟨by decide,.inl (by simp [Aligned])⟩
    have reach : VmaReach fbBoot spineTrees NoAreas TreeStep next :=
      .step (.step (.init vmaStart_empty) room first) aligned second
    exact ⟨next,reach,evaluated.2,vma_tree_ok spineOps_lawful reach⟩

end Reddyos
