import Reddyos.ProcessLaunch

/-! The system from boot on: processes are created and make their calls in any order, and the
kernel takes and releases memory of its own in between. -/
namespace Reddyos

open ByteMemory RadixForest OrderedTree PagedMemory Transitions

structure Launch where
  name : CString
  created : CreatedProcess
  memory : Memory U64 (BitVec 8)

/-- Processes are numbered in the order of their creation. -/
structure System where
  nextPid : U64
  count : Nat
  processes : Processes (Fin count)
  launches : Fin count → Launch

inductive SystemEvent where
  | create (filename : Option CString) (uptime : U64)
  | call (i : Nat) (call : VmaCall)
  | kmalloc (size : U64)
  | kfree (ptr : U64)

def System.setKernel (x : System) (k : Kernel) : System := { x with processes := { x.processes with shared := k } }

def System.machine (x : System) (i : Fin x.count) : Machine := x.processes.machine i

def System.grow (x : System) (name : CString) (new : CreatedProcess) (nextPid : U64) (k : Kernel) : System where
  nextPid := nextPid
  count := x.count + 1
  processes := ⟨k,Fin.snoc x.processes.own ⟨new.process,userLoad ⟨k,new.process⟩⟩⟩
  launches := Fin.snoc x.launches ⟨name,new,userLoad ⟨k,new.process⟩⟩

def System.take (boot : Boot) (ft : Ftrees) (processSize : U64) (fs : CString → Option Vnode) (x : System) :
    SystemEvent → Option System
  | .create filename uptime =>
    match createProcess boot processSize fs x.nextPid uptime filename x.processes.shared with
    | .ok ((some new,nextPid),k) => some (x.grow (filename.getD []) new nextPid k)
    | .ok ((none,nextPid),k) => some { x.setKernel k with nextPid := nextPid }
    | .error _ => none
  | .call i call =>
    if here : i < x.count then
      (x.processes.take (serve boot ft) ⟨i,here⟩ call).map fun g => { x with processes := g }
    else none
  | .kmalloc size =>
    match kmalloc boot size x.processes.shared with
    | .ok (_,k) => some (x.setKernel k)
    | .error _ => none
  | .kfree ptr => some (x.setKernel (kfree ptr x.processes.shared))

/-- A file is refused before anything is allocated or can be loaded, and is. Calls are as in
`CallOk`. -/
def SystemOk (boot : Boot) (ft : Ftrees) (processSize : U64) (fs : CString → Option Vnode) (x : System) :
    SystemEvent → Prop
  | .create filename uptime => Refused fs filename ∨
      (∀ name vnode, filename = some name → fs name = some vnode → Loadable vnode) ∧
        ∀ nextPid k, createProcess boot processSize fs x.nextPid uptime filename x.processes.shared ≠ .ok ((none,nextPid),k)
  | .call i call => ∀ here : i < x.count, CallOk ft x.processes (⟨i,here⟩,call)
  | .kmalloc size => size.toNat ≤ 2^63
  | .kfree _ => True

def SystemStep (boot : Boot) (ft : Ftrees) (processSize : U64) (fs : CString → Option Vnode) (x : System)
    (e : SystemEvent) (y : System) : Prop := x.take boot ft processSize fs e = some y

structure SystemStart (boot : Boot) (x : System) : Prop where
  first : x.nextPid = 1#64
  none : x.count = 0
  kernel : ∃ free, Spaces boot x.processes.shared.pmm free [] ∧
    HeapOk boot x.processes.shared.pmm free x.processes.shared.heap

/-- The process found its file in memory, and its name and auxiliary vector on the stack. -/
structure LaunchOk (fs : CString → Option Vnode) (l : Launch) (vnode : Vnode) (info : ElfInfo) : Prop where
  file : fs l.name = some vnode
  header : elfReadInfo vnode = some info
  entry : l.created.owner.entryPoint = info.entry
  image : ∀ ph ∈ elfSegments vnode, ∀ i < ph.memsz.toNat,
    l.memory (ph.vaddr + BitVec.ofNat 64 i) = some (segmentByte vnode ph i)
  stack : EntryLayout [0#64] l.created.owner l.name info (flat l.memory) l.created.rsp

structure SystemInv (boot : Boot) (fs : CString → Option Vnode) (x : System) : Prop where
  memory : ∃ procs free, Spaces boot x.processes.shared.pmm free procs ∧
    HeapOk boot x.processes.shared.pmm free x.processes.shared.heap ∧ MemoryInv boot procs x.processes free
  launched : ∀ i, ∃ vnode info, LaunchOk fs (x.launches i) vnode info
  numbers : ∀ i : Fin x.count, (x.launches i).created.owner.pid = BitVec.ofNat 64 (i + 1)
  next : x.nextPid = BitVec.ofNat 64 (x.count + 1)

variable {boot : Boot} {ft : Ftrees} {fs : CString → Option Vnode} {procs procs' free rest : List U64} {x y : System}
variable {k : Kernel} {ι : Type} {g : Processes ι}

/-- The kernel changes, and nothing that the processes see. -/
theorem MemoryInv.beside (inv : MemoryInv boot procs g free) (spaces : Spaces boot k.pmm rest procs')
    (heapOk : HeapOk boot k.pmm rest k.heap) (members : ∀ root ∈ procs, root ∈ procs')
    (beside : Beside boot procs procs g.shared.pmm free procs' k.pmm rest) :
    MemoryInv boot procs' { g with shared := k } rest := by
  have leaf : ∀ i v, lowerHalf v → leafOf k.pmm (g.own i).process.pml4 v = leafOf g.shared.pmm (g.own i).process.pml4 v :=
    fun i v lower => beside.leaf (inv.resident i).member lower
  have resident : ∀ i, Machine.Resident boot procs' ⟨k,(g.own i).process⟩ rest := by
    intro i
    have res := inv.resident i
    refine ⟨spaces,heapOk,members _ res.member,res.vma,res.lower,res.inside,?_,?_,?_⟩
    · intro q listed page recorded
      obtain ⟨pt,found⟩ := res.table q listed page recorded
      exact ⟨pt,beside.tables res.member (res.lowerHalf listed (res.inside q listed page recorded)) found⟩
    · intro q listed v inArea resident
      refine res.complete q listed v inArea ?_
      exact leaf i v (res.lowerHalf listed inArea) ▸ resident
    · intro v e lower found
      exact beside.held (res.frames v e lower (leaf i v lower ▸ found))
  refine ⟨resident,inv.apart,?_,?_⟩
  · intro i j v w e e' lower lower' first second same
    exact inv.frames i j v w e e' lower lower' (leaf i v lower ▸ first) (leaf j w lower' ▸ second) same
  · intro i
    rw [← inv.memory i]
    funext v
    by_cases lower : lowerHalf v
    · refine userLoad_congr (inv.resident i) (resident i) lower (leaf i v lower) fun e found => ?_
      exact beside.bytes ((inv.resident i).frames v e lower found) (by omega) (by omega)
    · rw [userLoad_upper lower,userLoad_upper lower]

theorem Arrived.memory {vnode : Vnode} {m : Machine} {n : Nat} {g : Processes (Fin n)}
    (inv : MemoryInv boot procs g free) (arrived : Arrived boot procs vnode g.shared.pmm free m rest) :
    MemoryInv boot (m.process.pml4 :: procs) ⟨m.kernel,Fin.snoc g.own ⟨m.process,userLoad m⟩⟩ rest := by
  have old := inv.beside arrived.resident.spaces arrived.resident.heap (fun root => List.mem_cons_of_mem _) arrived.beside
  have other : ∀ i, (g.own i).process.pml4 ≠ m.process.pml4 := fun i same => arrived.new (same ▸ (inv.resident i).member)
  -- the frames of the new process were free when those of the others were taken
  have fresh : ∀ i v w e e', lowerHalf v → lowerHalf w → leafOf m.kernel.pmm (g.own i).process.pml4 v = some e →
      leafOf m.kernel.pmm m.process.pml4 w = some e' → e &&& pageMask ≠ e' &&& pageMask := by
    intro i v w e e' lower lower' first second same
    have first := (arrived.beside.leaf (inv.resident i).member lower).symm.trans first
    exact ((inv.resident i).frames v e lower first).2.1 (same ▸ arrived.fresh w e' lower' second)
  refine ⟨?_,?_,?_,?_⟩
  · intro i
    refine Fin.lastCases ?_ (fun i => ?_) i
    · simpa [Processes.machine] using arrived.resident
    · simpa [Processes.machine] using old.resident i
  · intro i j
    refine Fin.lastCases ?_ (fun i => ?_) i <;> refine Fin.lastCases ?_ (fun j => ?_) j <;>
      simp only [Fin.snoc_last,Fin.snoc_castSucc] <;> intro same
    · trivial
    · exact absurd same.symm (other j)
    · exact absurd same (other i)
    · exact congrArg Fin.castSucc (inv.apart i j same)
  · intro i j v w e e' lower lower'
    refine Fin.lastCases ?_ (fun i => ?_) i <;> refine Fin.lastCases ?_ (fun j => ?_) j <;>
      simp only [Fin.snoc_last,Fin.snoc_castSucc] <;> intro first second same
    · exact ⟨trivial,arrived.alone v w e e' lower lower' first second same⟩
    · exact absurd same.symm (fresh j w v e' e lower' lower second first)
    · exact absurd same (fresh i v w e e' lower lower' first second)
    · obtain ⟨rfl,page⟩ := old.frames i j v w e e' lower lower' first second same
      exact ⟨rfl,page⟩
  · intro i
    refine Fin.lastCases ?_ (fun i => ?_) i
    · simp [Processes.machine]
    · simpa [Processes.machine] using old.memory i

/-- The new process with what was stored for it. -/
theorem Arrived.stored {vnode : Vnode} {m : Machine} {g : Processes (Fin count)} (ok : BootOk boot)
    (inv : MemoryInv boot procs g free) (arrived : Arrived boot procs vnode g.shared.pmm free m rest) {bytes : Mem}
    {a n : Nat} (final : k = (storeBytes bytes a n m).kernel) :
    userLoad ⟨k,m.process⟩ = replay (userLoad m) (storeEvents bytes a n) ∧
      MemoryInv boot (m.process.pml4 :: procs) ⟨k,Fin.snoc g.own ⟨m.process,userLoad ⟨k,m.process⟩⟩⟩ rest := by
  have stored := (arrived.memory inv).storeBytes ok (Fin.last count) bytes a n
  simp only [Processes.machine,Processes.put,Fin.snoc_last,Fin.update_snoc_last,storeBytes_process,← final] at stored
  have reads := stored.memory (Fin.last count)
  simp only [Processes.machine,Fin.snoc_last] at reads
  exact ⟨reads,by rwa [← reads] at stored⟩

/-- What the stores leave is what `setup_process_stack` made of the memory it saw. -/
theorem flat_stored {m : Machine} {mem : Mem} {p : StackOwner} (bottom : p.userStackBottom = userStackBottom)
    (top : p.rsp = userStackTop) (stack : ∀ v, OnStackPages v → (userLoad m v).isSome)
    (returns : setupProcessStack p name info uptime (flat (userLoad m)) = .ok (rsp,mem)) :
    flat (replay (userLoad m) (storeEvents mem userStackBottom.toNat stackBytes)) = mem := by
  obtain ⟨start,page,_,size,stop⟩ := stack_values
  have only := setupProcessStack_only returns
  unfold OnlyStack at only
  rw [bottom,top] at only
  funext a
  by_cases small : a < 2^64
  · have address : (BitVec.ofNat 64 a).toNat = a := by
      rw [BitVec.toNat_ofNat]
      omega
    unfold flat
    rw [if_pos small,replay_storeEvents (by omega),address]
    split
    · rename_i inside
      obtain ⟨b,found⟩ := Option.isSome_iff_exists.mp (stack (BitVec.ofNat 64 a) (by unfold OnStackPages; omega))
      rw [found]
      rfl
    · have same := only a (by omega)
      unfold flat at same
      rw [same,if_pos small]
  · rw [only a (by omega)]
    unfold flat
    rw [if_neg small,if_neg small]

/-- A byte of a segment is not one of the stack. -/
theorem Loadable.off_stack {vnode : Vnode} (loadable : Loadable vnode) (listed : ph ∈ elfSegments vnode)
    (inside : i < ph.memsz.toNat) : ¬OnStackPages (ph.vaddr + BitVec.ofNat 64 i) := by
  have below := loadable.lower ph listed
  have address : (ph.vaddr + BitVec.ofNat 64 i).toNat = ph.vaddr.toNat + i := by
    rw [toNat_chunkAddr] <;> rw [BitVec.toNat_ofNat,Nat.mod_eq_of_lt (by omega)]
    omega
  obtain ⟨start,page,pages,size,_⟩ := stack_values
  rintro ⟨low,high⟩
  rw [address] at low high
  refine loadable.stack ph listed ((ph.vaddr.toNat + i) / 4096) (by omega) (by omega) ?_
  unfold firstPage endPage
  omega

theorem SystemInv.grow {new : CreatedProcess} (ok : BootOk boot) (cpu : CpuOk boot) (small : processSize.toNat ≤ 2^63)
    (inv : SystemInv boot fs x)
    (loadable : ∀ name vnode, filename = some name → fs name = some vnode → Loadable vnode)
    (returns : createProcess boot processSize fs x.nextPid uptime filename x.processes.shared =
      .ok ((some new,nextPid),k)) : SystemInv boot fs (x.grow (filename.getD []) new nextPid k) := by
  obtain ⟨⟨procs,free,spaces,heapOk,memory⟩,launched,numbers,next⟩ := inv
  obtain ⟨name,vnode,info,block,pml4,l,rsp,mem,rfl,file,valid,loaded,stacked,rfl,rfl,final⟩ := createProcess_cases returns
  have able := loadable name vnode rfl file
  obtain ⟨rest,arrived⟩ := loaded.arrived ok cpu spaces heapOk small able
  obtain ⟨reads,stored⟩ := arrived.stored ok memory final
  refine ⟨⟨_,rest,(stored.resident (Fin.last x.count)).spaces,(stored.resident (Fin.last x.count)).heap,stored⟩,?_,?_,?_⟩
  · intro i
    refine Fin.lastCases ?_ (fun i => ?_) i
    · refine ⟨vnode,info,?_⟩
      simp only [System.grow,Fin.snoc_last,Option.getD_some]
      refine ⟨file,valid,rfl,fun ph listed j inside => ?_,?_⟩
      · have off := able.off_stack listed inside
        unfold OnStackPages at off
        dsimp only
        rw [reads,replay_storeEvents (by decide),if_neg off]
        exact arrived.image ph listed j inside
      · dsimp only
        rw [reads,flat_stored rfl rfl arrived.stack stacked]
        exact setupProcessStack_layout stacked
    · simpa [System.grow] using launched i
  · intro i
    refine Fin.lastCases ?_ (fun i => ?_) i
    · simpa [System.grow] using next
    · simpa [System.grow] using numbers i
  · change x.nextPid + 1#64 = _
    rw [next]
    exact (BitVec.ofNat_add (x.count + 1) 1).symm

theorem SystemInv.kernel (ok : BootOk boot) (inv : SystemInv boot fs x)
    (changes : ∀ procs free, Spaces boot x.processes.shared.pmm free procs →
      HeapOk boot x.processes.shared.pmm free x.processes.shared.heap → ∃ rest,
      Evolves boot procs (heapSlots boot x.processes.shared.heap.cursor) x.processes.shared.pmm free k.pmm rest ∧
        HeapOk boot k.pmm rest k.heap) : SystemInv boot fs (x.setKernel k) := by
  obtain ⟨⟨procs,free,spaces,heapOk,memory⟩,launched,numbers,next⟩ := inv
  obtain ⟨rest,evolves,heapOk'⟩ := changes procs free spaces heapOk
  have beside := evolves.beside ok spaces (fun _ => id) fun _ listed _ _ => not_heapSlots spaces listed
  exact ⟨⟨procs,rest,evolves.spaces,heapOk',memory.beside evolves.spaces heapOk' (fun _ => id) beside⟩,launched,numbers,
    next⟩

theorem createProcess_refused {result : Option CreatedProcess} (refused : Refused fs filename)
    (returns : createProcess boot processSize fs nextPid uptime filename k = .ok ((result,nextPid'),after)) :
    result = none ∧ nextPid' = nextPid ∧ after = k := by
  unfold createProcess at returns
  rw [openElf_refused refused] at returns
  obtain ⟨result,rfl⟩ := ok_pair returns
  obtain ⟨rfl,rfl⟩ := Prod.mk.inj result
  exact ⟨rfl,rfl,rfl⟩

theorem SystemInv.step (ok : BootOk boot) (cpu : CpuOk boot) (lawful : Lawful ft.ops)
    (small : ft.nodeBytes.toNat ≤ 2^62) (size : processSize.toNat ≤ 2^63) (inv : SystemInv boot fs x)
    (allowed : SystemOk boot ft processSize fs x e) (moves : SystemStep boot ft processSize fs x e y) :
    SystemInv boot fs y := by
  unfold SystemStep System.take at moves
  cases e with
  | create filename uptime =>
    dsimp only at moves
    split at moves
    · rename_i new nextPid k returns
      obtain rfl := Option.some.inj moves
      rcases allowed with refused | ⟨loadable,_⟩
      · cases (createProcess_refused refused returns).1
      · exact inv.grow ok cpu size loadable returns
    · rename_i nextPid k returns
      obtain rfl := Option.some.inj moves
      rcases allowed with refused | ⟨_,never⟩
      · obtain ⟨_,rfl,rfl⟩ := createProcess_refused refused returns
        exact inv
      · exact absurd returns (never _ _)
    · cases moves
  | call i call =>
    dsimp only at moves
    split at moves
    · rename_i here
      obtain ⟨g,taken,rfl⟩ := Option.map_eq_some_iff.mp moves
      obtain ⟨⟨procs,free,_,_,memory⟩,launched,numbers,next⟩ := inv
      obtain ⟨rest,memory⟩ := memory.step ok cpu lawful small (allowed here) taken
      have res := memory.resident ⟨i,here⟩
      exact ⟨⟨procs,rest,res.spaces,res.heap,memory⟩,launched,numbers,next⟩
    · cases moves
  | kmalloc bytes =>
    dsimp only at moves
    split at moves
    · rename_i ptr k returns
      obtain rfl := Option.some.inj moves
      refine inv.kernel ok fun procs free spaces heapOk => ?_
      obtain ⟨rest,evolves,heapOk',_⟩ := kmalloc_spec ok spaces heapOk allowed returns
      exact ⟨rest,evolves,heapOk'⟩
    · cases moves
  | kfree ptr =>
    obtain rfl := Option.some.inj moves
    refine inv.kernel ok fun procs free spaces heapOk => ?_
    obtain ⟨same,heapOk'⟩ := kfree_spec ptr heapOk
    rw [same]
    exact ⟨free,.refl _ spaces,heapOk'⟩

theorem SystemStart.inv (begins : SystemStart boot x) : SystemInv boot fs x := by
  obtain ⟨first,none,free,spaces,heapOk⟩ := begins
  have nobody : ∀ i : Fin x.count, False := fun i => by have := i.isLt; omega
  refine ⟨⟨[],free,spaces,heapOk,?_⟩,fun i => (nobody i).elim,fun i => (nobody i).elim,by rw [first,none]⟩
  exact ⟨fun i => (nobody i).elim,fun i => (nobody i).elim,fun i => (nobody i).elim,fun i => (nobody i).elim⟩

theorem system_run (ok : BootOk boot) (cpu : CpuOk boot) (lawful : Lawful ft.ops)
    (small : ft.nodeBytes.toNat ≤ 2^62) (size : processSize.toNat ≤ 2^63)
    (run : Run (SystemStart boot) (SystemStep boot ft processSize fs) (SystemOk boot ft processSize fs) events x) :
    SystemInv boot fs x :=
  run.invariant (fun _ x => SystemInv boot fs x) (fun _ begins => begins.inv)
    fun _ _ _ _ inv allowed moves => inv.step ok cpu lawful small size allowed moves

/-- Over any run from boot, every process found its file and its arguments, and has since seen
its memory change by its own calls only. -/
theorem system_memory (ok : BootOk boot) (cpu : CpuOk boot) (lawful : Lawful ft.ops)
    (small : ft.nodeBytes.toNat ≤ 2^62) (size : processSize.toNat ≤ 2^63)
    (run : Run (SystemStart boot) (SystemStep boot ft processSize fs) (SystemOk boot ft processSize fs) events x)
    (i : Fin x.count) :
    (∃ vnode info, LaunchOk fs (x.launches i) vnode info) ∧
      (x.launches i).created.owner.pid = BitVec.ofNat 64 (i + 1) ∧
      userLoad (x.machine i) = (x.processes.own i).memory := by
  have inv := system_run ok cpu lawful small size run
  obtain ⟨_,_,_,_,memory⟩ := inv.memory
  exact ⟨inv.launched i,inv.numbers i,memory.memory i⟩

def System.translate (x : System) (i : Fin x.count) (v : U64) : Option U64 :=
  mmuTranslate x.processes.shared.pmm.mem (x.machine i).process.pml4 v

/-- Behind every page of every process the processor finds a frame of its own, which is neither
free nor a page table. -/
theorem system_frames (ok : BootOk boot) (cpu : CpuOk boot) (lawful : Lawful ft.ops)
    (small : ft.nodeBytes.toNat ≤ 2^62) (size : processSize.toNat ≤ 2^63)
    (run : Run (SystemStart boot) (SystemStep boot ft processSize fs) (SystemOk boot ft processSize fs) events x) :
    (∀ i j v w a b, lowerHalf v → lowerHalf w → x.translate i v = some a → x.translate j w = some b →
      a.toNat / 4096 = b.toNat / 4096 → i = j ∧ v.toNat / 4096 = w.toNat / 4096) ∧
    ∃ procs free, FreeList boot x.processes.shared.pmm free ∧ (∀ i, (x.machine i).process.pml4 ∈ procs) ∧
      ∀ i v a, lowerHalf v → x.translate i v = some a → Held boot procs x.processes.shared.pmm free (a &&& pageMask) := by
  obtain ⟨procs,free,spaces,_,memory⟩ := (system_run ok cpu lawful small size run).memory
  have frame : ∀ i v a, lowerHalf v → x.translate i v = some a →
      ∃ e, leafOf x.processes.shared.pmm (x.processes.own i).process.pml4 v = some e ∧
        a &&& pageMask = e &&& pageMask ∧ a.toNat / 4096 * 4096 = (e &&& pageMask).toNat := by
    intro i v a lower walks
    have res := memory.resident i
    have leaf := (spaces.translate res.member (res.adm lower)).symm.trans walks
    obtain ⟨e,found,rfl⟩ := Option.map_eq_some_iff.mp leaf
    obtain ⟨aligned,bound⟩ := and_pageMask_ok e
    have address := toNat_physical v e
    unfold Aligned at aligned
    refine ⟨e,found,BitVec.eq_of_toNat_eq ?_,by omega⟩
    rw [toNat_and_pageMask,address]
    omega
  constructor
  · intro i j v w a b lower lower' first second same
    obtain ⟨e,leaf,_,address⟩ := frame i v a lower first
    obtain ⟨e',leaf',_,address'⟩ := frame j w b lower' second
    refine memory.frames i j v w e e' lower lower' leaf leaf' (BitVec.eq_of_toNat_eq ?_)
    rw [← address,← address',same]
  · refine ⟨procs,free,spaces.pmm.list,fun i => (memory.resident i).member,fun i v a lower walks => ?_⟩
    obtain ⟨e,leaf,same,_⟩ := frame i v a lower walks
    rw [same]
    exact (memory.resident i).frames v e lower leaf

def systemBoot : System := ⟨1#64,0,⟨processStart,fun i => i.elim0⟩,fun i => i.elim0⟩

def alignedFs : CString → Option Vnode := fun _ => some alignedFile

theorem systemBoot_start : SystemStart processBoot systemBoot := by
  obtain ⟨free,spaces,heapOk,_⟩ := processStart_ok
  exact ⟨rfl,rfl,free,spaces,heapOk⟩

theorem alignedFile_loadable : Loadable alignedFile := by
  constructor <;> rw [alignedFile_segments]
  · simp
  · simp [ElfPhdr.whole,WholeChunks]
  · simp
  · intro ph listed n low _
    rw [List.mem_singleton] at listed
    subst listed
    obtain ⟨_,page,_⟩ := stack_values
    have last : endPage ⟨1#32,6#32,0x1000#64,0x400000#64,0x10#64,0x20#64⟩ = 0x401 := by decide
    omega

theorem systemStep_create {new : CreatedProcess} (ft : Ftrees)
    (returns : createProcess boot processSize fs x.nextPid uptime (some name) x.processes.shared =
      .ok ((some new,nextPid),k)) :
    SystemStep boot ft processSize fs x (.create (some name) uptime) (x.grow name new nextPid k) := by
  unfold SystemStep System.take
  dsimp only
  rw [returns]
  rfl

theorem systemStep_store (boot : Boot) (processSize : U64) (fs : CString → Option Vnode) (here : i < x.count) (v : U64) (b : BitVec 8) :
    ∃ g, SystemStep boot ft processSize fs x (.call i (.store v b)) { x with processes := g } := by
  unfold SystemStep System.take
  dsimp only
  rw [dif_pos here]
  exact ⟨_,rfl⟩

/-- The first process is created and stores a byte on its stack. -/
theorem systemBoot_run : ∃ x : System, x.count = 1 ∧
    Run (SystemStart processBoot) (SystemStep processBoot spineTrees 1024#64 alignedFs)
      (SystemOk processBoot spineTrees 1024#64 alignedFs)
      [.create (some (textBytes "/bin/init")) 5#64,.call 0 (.store 0xEFFFFFF0#64 7#8)] x := by
  have evaluated : ((createProcess processBoot 1024#64 alignedFs 1#64 5#64 (some (textBytes "/bin/init"))
      processStart).toOption.map fun r => r.1.1.isSome) = some true := by decide +kernel
  obtain ⟨⟨⟨result,nextPid⟩,k⟩,computed,isSome⟩ := Option.map_eq_some_iff.mp evaluated
  obtain ⟨new,rfl⟩ := Option.isSome_iff_exists.mp isSome
  have returns : createProcess processBoot 1024#64 alignedFs 1#64 5#64 (some (textBytes "/bin/init")) processStart =
      .ok ((some new,nextPid),k) := by
    cases result : createProcess processBoot 1024#64 alignedFs 1#64 5#64 (some (textBytes "/bin/init")) processStart with
    | error stop => rw [result] at computed; cases computed
    | ok r => rw [result] at computed; exact congrArg _ (Option.some.inj computed)
  let x := systemBoot.grow (textBytes "/bin/init") new nextPid k
  have one : 0 < x.count := Nat.one_pos
  obtain ⟨g,stores⟩ := systemStep_store processBoot 1024#64 alignedFs one 0xEFFFFFF0#64 7#8
  have allowed : SystemOk processBoot spineTrees 1024#64 alignedFs systemBoot
      (.create (some (textBytes "/bin/init")) 5#64) := by
    refine .inr ⟨fun name vnode _ file => Option.some.inj file ▸ alignedFile_loadable,fun nextPid' k' other => ?_⟩
    cases returns.symm.trans other
  exact ⟨{ x with processes := g },rfl,
    .step (.step (.start systemBoot_start) allowed (systemStep_create spineTrees returns)) (fun _ => trivial) stores⟩

/-- The process finds its file, and reads the byte. -/
theorem system_memory_first : ∃ (x : System) (i : Fin x.count) (vnode : Vnode) (info : ElfInfo),
    LaunchOk alignedFs (x.launches i) vnode info ∧ userLoad (x.machine i) = (x.processes.own i).memory := by
  obtain ⟨x,one,run⟩ := systemBoot_run
  obtain ⟨⟨vnode,info,launched⟩,_,memory⟩ := system_memory processBoot_ok processBoot_cpu spineOps_lawful (by decide)
    (by decide) run ⟨0,by omega⟩
  exact ⟨x,⟨0,by omega⟩,vnode,info,launched,memory⟩

theorem system_frames_first : ∃ x : System, x.count = 1 ∧ ∀ i j v w a b, lowerHalf v → lowerHalf w →
    x.translate i v = some a → x.translate j w = some b → a.toNat / 4096 = b.toNat / 4096 →
      i = j ∧ v.toNat / 4096 = w.toNat / 4096 := by
  obtain ⟨x,one,run⟩ := systemBoot_run
  exact ⟨x,one,(system_frames processBoot_ok processBoot_cpu spineOps_lawful (by decide) (by decide) run).1⟩

end Reddyos
