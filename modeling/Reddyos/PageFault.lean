import Reddyos.Vma

/-! The current process at work: `do_sys_mmap`, `do_sys_munmap` and `page_fault_handler`
with what they do to its page tables. -/
namespace Reddyos

open ByteMemory OrderedTree

structure Process where
  pml4 : U64
  userStackBottom : U64
  userStackBottomMax : U64
  areas : Areas

structure Machine where
  kernel : Kernel
  process : Process

def Machine.setAreas (m : Machine) (a : Areas) : Machine :=
  { m with process := { m.process with areas := a } }

def Machine.setPmm (m : Machine) (s : Pmm) : Machine :=
  { m with kernel := { m.kernel with pmm := s } }

def allocRecord (boot : Boot) (bytes : U64) (m : Machine) : Except Stop (U64 × Machine) := do
  let (block,kernel) ← kmalloc boot bytes m.kernel
  if block = 0#64 then throw .undefined
  return (block,{ m with kernel := kernel })

def vmaPhysPageBytes : U64 := 24#64

def vmAreaBytes (ft : Ftrees) : U64 := ft.nodeBytes + 56#64

def vmaAddPage (boot : Boot) (p : Nat) (start phys : U64) (m : Machine) : Except Stop Machine := do
  let (block,m) ← allocRecord boot vmaPhysPageBytes m
  let a := m.process.areas
  let vma := a.area p
  return m.setAreas (a.set p { vma with physPages := vma.physPages ++ [⟨start,phys,block⟩] })

/-- The loop of `vma_cleanup` from some record on. A record outside the area is unlinked
through `prev`, which the first record does not have yet (it was never initialised); after
that `page` still points to the same record, so the loop never ends. -/
def cleanupLoop (vma : Area) : Bool → List VmaPhysPage → Except Stop Unit
  | _, [] => return ()
  | prev, page :: rest =>
    if page.start < vma.start ∨ vma.stop ≤ page.start then
      throw (if prev then .looping else .undefined)
    else cleanupLoop vma true rest

def vmaCleanup (vma : Area) : Except Stop Unit := cleanupLoop vma false vma.physPages

def vmaDestroy (pml4 : U64) (pages : List VmaPhysPage) (k : Kernel) : Kernel :=
  pages.foldl (fun k page => kfree page.block { k with pmm := vmmUnmap pml4 page.start k.pmm }) k

/-- `file` is what `process_unpack_fd` makes of the descriptor. `mmap_region` reads its `ops->vma_fault`
behind the allocation of the record, also when `ops` is NULL. -/
def doSysMmap (boot : Boot) (ft : Ftrees) (file : Option VmaFile) (length offset : U64) (m : Machine) :
    Except Stop (Except Errno U64 × Machine) := do
  let len := alignUp length
  if len = 0#64 then return (.error .einval,m)
  let addr := vmaFindFreeRegion ft m.process.areas length
  if addr = 0#64 then return (.error .enomem,m)
  let (block,m) ← allocRecord boot (vmAreaBytes ft) m
  if file.any fun f => !f.ops then throw .undefined
  match mmapRegion ft file addr len 0#64 offset block m.process.areas with
  | (.ok start,areas) => return (.ok start,m.setAreas areas)
  | (.error e,_) => return (.error e,{ m with kernel := kfree block m.kernel })

def tailRecord (boot : Boot) (ft : Ftrees) (addr len : U64) (m : Machine) : Except Stop (U64 × Machine) :=
  if munmapSplits ft addr len m.process.areas then allocRecord boot (vmAreaBytes ft) m
  else return (0#64,m)

def munmapRegion (boot : Boot) (ft : Ftrees) (addr len : U64) (m : Machine) :
    Except Stop (Except Errno U64 × Machine) := do
  let (block,m) ← tailRecord boot ft addr len m
  match munmapAreas ft addr len block m.process.areas with
  | none => return (.error .einval,m)
  | some (p,true,a) =>
    let vma := a.area p
    let kernel := kfree vma.block (vmaDestroy m.process.pml4 vma.physPages m.kernel)
    return (.ok 0#64,{ m.setAreas a with kernel := kernel })
  | some (p,false,a) =>
    vmaCleanup (a.area p)
    return (.ok 0#64,m.setAreas a)

def doSysMunmap (boot : Boot) (ft : Ftrees) (addr length : U64) (m : Machine) :
    Except Stop (Except Errno U64 × Machine) :=
  let len := alignUp length
  if len = 0#64 then return (.error .einval,m)
  else munmapRegion boot ft addr len m

def growUserStack (boot : Boot) (m : Machine) : Except Stop (Bool × Machine) := do
  let p := m.process
  if p.userStackBottom - 4096#64 < p.userStackBottomMax then return (false,m)
  let (phys,s) ← pmmAllocPage boot m.kernel.pmm
  let s ← vmmMap boot p.pml4 (p.userStackBottom - 4096#64) phys
    (pageUser ||| pageWritable ||| pagePresent) s
  return (true,⟨{ m.kernel with pmm := s },{ p with userStackBottom := p.userStackBottom - 4096#64 }⟩)

def vmaFaultHandler (boot : Boot) (p : Nat) (addr : U64) (m : Machine) : Except Stop (Bool × Machine) := do
  let vma := m.process.areas.area p
  match vma.type with
  | .anon =>
    let (phys,s) ← pmmAllocPage boot m.kernel.pmm
    if phys = 0#64 then return (false,m.setPmm s)
    let virt := alignDown addr
    let s ← vmmMap boot m.process.pml4 virt phys (pagePresent ||| pageUser ||| pageWritable) s
    let m ← vmaAddPage boot p virt phys (m.setPmm s)
    return (true,m.setPmm { m.kernel.pmm with mem := fill m.kernel.pmm.mem phys.toNat 0#8 4096 })
  | .file =>
    match vma.file with
    | some ⟨_,true,fb⟩ =>
      let (handled,s) ← fbVmaFault boot fb m.process.pml4 vma.start vma.pgoff (alignDown addr) m.kernel.pmm
      return (handled,m.setPmm s)
    | _ => throw .undefined

def stackFault (boot : Boot) (addr : U64) (m : Machine) : Except Stop (Bool × Machine) :=
  if m.process.userStackBottomMax ≤ addr + 4096#64 ∧ addr < m.process.userStackBottom then
    growUserStack boot m
  else return (false,m)

/-- `page_fault_handler` for a fault of the current process at `addr`. -/
def pageFaultHandler (boot : Boot) (ft : Ftrees) (addr : U64) (m : Machine) :
    Except Stop (Bool × Machine) := do
  let (grown,m) ← stackFault boot addr m
  if grown then return (true,m)
  match vmaFind ft m.process.areas addr with
  | some vma => vmaFaultHandler boot vma addr m
  | none => return (false,m)

def userStore (addr : U64) (byte : BitVec 8) (m : Machine) : Machine :=
  match mmuTranslate m.kernel.pmm.mem m.process.pml4 addr with
  | some phys =>
    if lowerHalf addr then
      m.setPmm { m.kernel.pmm with mem := fill m.kernel.pmm.mem phys.toNat byte 1 }
    else m
  | none => m

end Reddyos
