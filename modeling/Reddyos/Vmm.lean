import Reddyos.PmmRun

/-! Four-level paging of `memory/vmm.c`. Table pointers into the direct map are kept as
the physical addresses they stand for; the translation lookaside buffer is not modelled. -/
namespace Reddyos

open ByteMemory

def pagePresent : U64 := 0x1#64
def pageWritable : U64 := 0x2#64
def pageUser : U64 := 0x4#64
def pageWthru : U64 := 0x8#64
def pageNocache : U64 := 0x10#64
def pageNx : U64 := 0x8000000000000000#64
def pageMask : U64 := 0x000FFFFFFFFFF000#64

/-- Bit 7 of a page-directory entry: the processor maps a large page there. -/
def pageLarge : U64 := 0x80#64

def pml4Index (v : U64) : Nat := ((v >>> 39) &&& 0x1FF#64).toNat
def pdptIndex (v : U64) : Nat := ((v >>> 30) &&& 0x1FF#64).toNat
def pdIndex (v : U64) : Nat := ((v >>> 21) &&& 0x1FF#64).toNat
def ptIndex (v : U64) : Nat := ((v >>> 12) &&& 0x1FF#64).toNat

def entryAddr (table : U64) (index : Nat) : Nat := table.toNat + 8 * index

def entry (m : Mem) (table : U64) (index : Nat) : U64 := load64 m (entryAddr table index)

def Pmm.setEntry (s : Pmm) (table : U64) (index : Nat) (value : U64) : Pmm :=
  { s with mem := store64 s.mem (entryAddr table index) value }

def allocTable (boot : Boot) (s : Pmm) : Except Stop (U64 × Pmm) := do
  let (phys,s) ← pmmAllocPage boot s
  return (phys,{ s with mem := fill s.mem phys.toNat 0#8 4096 })

/-- The entry a fresh table is linked by: no leaf-only flag reaches it. -/
def tableEntry (table flags : U64) : U64 :=
  table ||| pagePresent ||| pageWritable ||| (flags &&& (pageUser ||| pageWthru ||| pageNocache))

def getNext (boot : Boot) (table : U64) (index : Nat) (flags : U64) (s : Pmm) :
    Except Stop (U64 × Pmm) := do
  if entry s.mem table index &&& pagePresent = 0#64 then
    let (newTable,s) ← allocTable boot s
    let s := s.setEntry table index (tableEntry newTable flags)
    return (entry s.mem table index &&& pageMask,s)
  else
    return (entry s.mem table index &&& pageMask,s)

def sanitizeFlags (flags : U64) (level : Nat) : U64 :=
  match level with
  | 0 => flags &&& pagePresent
  | 1 => flags &&& (pagePresent ||| pageUser)
  | 2 => flags &&& (pagePresent ||| pageUser ||| pageWritable)
  | _ => flags

def leafEntry (boot : Boot) (phys flags : U64) : U64 :=
  (phys &&& boot.cpuPageMask) ||| pagePresent ||| flags

def vmmMap (boot : Boot) (pml4 virt phys flags : U64) (s : Pmm) : Except Stop Pmm := do
  if boot.cpuPageMask < phys then
    throw (.panic "Attempting to map physical address beyond CPU limit.")
  let (pdpt,s) ← getNext boot pml4 (pml4Index virt) (sanitizeFlags flags 1) s
  let (pd,s) ← getNext boot pdpt (pdptIndex virt) (sanitizeFlags flags 2) s
  let (pt,s) ← getNext boot pd (pdIndex virt) (sanitizeFlags flags 3) s
  return s.setEntry pt (ptIndex virt) (leafEntry boot phys flags)

/-- The last-level table is found without looking at any present bit. -/
def vmmUnmap (pml4 virt : U64) (s : Pmm) : Pmm :=
  let pdpt := entry s.mem pml4 (pml4Index virt) &&& pageMask
  let pd := entry s.mem pdpt (pdptIndex virt) &&& pageMask
  let pt := entry s.mem pd (pdIndex virt) &&& pageMask
  s.setEntry pt (ptIndex virt) 0#64

/-- Physical address, or the negative number of the level that is missing. -/
def vmmVirtToPhysAs (m : Mem) (pml4 virt : U64) : Int :=
  let pml4e := entry m pml4 (pml4Index virt)
  if pml4e &&& pagePresent = 0#64 then -1 else
  let pdpte := entry m (pml4e &&& pageMask) (pdptIndex virt)
  if pdpte &&& pagePresent = 0#64 then -2 else
  let pde := entry m (pdpte &&& pageMask) (pdIndex virt)
  if pde &&& pagePresent = 0#64 then -3 else
  let pte := entry m (pde &&& pageMask) (ptIndex virt)
  if pte &&& pagePresent = 0#64 then -4 else
  (((pte &&& pageMask) ||| (virt &&& 0xFFF#64)).toNat : Int)

/-- `vmm_lookup` and, up to the direct-map offset of its result, `vmm_lookup_ap`. -/
def vmmLookup (m : Mem) (pml4 virt : U64) : Option U64 :=
  let phys := vmmVirtToPhysAs m pml4 virt
  if phys ≤ 0 then none else some (BitVec.ofInt 64 phys)

def pagingCopyKernelHalf (boot : Boot) (pml4 : U64) (s : Pmm) : Pmm :=
  { s with
    mem := copy s.mem (entryAddr pml4 256) (fun i => s.mem (entryAddr boot.kernelPml4 256 + i)) 2048 }

def pagingCreateAddressSpace (boot : Boot) (s : Pmm) : Except Stop (U64 × Pmm) := do
  let (pml4,s) ← pmmAllocPage boot s
  let s := { s with mem := fill s.mem pml4.toNat 0#8 4096 }
  return (pml4,pagingCopyKernelHalf boot pml4 s)

/-- The loops of `paging_destroy_address_space`: visit the present entries among the
first `count` of a table with `visit`, then free the table itself. -/
def destroyTable (boot : Boot) (visit : U64 → Pmm → Pmm) (count : Nat) (table : U64) (s : Pmm) :
    Pmm :=
  let s := (List.range count).foldl (fun s i =>
    if entry s.mem table i &&& pagePresent = 0#64 then s
    else visit (entry s.mem table i &&& pageMask) s) s
  pmmFreePage boot table s

def pagingDestroyAddressSpace (boot : Boot) (pml4 : U64) (s : Pmm) : Pmm :=
  let destroyPt := destroyTable boot (pmmFreePage boot) 512
  let destroyPd := destroyTable boot destroyPt 512
  let destroyPdpt := destroyTable boot destroyPd 512
  destroyTable boot destroyPdpt 256 pml4 s

/-- What the processor makes of a virtual address, large pages included. -/
def mmuTranslate (m : Mem) (pml4 virt : U64) : Option U64 :=
  let pml4e := entry m pml4 (pml4Index virt)
  if pml4e &&& pagePresent = 0#64 then none else
  let pdpte := entry m (pml4e &&& pageMask) (pdptIndex virt)
  if pdpte &&& pagePresent = 0#64 then none
  else if pdpte &&& pageLarge ≠ 0#64 then
    some ((pdpte &&& 0x000FFFFFC0000000#64) ||| (virt &&& 0x3FFFFFFF#64))
  else
  let pde := entry m (pdpte &&& pageMask) (pdIndex virt)
  if pde &&& pagePresent = 0#64 then none
  else if pde &&& pageLarge ≠ 0#64 then
    some ((pde &&& 0x000FFFFFFFE00000#64) ||| (virt &&& 0x1FFFFF#64))
  else
  let pte := entry m (pde &&& pageMask) (ptIndex virt)
  if pte &&& pagePresent = 0#64 then none
  else some ((pte &&& pageMask) ||| (virt &&& 0xFFF#64))

theorem pml4Index_eq (v : U64) : pml4Index v = v.toNat / 2^39 % 512 := Words.toNat_field v 39 9 (by decide)
theorem pdptIndex_eq (v : U64) : pdptIndex v = v.toNat / 2^30 % 512 := Words.toNat_field v 30 9 (by decide)
theorem pdIndex_eq (v : U64) : pdIndex v = v.toNat / 2^21 % 512 := Words.toNat_field v 21 9 (by decide)
theorem ptIndex_eq (v : U64) : ptIndex v = v.toNat / 2^12 % 512 := Words.toNat_field v 12 9 (by decide)

theorem index_lt (v : U64) : pml4Index v < 512 ∧ pdptIndex v < 512 ∧ pdIndex v < 512 ∧ ptIndex v < 512 := by
  rw [pml4Index_eq,pdptIndex_eq,pdIndex_eq,ptIndex_eq]
  omega

end Reddyos
