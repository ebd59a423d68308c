import Reddyos.Words
import Reddyos.ByteMemory
import Reddyos.LinkedChain

/-! The physical page allocator of `memory/pmm.c`: a free list threaded through the
free pages themselves and a cursor that takes further pages from the Limine memory
map when the list runs dry. Physical memory is the direct map, addressed by the
physical address. -/
namespace Reddyos

open ByteMemory

abbrev U64 := BitVec 64

/-- Ways a kernel call may end other than by returning. -/
inductive Stop where
  | panic (message : String)
  | undefined
  | looping
  deriving DecidableEq, Repr

def alignUp (x : U64) : U64 := (x + 0xFFF#64) &&& ~~~0xFFF#64
def alignDown (x : U64) : U64 := x &&& ~~~0xFFF#64

/-- `struct limine_memmap_entry`. -/
structure MemmapEntry where
  base : U64
  length : U64
  type : U64
  deriving DecidableEq, Repr

def limineMemmapUsable : U64 := 0#64

/-- What the boot loader and the processor hand over: the memory map, the offset of
the direct map, the physical address mask and the top-level kernel page table. -/
structure Boot where
  memmap : List MemmapEntry
  hhdm : U64
  cpuPageMask : U64
  kernelPml4 : U64

def Boot.virt (boot : Boot) (phys : U64) : U64 := phys + boot.hhdm
def Boot.memphys (boot : Boot) (virt : U64) : U64 := virt - boot.hhdm

/-- Physical memory and the three globals of the allocator. -/
structure Pmm where
  mem : Mem
  freelistHead : U64
  fillEntry : Nat
  fillOffset : U64

/-- `node->next = freelist_pmm_head; freelist_pmm_head = node`. -/
def pushNode (boot : Boot) (page : U64) (s : Pmm) : Pmm :=
  { s with
    mem := store64 s.mem page.toNat s.freelistHead
    freelistHead := boot.virt page }

def pmmFreePage (boot : Boot) (page : U64) (s : Pmm) : Pmm := pushNode boot page s

/-- One page of the entry at the cursor. -/
def takePage (boot : Boot) (e : MemmapEntry) (s : Pmm) : Pmm :=
  { pushNode boot (e.base + s.fillOffset) s with fillOffset := s.fillOffset + 4096#64 }

def fillPages (boot : Boot) (e : MemmapEntry) (alignedEnd : U64) : Nat → Pmm → Nat × Pmm
  | 0, s => (0,s)
  | pages + 1, s =>
    if e.base + s.fillOffset + 4096#64 ≤ alignedEnd then
      fillPages boot e alignedEnd pages (takePage boot e s)
    else (pages + 1,s)

def Pmm.nextEntry (s : Pmm) : Pmm := { s with fillEntry := s.fillEntry + 1, fillOffset := 0#64 }

def alignedStart (e : MemmapEntry) : U64 :=
  if alignUp e.base < 0x100000#64 then 0x100000#64 else alignUp e.base

def alignedEnd (e : MemmapEntry) : U64 := alignDown (e.base + e.length)

def startEntry (e : MemmapEntry) (s : Pmm) : Pmm :=
  if s.fillOffset = 0#64 then { s with fillOffset := alignedStart e - e.base } else s

/-- Outer loop of `pmm_fill` over the entries from the cursor on. -/
def fillEntries (boot : Boot) : List MemmapEntry → Nat → Pmm → Pmm
  | [], _, s => s
  | e :: rest, pages, s =>
    if pages = 0 then s
    else if e.type ≠ limineMemmapUsable then fillEntries boot rest pages s.nextEntry
    else if alignedEnd e ≤ alignedStart e then fillEntries boot rest pages s.nextEntry
    else
      let filled := fillPages boot e (alignedEnd e) pages (startEntry e s)
      if alignedEnd e < e.base + filled.2.fillOffset + 4096#64 then
        fillEntries boot rest filled.1 filled.2.nextEntry
      -- the inner loop stopped inside the entry, so no page is left to add
      else filled.2

def pmmFill (boot : Boot) (pages : Nat) (s : Pmm) : Pmm :=
  fillEntries boot (boot.memmap.drop s.fillEntry) pages s

def pmmInit (boot : Boot) (s : Pmm) : Pmm := pmmFill boot 512 s

def popPage (boot : Boot) (s : Pmm) : Except Stop (U64 × Pmm) :=
  if s.freelistHead = 0#64 then .error (.panic "PMM: out of memory")
  else
    let phys := boot.memphys s.freelistHead
    .ok (phys,
      { s with
        freelistHead := load64 s.mem phys.toNat
        mem := fill s.mem phys.toNat 0#8 4096 })

def pmmAllocPage (boot : Boot) (s : Pmm) : Except Stop (U64 × Pmm) :=
  popPage boot (if s.freelistHead = 0#64 then pmmFill boot 512 s else s)

theorem returns_of_fst {call : Except Stop (α × β)}
    (evaluated : call.toOption.map Prod.fst = some a) : ∃ b, call = .ok (a,b) := by
  match call with
  | .error stop => simp [Except.toOption] at evaluated
  | .ok (a',b) =>
    simp only [Except.toOption,Option.map_some,Option.some.injEq] at evaluated
    exact ⟨b,by rw [evaluated]⟩

/-- A sequence that returns has returned from its first step. -/
theorem ok_of_bind {first : Except ε α} {rest : α → Except ε β} (returns : first >>= rest = .ok b) :
    ∃ a, first = .ok a ∧ rest a = .ok b := by
  cases first with
  | error e => cases returns
  | ok a => exact ⟨a,rfl,returns⟩

theorem ok_of_evaluated {call : Except ε α} (evaluated : call.toOption.map f = some b) :
    ∃ a, call = .ok a ∧ f a = b := by
  cases call with
  | error e => cases evaluated
  | ok a => exact ⟨a,rfl,Option.some.inj evaluated⟩

theorem ok_pair {a c : α} {b d : β} (same : (.ok (a,b) : Except ε (α × β)) = .ok (c,d)) : a = c ∧ b = d :=
  Prod.mk.inj (Except.ok.inj same)

theorem ok_triple {a a' : α} {b b' : β} {c c' : γ} (same : (.ok (a,b,c) : Except ε (α × β × γ)) = .ok (a',b',c')) :
    a = a' ∧ b = b' ∧ c = c' :=
  (ok_pair same).imp_right Prod.mk.inj

theorem toNat_alignDown (x : U64) : (alignDown x).toNat = x.toNat / 4096 * 4096 :=
  Words.toNat_and_not_low x 12

theorem toNat_alignUp (x : U64) (fits : x.toNat + 4095 < 2^64) :
    (alignUp x).toNat = (x.toNat + 4095) / 4096 * 4096 := by
  have sum : (x + 0xFFF#64).toNat = x.toNat + 4095 := by
    rw [BitVec.toNat_add]
    exact Nat.mod_eq_of_lt fits
  have h := Words.toNat_and_not_low (x + 0xFFF#64) 12
  rw [sum] at h
  exact h

@[simp] theorem memphys_virt (boot : Boot) (p : U64) : boot.memphys (boot.virt p) = p :=
  BitVec.add_sub_cancel p boot.hhdm

@[simp] theorem virt_memphys (boot : Boot) (v : U64) : boot.virt (boot.memphys v) = v :=
  BitVec.sub_add_cancel v boot.hhdm

theorem virt_injective (boot : Boot) : Function.Injective boot.virt := by
  intro p q same
  rw [← memphys_virt boot p,same,memphys_virt]

end Reddyos
