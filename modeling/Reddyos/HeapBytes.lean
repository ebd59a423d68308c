import Reddyos.HeapWindow

/-! `memory/heap.c` on bytes. A block's header lies in front of its data, in pages of the
kernel, and is read and written through the kernel's page tables. -/
namespace Reddyos

open ByteMemory RadixForest LinkedChain

def blockMagic : U64 := 0x52454444594F5348#64

/-- Where the kernel's access to `v` goes; it does not survive an unmapped page. -/
def kernelAddr (boot : Boot) (m : Mem) (v : U64) : Except Stop Nat :=
  match mmuTranslate m boot.kernelPml4 v with
  | some phys => .ok phys.toNat
  | none => .error .undefined

def kernelLoad64 (boot : Boot) (m : Mem) (v : U64) : Except Stop U64 :=
  (kernelAddr boot m v).map (load64 m)

def kernelLoad32 (boot : Boot) (m : Mem) (v : U64) : Except Stop (BitVec 32) :=
  (kernelAddr boot m v).map (load32 m)

def kernelStore64 (boot : Boot) (v w : U64) (m : Mem) : Except Stop Mem :=
  (kernelAddr boot m v).map (store64 m · w)

def kernelStore32 (boot : Boot) (v : U64) (w : BitVec 32) (m : Mem) : Except Stop Mem :=
  (kernelAddr boot m v).map (store32 m · w)

def magicAt (block : U64) : U64 := block
def sizeAt (block : U64) : U64 := block + 8#64
def freeAt (block : U64) : U64 := block + 16#64
def nextAt (block : U64) : U64 := block + 24#64

structure HeapBytes where
  pmm : Pmm
  head : U64
  cursor : U64

def blockIsValid (boot : Boot) (m : Mem) (block : U64) : Except Stop Bool :=
  if block = 0#64 then return false
  else if block &&& (4096#64 - 1#64) ≠ 0#64 then return false
  else return (← kernelLoad64 boot m (magicAt block)) == blockMagic

def searchBlocks (boot : Boot) (size : U64) (m : Mem) : Nat → U64 → Except Stop (Option U64)
  | 0, _ => throw .looping
  | fuel + 1, cur => do
    if cur = 0#64 then return none
    if !(← blockIsValid boot m cur) then return none
    if (← kernelLoad32 boot m (freeAt cur)) ≠ 0#32 then
      if size ≤ (← kernelLoad64 boot m (sizeAt cur)) then return some cur
    let next ← kernelLoad64 boot m (nextAt cur)
    if !(← blockIsValid boot m next) && next ≠ 0#64 then return none
    searchBlocks boot size m fuel next

/-- A new block in front of `head`. -/
def writeHeader (boot : Boot) (block size head : U64) (m : Mem) : Except Stop Mem := do
  let m ← kernelStore64 boot (magicAt block) blockMagic m
  let m ← kernelStore64 boot (sizeAt block) size m
  let m ← kernelStore32 boot (freeAt block) 0#32 m
  kernelStore64 boot (nextAt block) head m

def HeapBytes.kmalloc (boot : Boot) (size : U64) (s : HeapBytes) : Except Stop (U64 × HeapBytes) := do
  let size := (size + 15#64) &&& ~~~15#64
  match ← searchBlocks boot size s.pmm.mem (2^52 + 1) s.head with
  | some cur =>
    let mem ← kernelStore32 boot (freeAt cur) 0#32 s.pmm.mem
    return (cur + blockHeader,{ s with pmm := { s.pmm with mem := mem } })
  | none =>
    let total := blockHeader + size
    let pages := (total + 4096#64 - 1#64) / 4096#64
    let (block,k) ← requestPages boot pages ⟨s.pmm,⟨[],s.cursor⟩⟩
    if block = 0#64 then return (0#64,⟨k.pmm,s.head,k.heap.cursor⟩)
    let mem ← writeHeader boot block (pages * 4096#64 - blockHeader) s.head k.pmm.mem
    return (block + blockHeader,⟨{ k.pmm with mem := mem },block,k.heap.cursor⟩)

def HeapBytes.kfree (boot : Boot) (ptr : U64) (s : HeapBytes) : Except Stop HeapBytes := do
  if ptr = 0#64 then return s
  let block := ptr - blockHeader
  if !(← blockIsValid boot s.pmm.mem block) then return s
  let mem ← kernelStore32 boot (freeAt block) 1#32 s.pmm.mem
  return { s with pmm := { s.pmm with mem := mem } }

/-- A client's store of one byte. -/
def HeapBytes.store (boot : Boot) (v : U64) (byte : BitVec 8) (s : HeapBytes) : Except Stop HeapBytes := do
  let a ← kernelAddr boot s.pmm.mem v
  return { s with pmm := { s.pmm with mem := fill s.pmm.mem a byte 1 } }

def flagWord (free : Bool) : BitVec 32 := if free then 1#32 else 0#32

structure Header (boot : Boot) (m : Mem) (b : Block) : Prop where
  magic : kernelLoad64 boot m (magicAt b.base) = .ok blockMagic
  size : kernelLoad64 boot m (sizeAt b.base) = .ok b.size
  free : kernelLoad32 boot m (freeAt b.base) = .ok (flagWord b.free)

def blockPointer (b : Block) : Except Stop U64 := .ok b.base

def blockLink (boot : Boot) (m : Mem) (b : Block) : Except Stop U64 := kernelLoad64 boot m (nextAt b.base)

/-- Following `next` from `head` meets exactly the blocks listed, each with its header. -/
structure BlockList (boot : Boot) (m : Mem) (head : U64) (blocks : List Block) : Prop where
  chain : Chain blockPointer (blockLink boot m) (.ok 0#64) (.ok head) blocks
  headers : ∀ b ∈ blocks, Header boot m b

variable {boot : Boot} {procs : List U64} {s next : Pmm} {free rest : List U64} {heap : Heap}
variable {blocks : List Block} {m m' : Mem}

theorem low_bits_zero (aligned : Aligned base) : base &&& (4096#64 - 1#64) = 0#64 := by
  apply BitVec.eq_of_toNat_eq
  have low := Words.toNat_and_low base 12 (by decide)
  rw [show BitVec.ofNat 64 (2^12 - 1) = 4096#64 - 1#64 by decide] at low
  rw [low]
  exact aligned

theorem Header.valid (header : Header boot m b) (aligned : Aligned b.base) (live : b.base ≠ 0#64) :
    blockIsValid boot m b.base = .ok true := by
  unfold blockIsValid
  rw [if_neg live,if_neg (not_not.mpr (low_bits_zero aligned)),header.magic]
  simp [bind,Except.bind,pure,Except.pure]

/-- On a list of sound blocks the loop finds the block that `takeBlock` takes. -/
theorem searchBlocks_spec (list : BlockList boot m head blocks) (aligned : ∀ b ∈ blocks, Aligned b.base)
    (short : blocks.length < fuel) :
    searchBlocks boot size m fuel head = .ok ((takeBlock size blocks).map Prod.fst) := by
  obtain ⟨chain,headers⟩ := list
  induction blocks generalizing head fuel with
  | nil =>
    obtain ⟨fuel,rfl⟩ := Nat.exists_eq_add_of_lt short
    obtain rfl := Except.ok.inj chain
    rfl
  | cons block blocks ih =>
    obtain ⟨fuel,rfl⟩ : ∃ n, fuel = n + 1 := ⟨fuel - 1,by omega⟩
    obtain ⟨here,live,tail⟩ := chain
    obtain rfl := Except.ok.inj here
    have nonNull : block.base ≠ 0#64 := fun zero => live (congrArg Except.ok zero)
    have header := headers block (by simp)
    obtain ⟨link,read⟩ : ∃ link, kernelLoad64 boot m (nextAt block.base) = .ok link := by
      cases blocks with
      | nil => exact ⟨_,tail⟩
      | cons other _ => exact ⟨_,tail.1⟩
    unfold blockLink at tail
    rw [read] at tail
    have goOn : ∃ valid, blockIsValid boot m link = .ok valid ∧ (valid = true ∨ link = 0#64) := by
      cases blocks with
      | nil =>
        obtain rfl := Except.ok.inj tail
        exact ⟨false,rfl,.inr rfl⟩
      | cons other _ =>
        obtain ⟨same,live',_⟩ := tail
        obtain rfl := Except.ok.inj same
        exact ⟨true,(headers other (by simp)).valid (aligned other (by simp))
          (fun zero => live' (congrArg Except.ok zero)),.inl rfl⟩
    obtain ⟨valid,checked,passes⟩ := goOn
    have later := ih (fun b member => aligned b (by simp [member])) (by simpa using short) tail
      (fun b member => headers b (by simp [member]))
    have stays : (!valid && decide (link ≠ 0#64)) = false := by
      rcases passes with rfl | rfl <;> simp
    unfold searchBlocks takeBlock
    rw [if_neg nonNull,header.valid (aligned block (by simp)) nonNull,header.free,header.size,read]
    simp only [bind,Except.bind,checked,stays,pure,Except.pure]
    cases taken : block.free with
    | false => simpa [flagWord,Function.comp_def] using later
    | true =>
      by_cases fits : size ≤ block.size
      · simp [flagWord,fits]
      · simpa [flagWord,fits,Function.comp_def] using later

theorem HeapOk.kernelAddr (heapOk : HeapOk boot s free heap) (aligned : Aligned base) (above : aboveHeap base)
    (found : heapFrame boot s base = some f) (offset : off.toNat < 4096) :
    Reddyos.kernelAddr boot s.mem (base + off) = .ok (f.toNat + off.toNat) := by
  have sum : (base + off).toNat = base.toNat + off.toNat := by
    rw [BitVec.toNat_add]
    have := base.isLt
    unfold Aligned at aligned
    exact Nat.mod_eq_of_lt (by omega)
  unfold Aligned at aligned
  unfold aboveHeap at above
  have above' : aboveHeap (base + off) := by
    unfold aboveHeap
    omega
  obtain ⟨phys,translated,value⟩ := heapOk.translate above'
    ((heapFrame_page above' above (by omega)).trans found)
  unfold Reddyos.kernelAddr
  rw [translated]
  simp only [value]
  congr 1
  omega

end Reddyos
