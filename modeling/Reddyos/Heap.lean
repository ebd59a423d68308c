import Reddyos.VmmCalls

/-! The kernel heap of `memory/heap.c` (built without `KMALLOC_CANARY`). Block headers
are kept as records, newest first as `head` links them; clients write only to the bytes
they asked for, so the magic word of a header never changes. -/
namespace Reddyos

open ByteMemory RadixForest

def heapStart : U64 := 0xFFFFC00000000000#64

/-- `block_t`, without its magic word and link. -/
structure Block where
  base : U64
  size : U64
  free : Bool
  deriving DecidableEq, Repr

structure Heap where
  blocks : List Block
  cursor : U64

def heapInit : Heap := ⟨[],heapStart⟩

structure Kernel where
  pmm : Pmm
  heap : Heap

/-- The loop of `request_pages`; false when it gives up on a null page. -/
def requestLoop (boot : Boot) : Nat → Kernel → Except Stop (Bool × Kernel)
  | 0, k => return (true,k)
  | pages + 1, k => do
    let (phys,pmm) ← pmmAllocPage boot k.pmm
    if phys = 0#64 then return (false,{ k with pmm := pmm })
    let pmm ← vmmMap boot boot.kernelPml4 k.heap.cursor phys (pageWritable ||| pageNx) pmm
    requestLoop boot pages ⟨pmm,{ k.heap with cursor := k.heap.cursor + 4096#64 }⟩

/-- One page stays unmapped behind every request. -/
def requestPages (boot : Boot) (pages : U64) (k : Kernel) : Except Stop (U64 × Kernel) := do
  let (served,next) ← requestLoop boot pages.toNat k
  if served then
    return (k.heap.cursor,⟨next.pmm,{ next.heap with cursor := next.heap.cursor + 4096#64 }⟩)
  else return (0#64,next)

/-- The first free block of at least `size` bytes, taken. -/
def takeBlock (size : U64) : List Block → Option (U64 × List Block)
  | [] => none
  | block :: rest =>
    if block.free ∧ size ≤ block.size then some (block.base,{ block with free := false } :: rest)
    else (takeBlock size rest).map fun (base,rest) => (base,block :: rest)

def blockHeader : U64 := 32#64

def kmalloc (boot : Boot) (size : U64) (k : Kernel) : Except Stop (U64 × Kernel) := do
  let size := (size + 15#64) &&& ~~~15#64
  match takeBlock size k.heap.blocks with
  | some (base,blocks) => return (base + blockHeader,⟨k.pmm,{ k.heap with blocks := blocks }⟩)
  | none =>
    let total := blockHeader + size
    let pages := (total + 4096#64 - 1#64) / 4096#64
    let (base,k) ← requestPages boot pages k
    if base = 0#64 then return (0#64,k)
    let block : Block := ⟨base,pages * 4096#64 - blockHeader,false⟩
    return (base + blockHeader,⟨k.pmm,{ k.heap with blocks := block :: k.heap.blocks }⟩)

/-- A pointer that belongs to no block fails the check of the magic word. -/
def kfree (ptr : U64) (k : Kernel) : Kernel :=
  if ptr = 0#64 then k
  else { k with heap := { k.heap with
    blocks := k.heap.blocks.map fun block =>
      if block.base = ptr - blockHeader then { block with free := true } else block } }

def kcalloc (boot : Boot) (count size : U64) (k : Kernel) : Except Stop (U64 × Kernel) :=
  if size ≠ 0#64 ∧ (~~~0#64) / size < count then return (0#64,k)
  else kmalloc boot (count * size) k

structure HeapAligned (heap : Heap) : Prop where
  cursor : Aligned heap.cursor
  blocks : ∀ block ∈ heap.blocks, Aligned block.base

theorem aligned_add (aligned : Aligned a) : Aligned (a + 4096#64) := by
  unfold Aligned at *
  rw [BitVec.toNat_add]
  have : (4096#64).toNat = 4096 := rfl
  omega

theorem requestLoop_heap (aligned : HeapAligned k.heap)
    (returns : requestLoop boot pages k = .ok (served,next)) :
    HeapAligned next.heap ∧ next.heap.blocks = k.heap.blocks := by
  induction pages generalizing k with
  | zero =>
    obtain ⟨rfl,rfl⟩ := ok_pair returns
    exact ⟨aligned,rfl⟩
  | succ pages ih =>
    obtain ⟨⟨phys,pmm⟩,_,returns⟩ := ok_of_bind returns
    dsimp only at returns
    split at returns
    · obtain ⟨rfl,rfl⟩ := ok_pair returns
      exact ⟨aligned,rfl⟩
    · obtain ⟨mapped,_,returns⟩ := ok_of_bind returns
      have moved : HeapAligned { k.heap with cursor := k.heap.cursor + 4096#64 } :=
        ⟨aligned_add aligned.cursor,aligned.blocks⟩
      obtain ⟨later,same⟩ := ih (k := ⟨mapped,{ k.heap with cursor := k.heap.cursor + 4096#64 }⟩)
        moved returns
      exact ⟨later,same⟩

theorem takeBlock_base (taken : takeBlock size blocks = some (base,rest)) :
    (∃ block ∈ blocks, block.base = base) ∧ rest.map Block.base = blocks.map Block.base := by
  induction blocks generalizing rest with
  | nil => cases taken
  | cons block blocks ih =>
    unfold takeBlock at taken
    split at taken
    · obtain ⟨rfl,rfl⟩ := Prod.mk.inj (Option.some.inj taken)
      exact ⟨⟨block,by simp,rfl⟩,rfl⟩
    · obtain ⟨⟨base',rest'⟩,found,same⟩ := Option.map_eq_some_iff.mp taken
      obtain ⟨rfl,rfl⟩ := Prod.mk.inj same
      obtain ⟨⟨other,member,rfl⟩,bases⟩ := ih found
      exact ⟨⟨other,by simp [member],rfl⟩,by simp [bases]⟩

/-- The block taken is the first free one that is large enough. -/
theorem takeBlock_some (taken : takeBlock size blocks = some (base,rest)) :
    ∃ before block after, blocks = before ++ block :: after ∧ block.base = base ∧ block.free = true ∧
      size ≤ block.size ∧ rest = before ++ { block with free := false } :: after := by
  induction blocks generalizing rest with
  | nil => cases taken
  | cons block blocks ih =>
    unfold takeBlock at taken
    split at taken
    · rename_i fits
      obtain ⟨rfl,rfl⟩ := Prod.mk.inj (Option.some.inj taken)
      exact ⟨[],block,blocks,rfl,rfl,fits.1,fits.2,rfl⟩
    · obtain ⟨⟨base',rest'⟩,found,same⟩ := Option.map_eq_some_iff.mp taken
      obtain ⟨rfl,rfl⟩ := Prod.mk.inj same
      obtain ⟨before,other,after,rfl,here,isFree,fits,rfl⟩ := ih found
      exact ⟨block :: before,other,after,rfl,here,isFree,fits,rfl⟩

theorem takeBlock_none (missing : takeBlock size blocks = none) :
    ∀ block ∈ blocks, ¬(block.free = true ∧ size ≤ block.size) := by
  induction blocks with
  | nil => simp
  | cons block blocks ih =>
    unfold takeBlock at missing
    split at missing
    · cases missing
    · rename_i unfit
      intro other member
      rcases List.mem_cons.mp member with rfl | later
      · exact unfit
      · exact ih (Option.map_eq_none_iff.mp missing) other later

theorem aligned_of_bases {rest blocks : List Block} (same : rest.map Block.base = blocks.map Block.base)
    (aligned : ∀ block ∈ blocks, Aligned block.base) : ∀ block ∈ rest, Aligned block.base := by
  intro block member
  have listed : block.base ∈ blocks.map Block.base := same ▸ List.mem_map.mpr ⟨block,member,rfl⟩
  obtain ⟨other,inBlocks,base⟩ := List.mem_map.mp listed
  rw [← base]
  exact aligned other inBlocks

/-- `kmalloc` returns a null pointer or the first byte behind a page-aligned header. -/
theorem kmalloc_aligned (aligned : HeapAligned k.heap) (returns : kmalloc boot size k = .ok (ptr,next)) :
    HeapAligned next.heap ∧ (ptr = 0#64 ∨ ∃ base, Aligned base ∧ ptr = base + blockHeader) := by
  unfold kmalloc at returns
  dsimp only at returns
  split at returns
  · rename_i base blocks taken
    obtain ⟨rfl,rfl⟩ := ok_pair returns
    obtain ⟨⟨block,member,rfl⟩,bases⟩ := takeBlock_base taken
    exact ⟨⟨aligned.cursor,aligned_of_bases bases aligned.blocks⟩,
      .inr ⟨_,aligned.blocks block member,rfl⟩⟩
  · obtain ⟨⟨base,k'⟩,requested,returns⟩ := ok_of_bind returns
    obtain ⟨⟨served,k''⟩,looped,requested⟩ := ok_of_bind requested
    obtain ⟨later,same⟩ := requestLoop_heap aligned looped
    cases served with
    | false =>
      obtain ⟨rfl,rfl⟩ := ok_pair requested
      obtain ⟨rfl,rfl⟩ := ok_pair returns
      exact ⟨later,.inl rfl⟩
    | true =>
      obtain ⟨rfl,rfl⟩ := ok_pair requested
      have cursor := aligned_add later.cursor
      dsimp only at returns
      split at returns
      · obtain ⟨rfl,rfl⟩ := ok_pair returns
        exact ⟨⟨cursor,later.blocks⟩,.inl rfl⟩
      · obtain ⟨rfl,rfl⟩ := ok_pair returns
        refine ⟨⟨cursor,?_⟩,.inr ⟨_,aligned.cursor,rfl⟩⟩
        intro block member
        rcases List.mem_cons.mp member with rfl | old
        · exact aligned.cursor
        · exact later.blocks block old

theorem kfree_aligned (ptr : U64) (aligned : HeapAligned k.heap) : HeapAligned (kfree ptr k).heap := by
  unfold kfree
  split
  · exact aligned
  · refine ⟨aligned.cursor,?_⟩
    intro block member
    obtain ⟨old,inBlocks,rfl⟩ := List.mem_map.mp member
    split
    · exact aligned.blocks old inBlocks
    · exact aligned.blocks old inBlocks

end Reddyos
