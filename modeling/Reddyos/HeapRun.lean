import Reddyos.HeapInvariant
import Reddyos.Framebuffer

/-! Runs of `kmalloc` and `kfree` with clients that write to the bytes they asked for. -/
namespace Reddyos

open ByteMemory RadixForest LinkedChain

structure Allocation where
  ptr : U64
  size : U64
  deriving DecidableEq, Repr

def Allocation.stop (a : Allocation) : Nat := a.ptr.toNat + a.size.toNat

/-- The block that a call of `kmalloc` asked pages for. -/
def requestedBase (s next : HeapBytes) : List U64 := if next.cursor = s.cursor then [] else [s.cursor]

/-- States reached by calls that return, with the allocations that are live and the blocks
ever requested. -/
inductive HeapRun (boot : Boot) (start : HeapBytes → Prop) : HeapBytes → List Allocation → List U64 → Prop where
  | init : start s → HeapRun boot start s [] []
  | kmalloc : HeapRun boot start s live requested → size.toNat ≤ 2^63 → s.kmalloc boot size = .ok (ptr,next) →
      HeapRun boot start next (if ptr = 0#64 then live else ⟨ptr,size⟩ :: live) (requestedBase s next ++ requested)
  | kfree : HeapRun boot start s live requested → ptr = 0#64 ∨ (∃ a ∈ live, a.ptr = ptr) →
      s.kfree boot ptr = .ok next → HeapRun boot start next (live.filter (·.ptr ≠ ptr)) requested
  | store : HeapRun boot start s live requested → a ∈ live → off < a.size →
      s.store boot (a.ptr + off) byte = .ok next → HeapRun boot start next live requested

/-- An empty heap, nothing mapped from `HEAP_START` up to `limit`, and room there for every
frame of the machine with a page to spare. -/
structure HeapEmpty (boot : Boot) (procs : List U64) (limit : Nat) (s : HeapBytes) : Prop where
  head : s.head = 0#64
  cursor : s.cursor = heapStart
  sound : ∃ free, Mapped boot procs limit (fun _ => False) s.pmm free ⟨[],heapStart⟩ ∧
    heapStart.toNat + 8192 * (avail boot s.pmm free).length ≤ limit

variable {boot : Boot} {procs : List U64} {limit : Nat} {free : List U64} {blocks : List Block}
variable {s next : HeapBytes} {size ptr : U64} {b : Block}

/-- The size of a block is a multiple of 16, so rounding up excludes no block. -/
theorem BlocksOk.fits_iff (blocksOk : BlocksOk cursor blocks) (member : b ∈ blocks)
    (bound : size.toNat ≤ 2^64 - 4128) :
    roundSize size ≤ b.size ↔ size.toNat ≤ b.size.toNat := by
  have aligned := (blocksOk.start b member).2
  have stop := (blocksOk.stop b member).1
  unfold Aligned at aligned
  unfold Block.limit at stop
  rw [BitVec.le_def,roundSize_toNat bound]
  omega

theorem BlocksOk.span (blocksOk : BlocksOk cursor blocks) (low : aboveHeap cursor) :
    heapStart.toNat + 4096 * blocks.length ≤ cursor.toNat := by
  induction blocks generalizing cursor with
  | nil => exact low
  | cons b blocks ih =>
    obtain ⟨start,stop,apart⟩ := blocksOk
    obtain ⟨below,apart⟩ := List.pairwise_cons.mp apart
    have rest : BlocksOk b.base blocks :=
      ⟨fun c member => start c (by simp [member]),fun c member => ⟨(stop c (by simp [member])).1,below c member⟩,
        apart⟩
    have earlier := ih rest (start b (by simp)).1
    have last := (stop b (by simp)).2
    unfold Block.limit at last
    rw [List.length_cons]
    calc heapStart.toNat + 4096 * (blocks.length + 1) = heapStart.toNat + 4096 * blocks.length + 4096 := by
          rw [Nat.mul_succ,Nat.add_assoc]
      _ ≤ b.base.toNat + 4096 := Nat.add_le_add_right earlier 4096
      _ ≤ cursor.toNat := by omega

theorem HeapInv.length (inv : HeapInv boot procs limit s free blocks) : blocks.length < 2^52 + 1 := by
  have span := inv.blocksOk.span inv.mapped.heapOk.low
  have := s.cursor.isLt
  omega

theorem HeapInv.search (inv : HeapInv boot procs limit s free blocks) (size : U64) :
    searchBlocks boot size s.pmm.mem (2^52 + 1) s.head = .ok ((takeBlock size blocks).map Prod.fst) :=
  searchBlocks_spec inv.list (fun b member => (inv.blocksOk.start b member).2) inv.length

structure Reused (boot : Boot) (procs : List U64) (limit : Nat) (s : HeapBytes) (free : List U64)
    (blocks : List Block) (size base ptr : U64) (next : HeapBytes) : Prop where
  block : ∃ b ∈ blocks, b.free = true ∧ size.toNat ≤ b.size.toNat ∧ b.base = base
  ptr : ptr = base + blockHeader
  heap : HeapInv boot procs limit next free (setFree base false blocks)
  same : next = { s with pmm := { s.pmm with mem := next.pmm.mem } }

theorem HeapInv.reuse (ok : BootOk boot) (inv : HeapInv boot procs limit s free blocks)
    (bound : size.toNat ≤ 2^64 - 4128) (taken : takeBlock (roundSize size) blocks = some (base,rest)) :
    ∃ ptr next, s.kmalloc boot size = .ok (ptr,next) ∧ Reused boot procs limit s free blocks size base ptr next := by
  obtain ⟨before,b,after,split,rfl,isFree,fits,_⟩ := takeBlock_some taken
  have member : b ∈ blocks := by simp [split]
  have found := inv.search (roundSize size)
  rw [taken,Option.map_some] at found
  obtain ⟨mem,stored,inv'⟩ := inv.setFree ok member false
  refine ⟨b.base + blockHeader,{ s with pmm := { s.pmm with mem := mem } },?_,
    ⟨b,member,isFree,(inv.blocksOk.fits_iff member bound).mp fits,rfl⟩,rfl,inv',rfl⟩
  unfold HeapBytes.kmalloc
  change (searchBlocks boot (roundSize size) s.pmm.mem (2^52 + 1) s.head >>= _) = _
  rw [found]
  change (kernelStore32 boot (freeAt b.base) (flagWord false) s.pmm.mem >>= _) = _
  rw [stored]
  rfl

structure Extended (boot : Boot) (procs : List U64) (limit : Nat) (s : HeapBytes) (blocks : List Block)
    (size ptr : U64) (next : HeapBytes) : Prop where
  full : ∀ b ∈ blocks, ¬(b.free = true ∧ size.toNat ≤ b.size.toNat)
  cursor : next.cursor ≠ s.cursor
  fits : size.toNat ≤ (newBlock s.cursor (blockPages size)).size.toNat
  ptr : ptr = s.cursor + blockHeader
  pages : ∃ k, requestPages boot (blockPages size) ⟨s.pmm,⟨[],s.cursor⟩⟩ = .ok (s.cursor,k) ∧
    next.cursor = k.heap.cursor
  heap : ∃ rest, HeapInv boot procs limit next rest (newBlock s.cursor (blockPages size) :: blocks)

theorem HeapInv.extend (ok : BootOk boot) (cpu : CpuOk boot) (inv : HeapInv boot procs limit s free blocks)
    (bound : size.toNat ≤ 2^64 - 4128) (missing : takeBlock (roundSize size) blocks = none)
    (returns : s.kmalloc boot size = .ok (ptr,next)) : Extended boot procs limit s blocks size ptr next := by
  have found := inv.search (roundSize size)
  rw [missing,Option.map_none] at found
  unfold HeapBytes.kmalloc at returns
  change (searchBlocks boot (roundSize size) s.pmm.mem (2^52 + 1) s.head >>= _) = _ at returns
  rw [found] at returns
  change (requestPages boot (blockPages size) ⟨s.pmm,⟨[],s.cursor⟩⟩ >>= _) = _ at returns
  obtain ⟨⟨base,k⟩,requested,returns⟩ := ok_of_bind returns
  have pages := blockPages_toNat bound
  obtain ⟨rfl,live,moved,bytes,rest,mem,written,inv'⟩ := inv.request ok cpu (by omega) requested
  dsimp only at returns
  rw [if_neg live] at returns
  change (writeHeader boot s.cursor (newBlock s.cursor (blockPages size)).size s.head k.pmm.mem >>= _) = _ at returns
  rw [written] at returns
  obtain ⟨rfl,rfl⟩ := ok_pair returns
  refine ⟨fun b member fits => ?_,fun same => ?_,?_,rfl,⟨k,requested,rfl⟩,rest,inv'⟩
  · exact takeBlock_none missing b member ⟨fits.1,(inv.blocksOk.fits_iff member bound).mpr fits.2⟩
  · dsimp only at same
    rw [same] at moved
    omega
  · have rounded := roundSize_toNat bound
    omega

theorem HeapInv.kmalloc (ok : BootOk boot) (cpu : CpuOk boot) (inv : HeapInv boot procs limit s free blocks)
    (bound : size.toNat ≤ 2^64 - 4128) (returns : s.kmalloc boot size = .ok (ptr,next)) :
    (∃ base, Reused boot procs limit s free blocks size base ptr next) ∨
      Extended boot procs limit s blocks size ptr next := by
  cases taken : takeBlock (roundSize size) blocks with
  | none => exact .inr (inv.extend ok cpu bound taken returns)
  | some found =>
    obtain ⟨ptr',next',returns',reused⟩ := inv.reuse ok bound taken
    rw [returns'] at returns
    obtain ⟨rfl,rfl⟩ := ok_pair returns
    exact .inl ⟨_,reused⟩

theorem HeapInv.kfree (ok : BootOk boot) (inv : HeapInv boot procs limit s free blocks) (member : b ∈ blocks) :
    ∃ mem, s.kfree boot (b.base + blockHeader) = .ok { s with pmm := { s.pmm with mem := mem } } ∧
      HeapInv boot procs limit { s with pmm := { s.pmm with mem := mem } } free (Reddyos.setFree b.base true blocks) := by
  obtain ⟨mem,stored,inv'⟩ := inv.setFree ok member true
  obtain ⟨above,aligned⟩ := inv.blocksOk.start b member
  have valid := (inv.list.headers b member).valid aligned (nonNull_of_above above)
  refine ⟨mem,?_,inv'⟩
  unfold HeapBytes.kfree
  rw [if_neg (aligned_header_nonNull aligned),BitVec.add_sub_cancel]
  dsimp only
  rw [valid]
  change (kernelStore32 boot (freeAt b.base) (flagWord true) s.pmm.mem >>= _) = _
  rw [stored]
  rfl

/-- Every live allocation is a block of its own that is not free, and all others are free. -/
structure LiveOk (blocks : List Block) (live : List Allocation) : Prop where
  owned : ∀ a ∈ live, ∃ b ∈ blocks, b.free = false ∧ a.ptr = b.base + blockHeader ∧ a.size.toNat ≤ b.size.toNat
  used : ∀ b ∈ blocks, b.free = false → ∃ a ∈ live, a.ptr = b.base + blockHeader
  distinct : live.Pairwise fun a b => a.ptr ≠ b.ptr

structure RunInv (boot : Boot) (procs : List U64) (limit : Nat) (s : HeapBytes) (live : List Allocation)
    (requested : List U64) (free : List U64) (blocks : List Block) : Prop where
  heap : HeapInv boot procs limit s free blocks
  live : LiveOk blocks live
  bases : blocks.map Block.base = requested

section

variable {c : Block} {base : U64} {flag : Bool} {cursor : U64} {live : List Allocation} {requested : List U64}

theorem mem_setFree_other (member : c ∈ blocks) (other : c.base ≠ base) : c ∈ setFree base flag blocks :=
  List.mem_map.mpr ⟨c,member,if_neg other⟩

theorem mem_setFree_here (member : b ∈ blocks) : { b with free := flag } ∈ setFree b.base flag blocks :=
  List.mem_map.mpr ⟨b,member,if_pos rfl⟩

theorem of_mem_setFree (member : c ∈ setFree base flag blocks) :
    (c.base = base ∧ c.free = flag) ∨ c.base ≠ base ∧ c ∈ blocks := by
  obtain ⟨d,listed,rfl⟩ := List.mem_map.mp member
  by_cases here : d.base = base
  · rw [if_pos here]
    exact .inl ⟨here,rfl⟩
  · rw [if_neg here]
    exact .inr ⟨here,listed⟩

theorem setFree_bases : (setFree base flag blocks).map Block.base = blocks.map Block.base := by
  unfold setFree
  rw [List.map_map]
  exact List.map_congr_left fun b _ => (setFree_shape base flag b).1

theorem BlocksOk.base_unique (blocksOk : BlocksOk cursor blocks) (first : b ∈ blocks) (second : c ∈ blocks)
    (same : b.base = c.base) : b = c := by
  by_contra different
  have apart := blocksOk.disjoint first second different
  unfold Block.limit at apart
  rw [same] at apart
  omega

theorem ptr_unique (same : b.base + blockHeader = c.base + blockHeader) : b.base = c.base :=
  (BitVec.add_left_inj (w := 64) blockHeader).mp same

theorem LiveOk.nonNull (liveOk : LiveOk blocks live) (blocksOk : BlocksOk cursor blocks) (member : a ∈ live) :
    a.ptr ≠ 0#64 := by
  obtain ⟨b,listed,_,here,_⟩ := liveOk.owned a member
  rw [here]
  exact aligned_header_nonNull (blocksOk.start b listed).2

theorem LiveOk.reuse (liveOk : LiveOk blocks live) (blocksOk : BlocksOk cursor blocks) (member : b ∈ blocks)
    (isFree : b.free = true) (fits : size.toNat ≤ b.size.toNat) :
    LiveOk (setFree b.base false blocks) (⟨b.base + blockHeader,size⟩ :: live) := by
  have other : ∀ c ∈ blocks, c.free = false → c.base ≠ b.base := by
    intro c listed taken same
    rw [blocksOk.base_unique listed member same,isFree] at taken
    cases taken
  refine ⟨?_,?_,List.pairwise_cons.mpr ⟨?_,liveOk.distinct⟩⟩
  · intro a here
    rcases List.mem_cons.mp here with rfl | old
    · exact ⟨_,mem_setFree_here member,rfl,rfl,fits⟩
    · obtain ⟨c,listed,taken,ptr,fits'⟩ := liveOk.owned a old
      exact ⟨c,mem_setFree_other listed (other c listed taken),taken,ptr,fits'⟩
  · intro c here taken
    rcases of_mem_setFree here with ⟨same,_⟩ | ⟨_,listed⟩
    · exact ⟨_,List.mem_cons_self,by rw [same]⟩
    · obtain ⟨a,old,ptr⟩ := liveOk.used c listed taken
      exact ⟨a,List.mem_cons_of_mem _ old,ptr⟩
  · intro a old same
    obtain ⟨c,listed,taken,ptr,_⟩ := liveOk.owned a old
    rw [ptr] at same
    exact other c listed taken (ptr_unique same).symm

theorem LiveOk.extend (liveOk : LiveOk blocks live) (blocksOk : BlocksOk cursor (b :: blocks))
    (taken : b.free = false) (fits : size.toNat ≤ b.size.toNat) :
    LiveOk (b :: blocks) (⟨b.base + blockHeader,size⟩ :: live) := by
  refine ⟨?_,?_,List.pairwise_cons.mpr ⟨?_,liveOk.distinct⟩⟩
  · intro a here
    rcases List.mem_cons.mp here with rfl | old
    · exact ⟨b,by simp,taken,rfl,fits⟩
    · obtain ⟨c,listed,rest⟩ := liveOk.owned a old
      exact ⟨c,by simp [listed],rest⟩
  · intro c here inUse
    rcases List.mem_cons.mp here with rfl | listed
    · exact ⟨_,List.mem_cons_self,rfl⟩
    · obtain ⟨a,old,ptr⟩ := liveOk.used c listed inUse
      exact ⟨a,List.mem_cons_of_mem _ old,ptr⟩
  · intro a old same
    obtain ⟨c,listed,_,ptr,_⟩ := liveOk.owned a old
    rw [ptr] at same
    have below := (List.pairwise_cons.mp blocksOk.apart).1 c listed
    rw [ptr_unique same] at below
    unfold Block.limit at below
    omega

theorem LiveOk.kfree (liveOk : LiveOk blocks live) (base : U64) :
    LiveOk (setFree base true blocks) (live.filter (·.ptr ≠ base + blockHeader)) := by
  refine ⟨?_,?_,liveOk.distinct.filter _⟩
  · intro a member
    obtain ⟨old,other⟩ := List.mem_filter.mp member
    obtain ⟨c,listed,taken,ptr,fits⟩ := liveOk.owned a old
    refine ⟨c,mem_setFree_other listed ?_,taken,ptr,fits⟩
    rintro rfl
    exact of_decide_eq_true other ptr
  · intro c here taken
    rcases of_mem_setFree here with ⟨_,isFree⟩ | ⟨other,listed⟩
    · rw [isFree] at taken
      cases taken
    · obtain ⟨a,old,ptr⟩ := liveOk.used c listed taken
      refine ⟨a,List.mem_filter.mpr ⟨old,decide_eq_true fun same => other ?_⟩,ptr⟩
      exact (BitVec.add_left_inj (w := 64) blockHeader).mp (ptr.symm.trans same)

theorem RunInv.kmalloc (ok : BootOk boot) (cpu : CpuOk boot)
    (inv : RunInv boot procs limit s live requested free blocks) (bound : size.toNat ≤ 2^64 - 4128)
    (returns : s.kmalloc boot size = .ok (ptr,next)) :
    ∃ free blocks, RunInv boot procs limit next (if ptr = 0#64 then live else ⟨ptr,size⟩ :: live)
      (requestedBase s next ++ requested) free blocks := by
  rcases inv.heap.kmalloc ok cpu bound returns with ⟨base,reused⟩ | extended
  · obtain ⟨⟨b,member,isFree,fits,rfl⟩,rfl,heap,same⟩ := reused
    have stays : requestedBase s next = [] := if_pos (by rw [same])
    refine ⟨free,_,heap,?_,?_⟩
    · rw [if_neg (aligned_header_nonNull (inv.heap.blocksOk.start b member).2)]
      exact inv.live.reuse inv.heap.blocksOk member isFree fits
    · rw [setFree_bases,inv.bases,stays]
      rfl
  · obtain ⟨_,moved,fits,rfl,_,rest,heap⟩ := extended
    have grows : requestedBase s next = [s.cursor] := if_neg moved
    refine ⟨rest,_,heap,?_,?_⟩
    · rw [if_neg (aligned_header_nonNull inv.heap.mapped.heapOk.aligned.cursor)]
      exact inv.live.extend heap.blocksOk rfl fits
    · rw [List.map_cons,inv.bases,grows]
      rfl

theorem RunInv.kfree (ok : BootOk boot) (inv : RunInv boot procs limit s live requested free blocks)
    (allowed : ptr = 0#64 ∨ ∃ a ∈ live, a.ptr = ptr) (returns : s.kfree boot ptr = .ok next) :
    ∃ blocks, RunInv boot procs limit next (live.filter (·.ptr ≠ ptr)) requested free blocks := by
  rcases allowed with rfl | ⟨a,member,rfl⟩
  · obtain rfl := Except.ok.inj returns
    have all : live.filter (·.ptr ≠ 0#64) = live := by
      refine List.filter_eq_self.mpr fun a member => ?_
      exact decide_eq_true (inv.live.nonNull inv.heap.blocksOk member)
    exact ⟨blocks,inv.heap,all.symm ▸ inv.live,inv.bases⟩
  · obtain ⟨b,listed,_,here,_⟩ := inv.live.owned a member
    rw [here] at returns ⊢
    obtain ⟨mem,returns',heap⟩ := inv.heap.kfree ok listed
    rw [returns'] at returns
    obtain rfl := Except.ok.inj returns
    exact ⟨_,heap,inv.live.kfree b.base,setFree_bases.trans inv.bases⟩

/-- A store to a byte that was asked for returns. -/
theorem RunInv.stores (ok : BootOk boot) (inv : RunInv boot procs limit s live requested free blocks)
    (member : a ∈ live) (inside : off < a.size) :
    ∃ next, s.store boot (a.ptr + off) byte = .ok next ∧ RunInv boot procs limit next live requested free blocks := by
  obtain ⟨b,listed,_,here,fits⟩ := inv.live.owned a member
  have below := (inv.heap.blocksOk.stop b listed).2
  have top := s.cursor.isLt
  have offset := BitVec.lt_def.mp inside
  unfold Block.limit at below
  have value : (a.ptr + off).toNat = b.base.toNat + 32 + off.toNat := by
    rw [here,BitVec.toNat_add,BitVec.toNat_add,show blockHeader.toNat = 32 from rfl]
    omega
  have low : b.base.toNat + 32 ≤ (a.ptr + off).toNat := by omega
  have high : (a.ptr + off).toNat < b.limit := by
    unfold Block.limit
    omega
  obtain ⟨mem,returns,heap⟩ := inv.heap.store ok listed low high
  exact ⟨_,returns,heap,inv.live,inv.bases⟩

theorem RunInv.store (ok : BootOk boot) (inv : RunInv boot procs limit s live requested free blocks)
    (member : a ∈ live) (inside : off < a.size) (returns : s.store boot (a.ptr + off) byte = .ok next) :
    RunInv boot procs limit next live requested free blocks := by
  obtain ⟨_,returns',inv'⟩ := inv.stores ok member inside
  rw [returns'] at returns
  obtain rfl := Except.ok.inj returns
  exact inv'

theorem HeapEmpty.inv (empty : HeapEmpty boot procs limit s) : ∃ free, RunInv boot procs limit s [] [] free [] := by
  obtain ⟨head,cursor,free,mapped,room⟩ := empty
  refine ⟨free,⟨⟨?_,by rwa [cursor],⟨nofun,nofun,.nil⟩,⟨?_,nofun⟩⟩,⟨nofun,nofun,.nil⟩,rfl⟩⟩
  · rw [cursor]
    refine ⟨mapped.spaces,mapped.heapOk,mapped.window.congr fun n => ?_⟩
    simp [insideBlocks]
  · exact congrArg Except.ok head

theorem HeapRun.inv (ok : BootOk boot) (cpu : CpuOk boot)
    (run : HeapRun boot (HeapEmpty boot procs limit) s live requested) :
    ∃ free blocks, RunInv boot procs limit s live requested free blocks := by
  induction run with
  | init start =>
    obtain ⟨free,inv⟩ := start.inv
    exact ⟨free,[],inv⟩
  | kmalloc _ bound returns ih =>
    obtain ⟨free,blocks,inv⟩ := ih
    exact inv.kmalloc ok cpu (by omega) returns
  | kfree _ allowed returns ih =>
    obtain ⟨free,blocks,inv⟩ := ih
    exact ⟨free,inv.kfree ok allowed returns⟩
  | store _ member inside returns ih =>
    obtain ⟨free,blocks,inv⟩ := ih
    exact ⟨free,blocks,inv.store ok member inside returns⟩

/-- An unmapped page lies between any two blocks. -/
def Guarded (boot : Boot) (m : Mem) (blocks : List Block) : Prop :=
  ∀ b ∈ blocks, ∀ c ∈ blocks, b.base.toNat < c.base.toNat →
    ∃ page, page % 4096 = 0 ∧ b.limit ≤ page ∧ page + 4096 ≤ c.base.toNat ∧
      ∀ v : U64, page ≤ v.toNat → v.toNat < page + 4096 → mmuTranslate m boot.kernelPml4 v = none

/-- No page is asked for while a free block is large enough. -/
def Frugal (boot : Boot) (s : HeapBytes) (blocks : List Block) : Prop :=
  ∀ size : U64, size.toNat ≤ 2^63 → (∃ b ∈ blocks, b.free = true ∧ size.toNat ≤ b.size.toNat) →
    ∃ ptr next, s.kmalloc boot size = .ok (ptr,next) ∧ next = { s with pmm := { s.pmm with mem := next.pmm.mem } }

structure HeapSound (boot : Boot) (s : HeapBytes) (live : List Allocation) (requested : List U64) : Prop where
  aligned : ∀ a ∈ live, a.ptr.toNat % 16 = 0
  apart : live.Pairwise fun a b => a.stop ≤ b.ptr.toNat ∨ b.stop ≤ a.ptr.toNat
  headers : ∀ a ∈ live, ∀ base ∈ requested, a.stop ≤ base.toNat ∨ base.toNat + 32 ≤ a.ptr.toNat
  backed : ∀ a ∈ live, ∀ v : U64, a.ptr.toNat ≤ v.toNat → v.toNat < a.stop →
    aboveHeap v ∧ ∃ phys, mmuTranslate s.pmm.mem boot.kernelPml4 v = some phys
  frees : ∀ a ∈ live, ∃ next, s.kfree boot a.ptr = .ok next
  list : ∃ blocks, BlockList boot s.pmm.mem s.head blocks ∧ blocks.map Block.base = requested ∧ requested.Nodup ∧
    (∀ a ∈ live, ∃ b ∈ blocks, b.free = false ∧ a.ptr = b.base + blockHeader ∧ a.size.toNat ≤ b.size.toNat) ∧
    (∀ b ∈ blocks, b.free = true ↔ ∀ a ∈ live, a.ptr ≠ b.base + blockHeader) ∧ Guarded boot s.pmm.mem blocks ∧ Frugal boot s blocks

theorem BlocksOk.ptr_toNat (blocksOk : BlocksOk cursor blocks) (member : b ∈ blocks) :
    (b.base + blockHeader).toNat = b.base.toNat + 32 := by
  have below := (blocksOk.stop b member).2
  have top := cursor.isLt
  unfold Block.limit at below
  rw [BitVec.toNat_add,show blockHeader.toNat = 32 from rfl]
  omega

/-- A live allocation lies behind the header of its block and ends inside the block. -/
theorem LiveOk.place (liveOk : LiveOk blocks live) (blocksOk : BlocksOk cursor blocks) (member : a ∈ live) :
    ∃ b ∈ blocks, a.ptr = b.base + blockHeader ∧ a.ptr.toNat = b.base.toNat + 32 ∧ a.stop ≤ b.limit := by
  obtain ⟨b,listed,_,here,fits⟩ := liveOk.owned a member
  have value := blocksOk.ptr_toNat listed
  rw [← here] at value
  refine ⟨b,listed,here,value,?_⟩
  unfold Allocation.stop Block.limit
  omega

/-- The free blocks are those that no live allocation is in. -/
theorem LiveOk.free_iff (liveOk : LiveOk blocks live) (blocksOk : BlocksOk cursor blocks) (member : b ∈ blocks) :
    b.free = true ↔ ∀ a ∈ live, a.ptr ≠ b.base + blockHeader := by
  constructor
  · intro isFree a listed here
    obtain ⟨c,other,taken,ptr,_⟩ := liveOk.owned a listed
    obtain rfl := blocksOk.base_unique other member (ptr_unique (ptr.symm.trans here))
    rw [isFree] at taken
    cases taken
  · intro nobody
    by_contra inUse
    obtain ⟨a,listed,ptr⟩ := liveOk.used b member (Bool.eq_false_iff.mpr inUse)
    exact nobody a listed ptr

theorem HeapInv.guarded (inv : HeapInv boot procs limit s free blocks) : Guarded boot s.pmm.mem blocks := by
  intro b first c second before
  obtain ⟨stop,below⟩ := inv.blocksOk.stop b first
  have start := (inv.blocksOk.start b first).1
  have apart := inv.blocksOk.disjoint first second (by rintro rfl; omega)
  have room := inv.room
  refine ⟨b.limit,stop,Nat.le_refl _,?_,fun v low high => ?_⟩
  · unfold Block.limit at apart ⊢
    omega
  · have above : aboveHeap v := by
      unfold aboveHeap Block.limit at *
      omega
    refine inv.mapped.heapOk.translate_none above (inv.mapped.window.unmapped v above (by omega) ?_)
    rintro ⟨d,third,inside⟩
    by_cases same : d = b
    · rw [same] at inside
      omega
    · have apart := inv.blocksOk.disjoint third first same
      unfold Block.limit at *
      omega

theorem HeapInv.frugal (ok : BootOk boot) (inv : HeapInv boot procs limit s free blocks) : Frugal boot s blocks := by
  rintro size bound ⟨b,member,isFree,fits⟩
  cases taken : takeBlock (roundSize size) blocks with
  | none =>
    exact absurd ⟨isFree,(inv.blocksOk.fits_iff member (by omega)).mpr fits⟩ (takeBlock_none taken b member)
  | some found =>
    obtain ⟨ptr,next,returns,reused⟩ := inv.reuse ok (by omega) taken
    exact ⟨ptr,next,returns,reused.same⟩

theorem HeapInv.backed (inv : HeapInv boot procs limit s free blocks) (member : b ∈ blocks)
    (low : b.base.toNat ≤ v.toNat) (high : v.toNat < b.limit) :
    aboveHeap v ∧ ∃ phys, mmuTranslate s.pmm.mem boot.kernelPml4 v = some phys := by
  obtain ⟨start,aligned⟩ := inv.blocksOk.start b member
  have above : aboveHeap v := by
    unfold aboveHeap at start ⊢
    omega
  have inside : insideBlocks blocks (v.toNat / 4096) := by
    unfold Aligned at aligned
    exact ⟨b,member,by omega,by omega⟩
  obtain ⟨f,found,_⟩ := inv.mapped.window.backed v above inside
  obtain ⟨phys,translated,_⟩ := inv.mapped.heapOk.translate above found
  exact ⟨above,phys,translated⟩

theorem BlocksOk.bases_nodup (blocksOk : BlocksOk cursor blocks) : (blocks.map Block.base).Nodup := by
  refine List.pairwise_map.mpr (blocksOk.apart.imp fun {b c} apart same => ?_)
  unfold Block.limit at apart
  rw [same] at apart
  omega

theorem RunInv.apart (inv : RunInv boot procs limit s live requested free blocks) :
    live.Pairwise fun a b => a.stop ≤ b.ptr.toNat ∨ b.stop ≤ a.ptr.toNat := by
  refine inv.live.distinct.imp_of_mem fun {a a'} first second different => ?_
  obtain ⟨b,listed,here,value,stop⟩ := inv.live.place inv.heap.blocksOk first
  obtain ⟨c,listed',here',value',stop'⟩ := inv.live.place inv.heap.blocksOk second
  have other : b ≠ c := by
    rintro rfl
    exact different (here.trans here'.symm)
  have apart := inv.heap.blocksOk.disjoint listed listed' other
  omega

/-- The heap is sound between any two calls of any run. -/
theorem heap_sound (ok : BootOk boot) (cpu : CpuOk boot)
    (run : HeapRun boot (HeapEmpty boot procs limit) s live requested) : HeapSound boot s live requested := by
  obtain ⟨free,blocks,inv⟩ := run.inv ok cpu
  have blocksOk := inv.heap.blocksOk
  refine ⟨?_,inv.apart,?_,?_,?_,blocks,inv.heap.list,inv.bases,inv.bases ▸ blocksOk.bases_nodup,inv.live.owned,
    fun b listed => inv.live.free_iff blocksOk listed,inv.heap.guarded,inv.heap.frugal ok⟩
  · intro a member
    obtain ⟨b,listed,_,value,_⟩ := inv.live.place blocksOk member
    have aligned := (blocksOk.start b listed).2
    unfold Aligned at aligned
    omega
  · intro a member base wanted
    rw [← inv.bases] at wanted
    obtain ⟨c,listed',rfl⟩ := List.mem_map.mp wanted
    obtain ⟨b,listed,_,value,stop⟩ := inv.live.place blocksOk member
    by_cases same : b = c
    · rw [← same]
      omega
    · have apart := blocksOk.disjoint listed listed' same
      unfold Block.limit at *
      omega
  · intro a member v low high
    obtain ⟨b,listed,_,value,stop⟩ := inv.live.place blocksOk member
    exact inv.heap.backed listed (by omega) (by omega)
  · intro a member
    obtain ⟨b,listed,here,_,_⟩ := inv.live.place blocksOk member
    obtain ⟨mem,returns,_⟩ := inv.heap.kfree ok listed
    rw [here]
    exact ⟨_,returns⟩

/-- The loop of `request_pages` never looks at the blocks. -/
theorem requestLoop_records (returns : requestLoop boot pages ⟨p,⟨[],cursor⟩⟩ = .ok (served,k)) :
    requestLoop boot pages ⟨p,⟨blocks,cursor⟩⟩ = .ok (served,⟨k.pmm,⟨blocks,k.heap.cursor⟩⟩) := by
  induction pages generalizing p cursor with
  | zero =>
    obtain ⟨rfl,rfl⟩ := ok_pair returns
    rfl
  | succ pages ih =>
    obtain ⟨⟨phys,p'⟩,taken,returns⟩ := ok_of_bind returns
    unfold requestLoop
    dsimp only at returns ⊢
    rw [taken]
    change (if phys = 0#64 then _ else _) = _
    split at returns
    · rename_i null
      obtain ⟨rfl,rfl⟩ := ok_pair returns
      rw [if_pos null]
      rfl
    · rename_i live
      obtain ⟨mapped,maps,returns⟩ := ok_of_bind returns
      rw [if_neg live]
      change (vmmMap boot boot.kernelPml4 cursor phys (pageWritable ||| pageNx) p' >>= _) = _
      rw [maps]
      exact ih returns

theorem takeBlock_setFree (blocksOk : BlocksOk cursor blocks) (taken : takeBlock size blocks = some (base,rest)) :
    rest = setFree base false blocks := by
  obtain ⟨before,b,after,rfl,rfl,_,_,rfl⟩ := takeBlock_some taken
  have member : b ∈ before ++ b :: after := by simp
  have distinct := blocksOk.bases_nodup
  rw [List.map_append,List.map_cons] at distinct
  have others : b.base ∉ before.map Block.base ∧ b.base ∉ after.map Block.base := by
    obtain ⟨_,tail,apart⟩ := List.nodup_append.mp distinct
    exact ⟨fun here => apart _ here _ (by simp) rfl,(List.nodup_cons.mp tail).1⟩
  have keep : ∀ list : List Block, b.base ∉ list.map Block.base →
      list.map (fun c => if c.base = b.base then { c with free := false } else c) = list := by
    intro list missing
    refine (List.map_congr_left fun c here => if_neg fun same => missing ?_).trans (List.map_id list)
    exact same ▸ List.mem_map_of_mem here
  unfold setFree
  rw [List.map_append,List.map_cons,keep before others.1,keep after others.2,if_pos rfl]

theorem kmalloc_taken {k : Kernel} (taken : takeBlock (roundSize size) k.heap.blocks = some (base,rest)) :
    kmalloc boot size k = .ok (base + blockHeader,⟨k.pmm,{ k.heap with blocks := rest }⟩) := by
  unfold kmalloc
  dsimp only
  rw [show (size + 15#64) &&& ~~~15#64 = roundSize size from rfl,taken]
  rfl

theorem kmalloc_requested {k k' : Kernel} (missing : takeBlock (roundSize size) k.heap.blocks = none)
    (requested : requestPages boot (blockPages size) k = .ok (base,k')) (live : base ≠ 0#64) :
    kmalloc boot size k = .ok (base + blockHeader,
      ⟨k'.pmm,{ k'.heap with blocks := newBlock base (blockPages size) :: k'.heap.blocks }⟩) := by
  unfold kmalloc
  dsimp only
  rw [show (size + 15#64) &&& ~~~15#64 = roundSize size from rfl,missing]
  change (requestPages boot (blockPages size) k >>= _) = _
  rw [requested]
  change (if base = 0#64 then _ else _) = _
  rw [if_neg live]
  rfl

/-- `kmalloc` on bytes does what it does on records of the headers. -/
theorem HeapInv.kmalloc_records (ok : BootOk boot) (cpu : CpuOk boot)
    (inv : HeapInv boot procs limit s free blocks) (bound : size.toNat ≤ 2^64 - 4128)
    (returns : s.kmalloc boot size = .ok (ptr,next)) :
    ∃ k, Reddyos.kmalloc boot size ⟨s.pmm,⟨blocks,s.cursor⟩⟩ = .ok (ptr,k) ∧ next.cursor = k.heap.cursor ∧
      BlockList boot next.pmm.mem next.head k.heap.blocks := by
  cases taken : takeBlock (roundSize size) blocks with
  | some found =>
    obtain ⟨base,rest⟩ := found
    obtain ⟨ptr',next',returns',reused⟩ := inv.reuse ok bound taken
    rw [returns'] at returns
    obtain ⟨rfl,rfl⟩ := ok_pair returns
    refine ⟨⟨s.pmm,⟨rest,s.cursor⟩⟩,reused.ptr ▸ kmalloc_taken taken,?_,?_⟩
    · rw [reused.same]
    · rw [takeBlock_setFree inv.blocksOk taken]
      exact reused.heap.list
  | none =>
    obtain ⟨_,_,_,rfl,⟨k,requested,cursor⟩,rest,heap⟩ := inv.extend ok cpu bound taken returns
    obtain ⟨⟨served,k'⟩,looped,later⟩ := ok_of_bind requested
    have nonNull : s.cursor ≠ 0#64 := nonNull_of_above inv.mapped.heapOk.low
    have records : requestPages boot (blockPages size) ⟨s.pmm,⟨blocks,s.cursor⟩⟩ =
        .ok (s.cursor,⟨k.pmm,⟨blocks,k.heap.cursor⟩⟩) := by
      unfold requestPages
      dsimp only
      rw [requestLoop_records looped]
      cases served with
      | false => exact absurd (ok_pair later).1.symm nonNull
      | true =>
        obtain ⟨_,rfl⟩ := ok_pair later
        rfl
    exact ⟨_,kmalloc_requested taken records nonNull,cursor,heap.list⟩

/-- So does `kfree`. -/
theorem HeapInv.kfree_records (ok : BootOk boot) (inv : HeapInv boot procs limit s free blocks) (member : b ∈ blocks)
    (returns : s.kfree boot (b.base + blockHeader) = .ok next) :
    BlockList boot next.pmm.mem next.head
      (Reddyos.kfree (b.base + blockHeader) ⟨s.pmm,⟨blocks,s.cursor⟩⟩).heap.blocks := by
  obtain ⟨mem,returns',inv'⟩ := inv.kfree ok member
  rw [returns'] at returns
  obtain rfl := Except.ok.inj returns
  unfold Reddyos.kfree
  rw [if_neg (aligned_header_nonNull (inv.blocksOk.start b member).2),BitVec.add_sub_cancel]
  exact inv'.list

/-- Between any two calls of any run, the calls do to the list in memory what they do to records of its headers. -/
theorem heap_records (ok : BootOk boot) (cpu : CpuOk boot)
    (run : HeapRun boot (HeapEmpty boot procs limit) s live requested) :
    ∃ blocks, BlockList boot s.pmm.mem s.head blocks ∧
      (∀ size ptr next, size.toNat ≤ 2^63 → s.kmalloc boot size = .ok (ptr,next) →
        ∃ k, Reddyos.kmalloc boot size ⟨s.pmm,⟨blocks,s.cursor⟩⟩ = .ok (ptr,k) ∧ next.cursor = k.heap.cursor ∧
          BlockList boot next.pmm.mem next.head k.heap.blocks) ∧
      ∀ a ∈ live, ∀ next, s.kfree boot a.ptr = .ok next →
        BlockList boot next.pmm.mem next.head (Reddyos.kfree a.ptr ⟨s.pmm,⟨blocks,s.cursor⟩⟩).heap.blocks := by
  obtain ⟨free,blocks,inv⟩ := run.inv ok cpu
  refine ⟨blocks,inv.heap.list,fun size ptr next bound returns => inv.heap.kmalloc_records ok cpu (by omega) returns,?_⟩
  intro a member next returns
  obtain ⟨b,listed,here,_,_⟩ := inv.live.place inv.heap.blocksOk member
  rw [here] at returns ⊢
  exact inv.heap.kfree_records ok listed returns

def heapBoot (boot : Boot) (m : Mem) : HeapBytes := ⟨pmmInit boot ⟨m,0#64,0,0#64⟩,0#64,heapStart⟩

theorem boot_mapped (ok : BootOk boot) (tables : BootTables boot m)
    (small : ∀ v : U64, heapStart.toNat ≤ v.toNat → SmallOn m boot.kernelPml4 v)
    (unmapped : ∀ v, aboveHeap v → v.toNat < limit → leafAt m boot.kernelPml4 (pathOf v) (ptIndex v) = none)
    (few : heapStart.toNat + 8192 * (frames boot).length < 2^64) :
    ∃ free, Mapped boot [] limit (fun _ => False) (pmmInit boot ⟨m,0#64,0,0#64⟩) free heapInit ∧
      (avail boot (pmmInit boot ⟨m,0#64,0,0#64⟩) free).length ≤ (frames boot).length := by
  obtain ⟨free,spaces,heapOk⟩ := boot_heap ok tables small few
  obtain ⟨_,_,same⟩ := boot_spaces ok tables
  have none : ∀ v, aboveHeap v → v.toNat < limit → heapFrame boot (pmmInit boot ⟨m,0#64,0,0#64⟩) v = none := by
    intro v above below
    unfold heapFrame leafOf
    rw [same.leafAt (adm_pathOf v (.inl rfl)) (index_lt v).2.2.2,unmapped v above below]
    rfl
  refine ⟨free,⟨spaces,heapOk,⟨nofun,nofun,fun v above below _ => none v above below⟩⟩,?_⟩
  have subset : avail boot (pmmInit boot ⟨m,0#64,0,0#64⟩) free ⊆ frames boot :=
    fun f member => avail_frame spaces.pmm member
  exact (List.subperm_of_subset spaces.pmm.nodup subset).length_le

theorem boot_heapEmpty (ok : BootOk boot) (tables : BootTables boot m)
    (small : ∀ v : U64, heapStart.toNat ≤ v.toNat → SmallOn m boot.kernelPml4 v)
    (unmapped : ∀ v, aboveHeap v → v.toNat < limit → leafAt m boot.kernelPml4 (pathOf v) (ptIndex v) = none)
    (few : heapStart.toNat + 8192 * (frames boot).length ≤ limit) (top : limit < 2^64) :
    HeapEmpty boot [] limit (heapBoot boot m) := by
  obtain ⟨free,mapped,shorter⟩ := boot_mapped ok tables small unmapped (by omega)
  refine ⟨rfl,rfl,free,mapped,?_⟩
  have same : (heapBoot boot m).pmm = pmmInit boot ⟨m,0#64,0,0#64⟩ := rfl
  rw [same]
  omega

theorem leafAt_zero (root : U64) (path : List Nat) (i : Nat) : leafAt (fun _ => 0#8) root path i = none := by
  unfold leafAt
  cases walk (child fun _ => 0#8) root path with
  | none => rfl
  | some pt =>
    rw [Option.bind_some,entry_zero,if_neg not_present_zero]

theorem fbBoot_heapEmpty : HeapEmpty fbBoot [] (2^64 - 4096) (heapBoot fbBoot fun _ => 0#8) := by
  refine boot_heapEmpty fbBoot_ok fbBoot_tables (fun v _ => smallOn_zero _ v) (fun v _ _ => leafAt_zero _ _ _) ?_
    (by decide)
  rw [fbBoot_frames]
  decide

def heapTrace : Except Stop (U64 × U64 × HeapBytes × HeapBytes × HeapBytes) := do
  let (p,s₁) ← (heapBoot fbBoot fun _ => 0#8).kmalloc fbBoot 100#64
  let (q,s₂) ← s₁.kmalloc fbBoot 5000#64
  let s₃ ← s₂.kfree fbBoot p
  return (p,q,s₁,s₂,s₃)

theorem heapTrace_calls : ∃ s₁ s₂ s₃, (heapBoot fbBoot fun _ => 0#8).kmalloc fbBoot 100#64 = .ok (0xFFFFC00000000020#64,s₁) ∧
    s₁.kmalloc fbBoot 5000#64 = .ok (0xFFFFC00000002020#64,s₂) ∧ s₂.kfree fbBoot 0xFFFFC00000000020#64 = .ok s₃ ∧
    s₁.cursor = 0xFFFFC00000002000#64 ∧ s₂.cursor = 0xFFFFC00000005000#64 := by
  have evaluated : heapTrace.toOption.map (fun r => ((r.1,r.2.1),r.2.2.1.cursor,r.2.2.2.1.cursor)) =
      some ((0xFFFFC00000000020#64,0xFFFFC00000002020#64),0xFFFFC00000002000#64,0xFFFFC00000005000#64) := by
    decide +kernel
  match result : heapTrace with
  | .error stop => rw [result] at evaluated; cases evaluated
  | .ok (p,q,s₁,s₂,s₃) =>
    rw [result] at evaluated
    simp only [Except.toOption,Option.map_some,Option.some.injEq,Prod.mk.injEq] at evaluated
    obtain ⟨⟨rfl,rfl⟩,cursor₁,cursor₂⟩ := evaluated
    obtain ⟨⟨p,s₁'⟩,first,later⟩ := ok_of_bind result
    obtain ⟨⟨q,s₂'⟩,second,later⟩ := ok_of_bind later
    obtain ⟨s₃',third,later⟩ := ok_of_bind later
    obtain ⟨rfl,rfl,rfl,rfl,rfl⟩ := ok_triple later
    exact ⟨_,_,_,first,second,third,cursor₁,cursor₂⟩

theorem heap_sound_trace : ∃ s, HeapRun fbBoot (HeapEmpty fbBoot [] (2^64 - 4096)) s
      [⟨0xFFFFC00000002020#64,5000#64⟩] [0xFFFFC00000002000#64,0xFFFFC00000000000#64] ∧
    HeapSound fbBoot s [⟨0xFFFFC00000002020#64,5000#64⟩] [0xFFFFC00000002000#64,0xFFFFC00000000000#64] := by
  obtain ⟨s₁,s₂,s₃,first,second,third,cursor₁,cursor₂⟩ := heapTrace_calls
  have begun : HeapRun fbBoot (HeapEmpty fbBoot [] (2^64 - 4096)) _ [] [] := .init fbBoot_heapEmpty
  have once := HeapRun.kmalloc begun (by decide) first
  have twice := HeapRun.kmalloc once (by decide) second
  have run := HeapRun.kfree twice (.inr ⟨⟨0xFFFFC00000000020#64,100#64⟩,by simp,rfl⟩) third
  have boot : (heapBoot fbBoot fun _ => 0#8).cursor = 0xFFFFC00000000000#64 := rfl
  simp only [requestedBase,cursor₁,cursor₂,boot] at run
  exact ⟨_,run,heap_sound fbBoot_ok fbBoot_cpu run⟩

end

end Reddyos
