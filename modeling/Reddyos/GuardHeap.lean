import Reddyos.HeapSizes
import Reddyos.PagedMemory
import Reddyos.Transitions

/-! `memory/heap.c` built with `KMALLOC_CANARY`: every allocation gets pages of its own, with a
page below and one above that are not mapped, and its addresses are never given again. -/
namespace Reddyos

open ByteMemory RadixForest PagedMemory Transitions

def isGuardBlockPtr (ptr : U64) : Bool := ptr ≠ 0#64 && ptr &&& (4096#64 - 1#64) = 0#64

/-- The fields of a new `guard_block_t` in front of `guard_head`. -/
def writeGuard (boot : Boot) (block size pages head : U64) (m : Mem) : Except Stop Mem := do
  let m ← kernelStore64 boot block blockMagic m
  let m ← kernelStore64 boot (block + 8#64) size m
  let m ← kernelStore64 boot (block + 16#64) pages m
  kernelStore64 boot (block + 24#64) head m

/-- `head` stands for `guard_head`: nothing sets the other one in this build. -/
def HeapBytes.requestGuardPages (boot : Boot) (size : U64) (s : HeapBytes) : Except Stop (U64 × HeapBytes) := do
  let usablePages := (size + 4096#64 - 1#64) / 4096#64
  let totalPages := usablePages + 3#64
  let (base,k) ← requestPages boot totalPages ⟨s.pmm,⟨[],s.cursor⟩⟩
  if base = 0#64 then return (0#64,⟨k.pmm,s.head,k.heap.cursor⟩)
  let guardLow := base + 4096#64
  let usable := base + 2#64 * 4096#64
  let guardHigh := base + 2#64 * 4096#64 + usablePages * 4096#64
  let pmm := vmmUnmap boot.kernelPml4 guardHigh (vmmUnmap boot.kernelPml4 guardLow k.pmm)
  let mem ← writeGuard boot base (usablePages * 4096#64) totalPages s.head pmm.mem
  return (usable,⟨{ pmm with mem := mem },base,k.heap.cursor⟩)

def HeapBytes.kmallocCanary (boot : Boot) (size : U64) (s : HeapBytes) : Except Stop (U64 × HeapBytes) :=
  s.requestGuardPages boot ((size + 15#64) &&& ~~~15#64)

/-- Behind the check of the guard `kfree` goes on as it does without it. -/
def HeapBytes.kfreeCanary (boot : Boot) (ptr : U64) (s : HeapBytes) : Except Stop HeapBytes := do
  if ptr = 0#64 then return s
  if isGuardBlockPtr ptr then
    let guard := ptr - 2#64 * 4096#64
    if (← kernelLoad64 boot s.pmm.mem guard) = blockMagic then
      let mem ← kernelStore64 boot guard 0#64 s.pmm.mem
      return { s with pmm := { s.pmm with mem := mem } }
  s.kfree boot ptr

def HeapBytes.kcallocCanary (boot : Boot) (count size : U64) (s : HeapBytes) : Except Stop (U64 × HeapBytes) := do
  if size ≠ 0#64 ∧ (~~~0#64) / size < count then return (0#64,s)
  let total := count * size
  let (ptr,s) ← s.kmallocCanary boot total
  if ptr = 0#64 then return (0#64,s)
  let s ← s.memset boot 0#8 total.toNat ptr
  return (ptr,s)

def HeapBytes.kmallocCanarySelftest (boot : Boot) (s : HeapBytes) : Except Stop (Bool × HeapBytes) := do
  let (p,s) ← s.kmallocCanary boot 4096#64
  if p = 0#64 then return (false,s)
  if p &&& (4096#64 - 1#64) ≠ 0#64 then return (false,s)
  return (true,s)

def Allocation.holds (a : Allocation) (v : U64) : Bool := a.ptr.toNat ≤ v.toNat && v.toNat < a.stop

/-- The heap, everything it ever gave, and what its clients made of it. -/
structure GuardHeap where
  heap : HeapBytes
  given : List Allocation
  memory : Memory U64 (BitVec 8)

inductive GuardEvent where
  | kmalloc (size : U64)
  | kcalloc (count size : U64)
  | kfree (ptr : U64)
  | store (v : U64) (byte : BitVec 8)

def GuardHeap.give (x : GuardHeap) (ptr size : U64) (contents : U64 → BitVec 8) (next : HeapBytes) : GuardHeap :=
  if ptr = 0#64 then { x with heap := next }
  else ⟨next,⟨ptr,size⟩ :: x.given,(Event.come (Allocation.holds ⟨ptr,size⟩) contents).apply x.memory⟩

def GuardHeap.take (boot : Boot) (x : GuardHeap) : GuardEvent → Option GuardHeap
  | .kmalloc size =>
    match x.heap.kmallocCanary boot size with
    | .ok (ptr,next) => some (x.give ptr size (fun v => (kernelByte boot next.pmm.mem v).getD 0#8) next)
    | .error _ => none
  | .kcalloc count size =>
    match x.heap.kcallocCanary boot count size with
    | .ok (ptr,next) => some (x.give ptr (count * size) (fun _ => 0#8) next)
    | .error _ => none
  | .kfree ptr =>
    match x.heap.kfreeCanary boot ptr with
    | .ok next => some { x with heap := next }
    | .error _ => none
  | .store v byte =>
    match x.heap.store boot v byte with
    | .ok next => some { x with heap := next, memory := (Event.store v byte).apply x.memory }
    | .error _ => none

/-- Sizes do not wrap around when they are rounded. Clients pass `kfree` what they were given, perhaps
again, and store to bytes they asked for, perhaps after they freed them. -/
def GuardOk (x : GuardHeap) : GuardEvent → Prop
  | .kmalloc size => size.toNat ≤ 2^64 - 4128
  | .kcalloc count size => count.toNat * size.toNat ≤ 2^64 - 4128 ∨ 2^64 ≤ count.toNat * size.toNat
  | .kfree ptr => ptr = 0#64 ∨ ∃ a ∈ x.given, a.ptr = ptr
  | .store v _ => ∃ a ∈ x.given, a.holds v

def GuardStep (boot : Boot) (x : GuardHeap) (e : GuardEvent) (y : GuardHeap) : Prop := x.take boot e = some y

def GuardStart (boot : Boot) (procs : List U64) (limit : Nat) (x : GuardHeap) : Prop :=
  HeapEmpty boot procs limit x.heap ∧ x.given = []

def Allocation.top (a : Allocation) : Nat := a.ptr.toNat + (a.size.toNat + 4095) / 4096 * 4096

def insideGuards (given : List Allocation) (n : Nat) : Prop :=
  ∃ a ∈ given, 4096 * n + 8192 = a.ptr.toNat ∨ a.ptr.toNat ≤ 4096 * n ∧ 4096 * n < a.top

structure GuardInv (boot : Boot) (procs : List U64) (limit : Nat) (x : GuardHeap) (free : List U64) : Prop where
  mapped : Mapped boot procs limit (insideGuards x.given) x.heap.pmm free ⟨[],x.heap.cursor⟩
  room : x.heap.cursor.toNat + 8192 * (avail boot x.heap.pmm free).length ≤ limit
  start : ∀ a ∈ x.given, heapStart.toNat + 8192 ≤ a.ptr.toNat ∧ a.ptr.toNat % 4096 = 0
  stop : ∀ a ∈ x.given, a.top + 8192 ≤ x.heap.cursor.toNat
  apart : x.given.Pairwise fun a b => b.top + 16384 ≤ a.ptr.toNat
  bytes : ∀ a ∈ x.given, ∀ v, a.holds v → x.memory v = kernelByte boot x.heap.pmm.mem v

variable {boot : Boot} {procs : List U64} {limit : Nat} {inside : Nat → Prop} {s : Pmm} {heap : Heap}
variable {free rest : List U64} {changed : Slots} {mem : Mem} {x y : GuardHeap} {t next : HeapBytes} {v w base f ptr size : U64}

theorem Window.unmap {next : Pmm} (window : Window boot procs s free limit inside) (above : aboveHeap v)
    (update : Updated boot procs s free boot.kernelPml4 (pathOf v) (ptIndex v) 0#64 next rest) :
    Window boot procs next rest limit fun n => inside n ∧ n ≠ v.toNat / 4096 := by
  have here : ∀ w, aboveHeap w → w.toNat / 4096 = v.toNat / 4096 → heapFrame boot next w = none := by
    intro w above' same
    rw [heapFrame_page above' above same]
    unfold heapFrame leafOf
    rw [update.new,if_neg not_present_zero]
    rfl
  have others : ∀ w, aboveHeap w → w.toNat / 4096 ≠ v.toNat / 4096 → heapFrame boot next w = heapFrame boot s w := by
    intro w above' different
    refine update.toEvolves.heapFrame ?_
    rintro ⟨_,path,index⟩
    exact different ((same_heap_page above' above).mp ⟨path,index⟩)
  refine ⟨?_,?_,?_⟩
  · rintro w above' ⟨member,different⟩
    obtain ⟨f,found,held⟩ := window.backed w above' member
    exact ⟨f,(others w above' different).trans found,update.toEvolves.held held⟩
  · rintro w u f above₁ above₂ ⟨member₁,different₁⟩ ⟨member₂,different₂⟩ found₁ found₂
    rw [others w above₁ different₁] at found₁
    rw [others u above₂ different₂] at found₂
    exact window.own w u f above₁ above₂ member₁ member₂ found₁ found₂
  · intro w above' below outside
    by_cases same : w.toNat / 4096 = v.toNat / 4096
    · exact here w above' same
    · rw [others w above' same]
      exact window.unmapped w above' below fun member => outside ⟨member,same⟩

theorem Mapped.unmap (ok : BootOk boot) (mapped : Mapped boot procs limit inside s free heap) (above : aboveHeap v)
    (member : inside (v.toNat / 4096)) :
    Mapped boot procs limit (fun n => inside n ∧ n ≠ v.toNat / 4096) (vmmUnmap boot.kernelPml4 v s) free heap ∧
      Evolves boot procs (fun root path j => root = boot.kernelPml4 ∧ path = pathOf v ∧ j = ptIndex v) s free
        (vmmUnmap boot.kernelPml4 v s) free := by
  obtain ⟨f,found,_⟩ := mapped.window.backed v above member
  obtain ⟨e,leaf,_⟩ := Option.map_eq_some_iff.mp found
  obtain ⟨pt,table,_⟩ := Option.bind_eq_some_iff.mp leaf
  have update := vmmUnmap_spec ok mapped.spaces (adm_pathOf v (.inl rfl)) table
  exact ⟨⟨update.spaces,mapped.heapOk.evolves update.toEvolves,mapped.window.unmap above update⟩,update.toEvolves⟩

theorem HeapOk.byte (heapOk : HeapOk boot s free heap) (above : aboveHeap v) (found : heapFrame boot s v = some f) :
    kernelByte boot s.mem v = some (s.mem (f.toNat + v.toNat % 4096)) := by
  obtain ⟨phys,translated,value⟩ := heapOk.translate above found
  unfold kernelByte
  rw [translated,Option.map_some,value]

/-- Calls that map elsewhere change no byte of the window. -/
theorem Mapped.byte_evolves {next : Pmm} (ok : BootOk boot) (mapped : Mapped boot procs limit inside s free heap)
    (evolves : Evolves boot procs changed s free next rest) (above : aboveHeap v) (member : inside (v.toNat / 4096))
    (other : ¬changed boot.kernelPml4 (pathOf v) (ptIndex v)) :
    kernelByte boot next.mem v = kernelByte boot s.mem v := by
  obtain ⟨f,found,held⟩ := mapped.window.backed v above member
  rw [mapped.heapOk.byte above found,
    (mapped.heapOk.evolves evolves).byte above ((evolves.heapFrame other).trans found),
    evolves.bytes ok mapped.spaces held (by omega) (by omega)]

theorem Mapped.byte_stored (mapped : Mapped boot procs limit inside s free heap)
    (page : PageAt boot procs s free base f) (stored : Stored boot procs limit inside s free heap base f mem)
    (here : inside (base.toNat / 4096)) (above : aboveHeap v) (member : inside (v.toNat / 4096))
    (other : v.toNat / 4096 ≠ base.toNat / 4096) : kernelByte boot mem v = kernelByte boot s.mem v := by
  obtain ⟨g,found,held⟩ := mapped.window.backed v above member
  have different : g ≠ f := by
    rintro rfl
    exact other (mapped.window.own v base g above page.above member here found page.found)
  have apart := frames_apart held.1.1 page.held.1.1 different
  have same := stored.mapped.heapOk.byte above ((stored.frames v).trans found)
  dsimp only at same
  rw [mapped.heapOk.byte above found,same,stored.outside _ (by unfold Clear; omega)]

/-- `request_pages` with nothing in the window but what is there. -/
theorem Mapped.request {k : Kernel} {pages cursor : U64} (ok : BootOk boot) (cpu : CpuOk boot)
    (mapped : Mapped boot procs limit inside s free ⟨[],cursor⟩) (room : cursor.toNat + 8192 * (avail boot s free).length ≤ limit)
    (positive : 0 < pages.toNat) (returns : requestPages boot pages ⟨s,⟨[],cursor⟩⟩ = .ok (base,k)) :
    base = cursor ∧ k.heap.cursor.toNat = cursor.toNat + 4096 * pages.toNat + 4096 ∧
      ∃ rest, Evolves boot procs (heapSlots boot cursor) s free k.pmm rest ∧
        k.heap.cursor.toNat + 8192 * (avail boot k.pmm rest).length ≤ limit ∧
        Mapped boot procs limit (fun n => inside n ∨ cursor.toNat / 4096 ≤ n ∧ n < cursor.toNat / 4096 + pages.toNat)
          k.pmm rest ⟨[],k.heap.cursor⟩ := by
  obtain ⟨⟨served,k'⟩,looped,returns⟩ := ok_of_bind returns
  obtain ⟨rfl,rest,⟨evolves,moved,taken⟩,heapOk,_,window⟩ :=
    requestLoop_window ok cpu mapped.spaces mapped.heapOk mapped.window looped
  obtain ⟨rfl,rfl⟩ := ok_pair returns
  dsimp only at evolves moved taken window ⊢
  replace evolves := evolves.weaken fun _ _ _ => windowSlots_heap
  have bound : cursor.toNat + 8192 * (avail boot s free).length < 2^64 := mapped.heapOk.room
  have low : heapStart.toNat ≤ cursor.toNat := mapped.heapOk.low
  have last : (k'.heap.cursor + 4096#64).toNat = cursor.toNat + 4096 * pages.toNat + 4096 := by
    rw [toNat_add_page (by omega),moved]
  refine ⟨rfl,last,rest,evolves,by omega,evolves.spaces,⟨heapOk.small,?_,?_,aligned_add heapOk.aligned.cursor,nofun⟩,window⟩
  · dsimp only
    omega
  · dsimp only
    omega

theorem writeGuard_spec (ok : BootOk boot) (mapped : Mapped boot procs limit inside s free heap)
    (page : PageAt boot procs s free base f) (size pages head : U64) :
    ∃ mem, writeGuard boot base size pages head s.mem = .ok mem ∧ Stored boot procs limit inside s free heap base f mem := by
  obtain ⟨m₁,first,_,stored₁⟩ := mapped.store64 ok page (show (0#64).toNat + 8 ≤ 4096 by decide) blockMagic
  obtain ⟨m₂,second,_,stored₂⟩ := stored₁.mapped.store64 ok stored₁.page (show (8#64).toNat + 8 ≤ 4096 by decide) size
  obtain ⟨m₃,third,_,stored₃⟩ := stored₂.mapped.store64 ok stored₂.page (show (16#64).toNat + 8 ≤ 4096 by decide) pages
  obtain ⟨m₄,fourth,_,stored₄⟩ := stored₃.mapped.store64 ok stored₃.page (show (24#64).toNat + 8 ≤ 4096 by decide) head
  refine ⟨m₄,?_,((stored₁.trans stored₂).trans stored₃).trans stored₄⟩
  rw [BitVec.add_zero] at first
  unfold writeGuard
  rw [first]
  change (kernelStore64 boot (base + 8#64) size m₁ >>= _) = _
  rw [second]
  change (kernelStore64 boot (base + 16#64) pages m₂ >>= _) = _
  rw [third]
  exact fourth

def usablePages (size : U64) : U64 := (roundSize size + 4096#64 - 1#64) / 4096#64

theorem usablePages_toNat (bound : size.toNat ≤ 2^64 - 4128) : (usablePages size).toNat = (size.toNat + 4095) / 4096 := by
  have rounded := roundSize_toNat bound
  unfold usablePages
  generalize roundSize size = bytes at *
  have sum : (bytes + 4096#64 - 1#64).toNat = bytes.toNat + 4095 := by bv_omega
  rw [BitVec.toNat_udiv,sum,show (4096#64).toNat = 4096 from rfl]
  omega

/-- What a call of `kmalloc` adds. -/
structure Given (boot : Boot) (procs : List U64) (limit : Nat) (x : GuardHeap) (size ptr : U64) (next : HeapBytes)
    (rest : List U64) : Prop where
  place : ptr.toNat = x.heap.cursor.toNat + 8192
  mapped : Mapped boot procs limit (insideGuards (⟨ptr,size⟩ :: x.given)) next.pmm rest ⟨[],next.cursor⟩
  room : next.cursor.toNat + 8192 * (avail boot next.pmm rest).length ≤ limit
  cursor : next.cursor.toNat = (Allocation.mk ptr size).top + 8192
  bytes : ∀ v, aboveHeap v → insideGuards x.given (v.toNat / 4096) →
    kernelByte boot next.pmm.mem v = kernelByte boot x.heap.pmm.mem v

/-- The requested pages without the two guards are the header's and the usable ones. -/
theorem GuardInv.pages (size : U64) (inv : GuardInv boot procs limit x free) (place : ptr.toNat = x.heap.cursor.toNat + 8192)
    (aligned : x.heap.cursor.toNat % 4096 = 0) (n : Nat) :
    (((insideGuards x.given n ∨ x.heap.cursor.toNat / 4096 ≤ n ∧
        n < x.heap.cursor.toNat / 4096 + ((size.toNat + 4095) / 4096 + 3)) ∧
        n ≠ (x.heap.cursor.toNat + 4096) / 4096) ∧
        n ≠ (x.heap.cursor.toNat + 8192 + (size.toNat + 4095) / 4096 * 4096) / 4096) ↔
      insideGuards (⟨ptr,size⟩ :: x.given) n := by
  unfold insideGuards Allocation.top
  constructor
  · rintro ⟨⟨⟨a,member,inside⟩ | range,notLow⟩,notHigh⟩
    · exact ⟨a,List.mem_cons_of_mem _ member,inside⟩
    · exact ⟨_,List.mem_cons_self,by dsimp only; omega⟩
  · rintro ⟨a,member,inside⟩
    rcases List.mem_cons.mp member with rfl | old
    · dsimp only at inside
      omega
    · have below := inv.stop a old
      unfold Allocation.top at below
      exact ⟨⟨.inl ⟨a,old,inside⟩,by omega⟩,by omega⟩

theorem guardHigh_toNat {cursor pages : U64} (fits : cursor.toNat + 4096 * (pages.toNat + 3) + 4096 < 2^64) :
    (cursor + 2#64 * 4096#64 + pages * 4096#64).toNat = cursor.toNat + 8192 + pages.toNat * 4096 := by
  have product : (pages * 4096#64).toNat = pages.toNat * 4096 := by
    rw [BitVec.toNat_mul,show (4096#64).toNat = 4096 from rfl]
    exact Nat.mod_eq_of_lt (by omega)
  generalize pages * 4096#64 = bytes at *
  bv_omega

theorem GuardInv.request (ok : BootOk boot) (cpu : CpuOk boot) (inv : GuardInv boot procs limit x free)
    (bound : size.toNat ≤ 2^64 - 4128) (returns : x.heap.kmallocCanary boot size = .ok (ptr,next)) :
    ∃ rest, Given boot procs limit x size ptr next rest := by
  unfold HeapBytes.kmallocCanary HeapBytes.requestGuardPages at returns
  dsimp only at returns
  rw [show ((size + 15#64 &&& ~~~15#64) + 4096#64 - 1#64) / 4096#64 = usablePages size from rfl] at returns
  obtain ⟨⟨base,k⟩,requested,returns⟩ := ok_of_bind returns
  have usable := usablePages_toNat bound
  have total : (usablePages size + 3#64).toNat = (usablePages size).toNat + 3 := by
    have : (usablePages size).toNat ≤ 2^52 := by omega
    bv_omega
  obtain ⟨rfl,moved,rest,evolves,room,mapped⟩ := inv.mapped.request ok cpu inv.room (by omega) requested
  have low : aboveHeap x.heap.cursor := inv.mapped.heapOk.low
  have aligned : x.heap.cursor.toNat % 4096 = 0 := inv.mapped.heapOk.aligned.cursor
  have top := k.heap.cursor.isLt
  have guardLow : (x.heap.cursor + 4096#64).toNat = x.heap.cursor.toNat + 4096 := toNat_add_page (by omega)
  have guardHigh := guardHigh_toNat (show x.heap.cursor.toNat + 4096 * ((usablePages size).toNat + 3) + 4096 < 2^64 by omega)
  have place : (x.heap.cursor + 2#64 * 4096#64).toNat = x.heap.cursor.toNat + 8192 := by bv_omega
  dsimp only at returns
  rw [if_neg (nonNull_of_above low)] at returns
  generalize x.heap.cursor + 2#64 * 4096#64 + usablePages size * 4096#64 = high at *
  unfold aboveHeap at low
  obtain ⟨mapped₁,evolves₁⟩ := mapped.unmap ok (v := x.heap.cursor + 4096#64) (by unfold aboveHeap; omega)
    (.inr (by omega))
  obtain ⟨mapped₂,evolves₂⟩ := mapped₁.unmap ok (v := high) (by unfold aboveHeap; omega) ⟨.inr (by omega),by omega⟩
  have header : insideGuards (⟨x.heap.cursor + 2#64 * 4096#64,size⟩ :: x.given) (x.heap.cursor.toNat / 4096) :=
    ⟨_,List.mem_cons_self,.inl (by dsimp only; omega)⟩
  have same := inv.pages size place aligned
  rw [guardLow] at mapped₁
  rw [guardLow,guardHigh,total,usable] at mapped₂
  have fenced : Mapped boot procs limit _ _ rest _ := ⟨mapped₂.spaces,mapped₂.heapOk,mapped₂.window.congr same⟩
  obtain ⟨f,page⟩ := fenced.page aligned low header
  obtain ⟨mem,written,stored⟩ := writeGuard_spec ok fenced page (usablePages size * 4096#64) (usablePages size + 3#64)
    x.heap.head
  rw [written] at returns
  obtain ⟨rfl,rfl⟩ := ok_pair returns
  refine ⟨rest,place,stored.mapped,room,?_,fun v above member => ?_⟩
  · dsimp only
    unfold Allocation.top
    dsimp only
    omega
  · have below : v.toNat / 4096 < x.heap.cursor.toNat / 4096 := by
      obtain ⟨a,old,here⟩ := member
      have stop := inv.stop a old
      unfold Allocation.top at stop here
      omega
    have slot : ∀ w, w.toNat / 4096 ≠ v.toNat / 4096 → aboveHeap w → ¬(pathOf v = pathOf w ∧ ptIndex v = ptIndex w) :=
      fun w different above' same => different ((same_heap_page above above').mp same).symm
    dsimp only
    rw [fenced.byte_stored page stored header above ((same _).mp ⟨⟨.inl member,by omega⟩,by omega⟩) (by omega),
      mapped₁.byte_evolves ok evolves₂ above ⟨.inl member,by omega⟩ fun here => slot _ (by omega) (by unfold aboveHeap; omega) here.2,
      mapped.byte_evolves ok evolves₁ above (.inl member) fun here => slot _ (by omega) (by unfold aboveHeap; omega) here.2]
    refine inv.mapped.byte_evolves ok evolves above member fun here => ?_
    have := heapSlots_above here low above
    omega

section

variable {a b : Allocation} {c : BitVec 8} {p : U64} {n : Nat} {contents : U64 → BitVec 8}

theorem Allocation.holds_iff : a.holds v = true ↔ a.ptr.toNat ≤ v.toNat ∧ v.toNat < a.stop := by
  simp [Allocation.holds]

theorem Allocation.le_top (a : Allocation) : a.ptr.toNat ≤ a.top := Nat.le_add_right ..

theorem Allocation.stop_le (a : Allocation) : a.stop ≤ a.top := by
  unfold Allocation.stop Allocation.top
  omega

/-- A byte of an allocation lies on one of its usable pages. -/
theorem GuardInv.holds (inv : GuardInv boot procs limit x free) (member : a ∈ x.given) (here : a.holds v) :
    aboveHeap v ∧ a.ptr.toNat ≤ 4096 * (v.toNat / 4096) ∧ 4096 * (v.toNat / 4096) < a.top ∧
      insideGuards x.given (v.toNat / 4096) := by
  obtain ⟨low,high⟩ := Allocation.holds_iff.mp here
  obtain ⟨start,aligned⟩ := inv.start a member
  have above : aboveHeap v := Nat.le_trans (Nat.le_of_add_right_le start) low
  have := a.stop_le
  have page : a.ptr.toNat ≤ 4096 * (v.toNat / 4096) ∧ 4096 * (v.toNat / 4096) < a.top := by omega
  exact ⟨above,page.1,page.2,a,member,.inr page⟩

theorem GuardInv.disjoint (inv : GuardInv boot procs limit x free) (first : a ∈ x.given) (second : b ∈ x.given)
    (different : a ≠ b) : b.top + 16384 ≤ a.ptr.toNat ∨ a.top + 16384 ≤ b.ptr.toNat := by
  let apart : Allocation → Allocation → Prop := fun a b => b.top + 16384 ≤ a.ptr.toNat ∨ a.top + 16384 ≤ b.ptr.toNat
  have symmetric : Std.Symm apart := ⟨fun _ _ => Or.symm⟩
  have pairwise : x.given.Pairwise apart := inv.apart.imp .inl
  exact pairwise.forall first second different

theorem GuardInv.give (inv : GuardInv boot procs limit x free) (given : Given boot procs limit x size ptr next rest)
    (agree : ∀ v, (Allocation.mk ptr size).holds v → kernelByte boot next.pmm.mem v = some (contents v)) :
    GuardInv boot procs limit (x.give ptr size contents next) rest := by
  obtain ⟨place,mapped,room,cursor,bytes⟩ := given
  have low : heapStart.toNat ≤ x.heap.cursor.toNat := inv.mapped.heapOk.low
  have aligned : x.heap.cursor.toNat % 4096 = 0 := inv.mapped.heapOk.aligned.cursor
  have live : ptr ≠ 0#64 := by
    rintro rfl
    simp at place
  have below := (Allocation.mk ptr size).le_top
  dsimp only at below
  unfold GuardHeap.give
  rw [if_neg live]
  refine ⟨mapped,room,?_,?_,List.pairwise_cons.mpr ⟨fun a old => ?_,inv.apart⟩,?_⟩
  · intro a member
    rcases List.mem_cons.mp member with rfl | old
    · dsimp only
      omega
    · exact inv.start a old
  · intro a member
    rcases List.mem_cons.mp member with rfl | old
    · exact Nat.le_of_eq cursor.symm
    · have := inv.stop a old
      dsimp only
      omega
  · have := inv.stop a old
    dsimp only
    omega
  · intro a member v here
    dsimp only [Event.apply]
    rcases List.mem_cons.mp member with rfl | old
    · rw [if_pos here,agree v here]
    · obtain ⟨above,_,page,inside⟩ := inv.holds old here
      have stop := inv.stop a old
      have outside : ¬(Allocation.mk ptr size).holds v := by
        rw [Allocation.holds_iff]
        dsimp only
        omega
      rw [if_neg outside,bytes v above inside]
      exact inv.bytes a old v here

theorem GuardInv.kmalloc (ok : BootOk boot) (cpu : CpuOk boot) (inv : GuardInv boot procs limit x free)
    (bound : size.toNat ≤ 2^64 - 4128) (returns : x.heap.kmallocCanary boot size = .ok (ptr,next)) :
    ∃ rest, GuardInv boot procs limit
      (x.give ptr size (fun v => (kernelByte boot next.pmm.mem v).getD 0#8) next) rest ∧ ptr ≠ 0#64 := by
  obtain ⟨rest,given⟩ := inv.request ok cpu bound returns
  have low : heapStart.toNat ≤ x.heap.cursor.toNat := inv.mapped.heapOk.low
  refine ⟨rest,inv.give given fun v here => ?_,?_⟩
  · obtain ⟨lower,upper⟩ := Allocation.holds_iff.mp here
    have stop := (Allocation.mk ptr size).stop_le
    have aligned : x.heap.cursor.toNat % 4096 = 0 := inv.mapped.heapOk.aligned.cursor
    have place := given.place
    dsimp only at lower
    have above : aboveHeap v := by unfold aboveHeap; omega
    have inside : insideGuards (⟨ptr,size⟩ :: x.given) (v.toNat / 4096) :=
      ⟨_,List.mem_cons_self,.inr ⟨by dsimp only; omega,by omega⟩⟩
    obtain ⟨f,found,_⟩ := given.mapped.window.backed v above inside
    rw [given.mapped.heapOk.byte above found]
    rfl
  · rintro rfl
    simpa using given.place

theorem GuardInv.store (ok : BootOk boot) (inv : GuardInv boot procs limit x free) (member : a ∈ x.given)
    (here : a.holds v) (returns : x.heap.store boot v c = .ok next) :
    GuardInv boot procs limit { x with heap := next, memory := (Event.store v c).apply x.memory } free := by
  obtain ⟨above,_,_,inside⟩ := inv.holds member here
  obtain ⟨f,found,held⟩ := inv.mapped.window.backed v above inside
  obtain ⟨phys,translated,value⟩ := inv.mapped.heapOk.translate above found
  unfold HeapBytes.store kernelAddr at returns
  rw [translated] at returns
  obtain rfl := Except.ok.inj returns
  have outside : ∀ b, Clear f b → fill x.heap.pmm.mem phys.toNat c 1 b = x.heap.pmm.mem b := by
    intro b apart
    unfold Clear at apart
    exact fill_outside (by omega)
  obtain ⟨mapped,frames,_⟩ := inv.mapped.write ok held outside
  refine ⟨mapped,inv.room,inv.start,inv.stop,inv.apart,fun b listed w there => ?_⟩
  obtain ⟨above',_,_,inside'⟩ := inv.holds listed there
  obtain ⟨g,found',held'⟩ := inv.mapped.window.backed w above' inside'
  have before := inv.mapped.heapOk.byte above' found'
  have after := mapped.heapOk.byte above' ((frames w).trans found')
  rw [← inv.bytes b listed w there] at before
  dsimp only [Event.apply] at after ⊢
  rw [after]
  by_cases same : w = v
  · subst same
    obtain rfl := Option.some.inj (found.symm.trans found')
    rw [if_pos rfl,before,fill_inside (by omega) (by omega)]
    rfl
  · rw [if_neg same,before]
    refine congrArg some (fill_outside ?_).symm
    by_cases page : w.toNat / 4096 = v.toNat / 4096
    · obtain rfl := Option.some.inj (found.symm.trans ((heapFrame_page above' above page).symm.trans found'))
      have : w.toNat ≠ v.toNat := fun equal => same (BitVec.eq_of_toNat_eq equal)
      omega
    · have different : g ≠ f := by
        rintro rfl
        exact page (inv.mapped.window.own w v g above' above inside' inside found' found)
      have := frames_apart held'.1.1 held.1.1 different
      omega

/-- The page of a header holds no byte of an allocation. -/
theorem GuardInv.header_apart (inv : GuardInv boot procs limit x free) (member : a ∈ x.given) (listed : b ∈ x.given)
    (here : b.holds v) (header : base.toNat + 8192 = a.ptr.toNat) : v.toNat / 4096 ≠ base.toNat / 4096 := by
  obtain ⟨_,low,high,_⟩ := inv.holds listed here
  obtain ⟨_,aligned⟩ := inv.start a member
  by_cases same : b = a
  · rw [same] at low
    omega
  · have := inv.disjoint listed member same
    have := a.le_top
    omega

/-- A page-aligned pointer has no header right in front of it. -/
theorem kfree_aligned_page (aligned : p.toNat % 4096 = 0) : t.kfree boot p = .ok t := by
  have low : (p - blockHeader).toNat % 4096 = 4064 := by
    rw [BitVec.toNat_sub,show blockHeader.toNat = 32 from rfl]
    omega
  have masked : (p - blockHeader) &&& (4096#64 - 1#64) ≠ 0#64 := by
    intro zero
    have rounded := Words.toNat_and_low (p - blockHeader) 12 (by decide)
    rw [show BitVec.ofNat 64 (2^12 - 1) = 4096#64 - 1#64 by decide,zero] at rounded
    change 0 = (p - blockHeader).toNat % 4096 at rounded
    omega
  have nonNull : p - blockHeader ≠ 0#64 := fun zero => masked (by rw [zero]; rfl)
  unfold HeapBytes.kfree blockIsValid
  by_cases null : p = 0#64
  · rw [if_pos null]
    rfl
  · rw [if_neg null]
    dsimp only
    rw [if_neg nonNull,if_pos masked]
    rfl

/-- `kfree` of what was given returns, the second time as well, and no client sees it. -/
theorem GuardInv.kfree (ok : BootOk boot) (inv : GuardInv boot procs limit x free) (member : a ∈ x.given) :
    ∃ next, x.heap.kfreeCanary boot a.ptr = .ok next ∧ GuardInv boot procs limit { x with heap := next } free := by
  obtain ⟨start,aligned⟩ := inv.start a member
  obtain ⟨base,place⟩ : ∃ base : U64, base = a.ptr - 2#64 * 4096#64 := ⟨_,rfl⟩
  have header : base.toNat + 8192 = a.ptr.toNat := by bv_omega
  have first : Aligned base := by
    unfold Aligned
    omega
  have above : aboveHeap base := Nat.le_of_add_le_add_right (header ▸ start)
  have here : insideGuards x.given (base.toNat / 4096) := ⟨a,member,.inl (by omega)⟩
  obtain ⟨f,page⟩ := inv.mapped.page first above here
  have live : a.ptr ≠ 0#64 := by
    intro zero
    rw [zero] at header
    simp at header
  have masked : a.ptr &&& (4096#64 - 1#64) = 0#64 := low_bits_zero aligned
  have guardPtr : isGuardBlockPtr a.ptr = true := by
    unfold isGuardBlockPtr
    rw [masked]
    simp [live]
  obtain ⟨mem,stored,_,kept⟩ := inv.mapped.store64 ok page (show (0#64).toNat + 8 ≤ 4096 by decide) 0#64
  have readable : kernelAddr boot x.heap.pmm.mem (base + 0#64) = .ok _ := page.addr inv.mapped.heapOk (by decide)
  rw [BitVec.add_zero] at stored readable
  unfold HeapBytes.kfreeCanary kernelLoad64
  rw [if_neg live,guardPtr]
  dsimp only
  rw [if_pos rfl,← place,readable]
  change ∃ next, (if load64 _ _ = blockMagic then _ else _) = _ ∧ _
  split
  · refine ⟨{ x.heap with pmm := { x.heap.pmm with mem := mem } },?_,kept.mapped,inv.room,inv.start,inv.stop,inv.apart,?_⟩
    · rw [stored]
      rfl
    · intro b listed v there
      obtain ⟨above',_,_,inside⟩ := inv.holds listed there
      rw [inv.bytes b listed v there]
      exact (inv.mapped.byte_stored page kept here above' inside (inv.header_apart member listed there header)).symm
  · exact ⟨x.heap,kfree_aligned_page aligned,inv⟩

theorem GuardInv.memset (ok : BootOk boot) (inv : GuardInv boot procs limit x free) (member : a ∈ x.given)
    (low : a.ptr.toNat ≤ p.toNat) (high : p.toNat + n ≤ a.stop) (returns : x.heap.memset boot c n p = .ok next) :
    GuardInv boot procs limit ⟨next,x.given,fun v =>
      if p.toNat ≤ v.toNat ∧ v.toNat < p.toNat + n then (x.memory v).map fun _ => c else x.memory v⟩ free := by
  induction n generalizing x p with
  | zero =>
    obtain rfl := Except.ok.inj returns
    refine cast (congrArg (GuardInv boot procs limit · free) ?_) inv
    refine congrArg (GuardHeap.mk _ _) (funext fun v => (if_neg ?_).symm)
    omega
  | succ n ih =>
    obtain ⟨middle,stored,returns⟩ := ok_of_bind returns
    have here : a.holds p := Allocation.holds_iff.mpr ⟨low,by omega⟩
    have once := inv.store ok member here stored
    have stop := inv.stop a member
    have := a.stop_le
    have := x.heap.cursor.isLt
    have moved : (p + 1#64).toNat = p.toNat + 1 := by bv_omega
    have rest := ih once member (by omega) (by omega) returns
    refine cast (congrArg (GuardInv boot procs limit · free) ?_) rest
    refine congrArg (GuardHeap.mk _ _) (funext fun v => ?_)
    dsimp only [Event.apply]
    rw [moved]
    by_cases same : v = p
    · subst same
      rw [if_neg (by omega),if_pos rfl,if_pos (by omega)]
    · have : v.toNat ≠ p.toNat := fun equal => same (BitVec.eq_of_toNat_eq equal)
      rw [if_neg same]
      exact if_congr (by omega) rfl rfl

theorem GuardInv.kcalloc {count : U64} (ok : BootOk boot) (cpu : CpuOk boot) (inv : GuardInv boot procs limit x free)
    (bound : count.toNat * size.toNat ≤ 2^64 - 4128) (returns : x.heap.kcallocCanary boot count size = .ok (ptr,next)) :
    ∃ rest, GuardInv boot procs limit (x.give ptr (count * size) (fun _ => 0#8) next) rest := by
  have product := kcalloc_product (show count.toNat * size.toNat < 2^64 by omega)
  unfold HeapBytes.kcallocCanary at returns
  rw [if_neg (by rw [kcalloc_guard]; omega)] at returns
  obtain ⟨⟨ptr',middle⟩,allocated,returns⟩ := ok_of_bind returns
  obtain ⟨rest,given,live⟩ := inv.kmalloc ok cpu (product.symm ▸ bound) allocated
  dsimp only at returns
  rw [if_neg live] at returns
  obtain ⟨last,cleared,returns⟩ := ok_of_bind returns
  obtain ⟨rfl,rfl⟩ := ok_pair returns
  unfold GuardHeap.give at given ⊢
  rw [if_neg live] at given ⊢
  have zeroed := given.memset ok List.mem_cons_self (Nat.le_refl _) (Nat.le_refl _) cleared
  refine ⟨rest,cast (congrArg (GuardInv boot procs limit · rest) ?_) zeroed⟩
  refine congrArg (GuardHeap.mk _ _) (funext fun v => ?_)
  dsimp only [Event.apply]
  have range : (Allocation.mk ptr' (count * size)).holds v = true ↔
    ptr'.toNat ≤ v.toNat ∧ v.toNat < ptr'.toNat + (count * size).toNat := Allocation.holds_iff
  by_cases here : (Allocation.mk ptr' (count * size)).holds v
  · rw [if_pos (range.mp here),if_pos here,if_pos here]
    rfl
  · rw [if_neg (range.not.mp here),if_neg here,if_neg here]

theorem kcallocCanary_refuses {count : U64} (large : 2^64 ≤ count.toNat * size.toNat) :
    t.kcallocCanary boot count size = .ok (0#64,t) := by
  unfold HeapBytes.kcallocCanary
  rw [if_pos (kcalloc_guard.mpr large)]
  rfl

theorem GuardInv.step {e : GuardEvent} (ok : BootOk boot) (cpu : CpuOk boot) (inv : GuardInv boot procs limit x free)
    (allowed : GuardOk x e) (moves : GuardStep boot x e y) : ∃ rest, GuardInv boot procs limit y rest := by
  unfold GuardStep GuardHeap.take at moves
  cases e with
  | kmalloc size =>
    dsimp only at moves
    split at moves
    · rename_i returns
      obtain rfl := Option.some.inj moves
      obtain ⟨rest,inv,_⟩ := inv.kmalloc ok cpu allowed returns
      exact ⟨rest,inv⟩
    · cases moves
  | kcalloc count size =>
    dsimp only at moves
    split at moves
    · rename_i ptr next returns
      obtain rfl := Option.some.inj moves
      rcases allowed with fits | large
      · exact inv.kcalloc ok cpu fits returns
      · rw [kcallocCanary_refuses large] at returns
        obtain ⟨rfl,rfl⟩ := ok_pair returns
        exact ⟨free,inv⟩
    · cases moves
  | kfree ptr =>
    dsimp only at moves
    split at moves
    · rename_i next returns
      obtain rfl := Option.some.inj moves
      rcases allowed with rfl | ⟨a,member,rfl⟩
      · obtain rfl := Except.ok.inj returns
        exact ⟨free,inv⟩
      · obtain ⟨next',returns',inv⟩ := inv.kfree ok member
        obtain rfl := Except.ok.inj (returns.symm.trans returns')
        exact ⟨free,inv⟩
    · cases moves
  | store v byte =>
    dsimp only at moves
    split at moves
    · rename_i next returns
      obtain rfl := Option.some.inj moves
      obtain ⟨a,member,here⟩ := allowed
      exact ⟨free,inv.store ok member here returns⟩
    · cases moves

theorem GuardStart.inv (begins : GuardStart boot procs limit x) : ∃ free, GuardInv boot procs limit x free := by
  obtain ⟨⟨_,cursor,free,mapped,room⟩,none⟩ := begins
  have nobody : ∀ a ∈ x.given, False := fun a member => by simp [none] at member
  refine ⟨free,?_,by rwa [cursor],fun a member => (nobody a member).elim,fun a member => (nobody a member).elim,
    none ▸ .nil,fun a member => (nobody a member).elim⟩
  rw [cursor]
  refine ⟨mapped.spaces,mapped.heapOk,mapped.window.congr fun n => ⟨False.elim,fun ⟨a,member,_⟩ => nobody a member⟩⟩

end

def FaultsOn (boot : Boot) (m : Mem) (page : Nat) : Prop :=
  page % 4096 = 0 ∧ ∀ v : U64, page ≤ v.toNat → v.toNat < page + 4096 → mmuTranslate m boot.kernelPml4 v = none

/-- Every allocation ever given keeps its addresses and its bytes for itself, and has a page in front of
its own pages and two behind them on which the kernel faults. -/
structure GuardSound (boot : Boot) (x : GuardHeap) : Prop where
  apart : x.given.Pairwise fun a b => b.stop + 16384 ≤ a.ptr.toNat
  bytes : ∀ a ∈ x.given, ∀ v, a.holds v → ∃ b, x.memory v = some b ∧ kernelByte boot x.heap.pmm.mem v = some b
  low : ∀ a ∈ x.given, FaultsOn boot x.heap.pmm.mem (a.ptr.toNat - 4096)
  high : ∀ a ∈ x.given, ∃ top, a.stop ≤ top ∧ top < a.stop + 4096 ∧ FaultsOn boot x.heap.pmm.mem top ∧
    FaultsOn boot x.heap.pmm.mem (top + 4096)
  frees : ∀ a ∈ x.given, ∃ next, x.heap.kfreeCanary boot a.ptr = .ok next
  selftest : ∀ passed next, x.heap.kmallocCanarySelftest boot = .ok (passed,next) → passed = true

theorem GuardInv.selftest {passed : Bool} (ok : BootOk boot) (cpu : CpuOk boot) (inv : GuardInv boot procs limit x free)
    (returns : x.heap.kmallocCanarySelftest boot = .ok (passed,next)) : passed = true := by
  obtain ⟨⟨p,after⟩,allocated,returns⟩ := ok_of_bind returns
  obtain ⟨rest,given⟩ := inv.request ok cpu (by decide) allocated
  have aligned : x.heap.cursor.toNat % 4096 = 0 := inv.mapped.heapOk.aligned.cursor
  have place := given.place
  have page : Aligned p := by
    unfold Aligned
    omega
  have live : p ≠ 0#64 := by
    rintro rfl
    simp at place
  dsimp only at returns
  rw [if_neg live,if_neg (not_not.mpr (low_bits_zero page))] at returns
  exact (ok_pair returns).1.symm

theorem GuardInv.faults (inv : GuardInv boot procs limit x free) {page : Nat} (aligned : page % 4096 = 0)
    (low : heapStart.toNat ≤ page) (high : page + 4096 ≤ x.heap.cursor.toNat)
    (outside : ¬insideGuards x.given (page / 4096)) : FaultsOn boot x.heap.pmm.mem page := by
  refine ⟨aligned,fun v first last => ?_⟩
  have above : aboveHeap v := Nat.le_trans low first
  have room := inv.room
  have same : v.toNat / 4096 = page / 4096 := by omega
  exact inv.mapped.heapOk.translate_none above (inv.mapped.window.unmapped v above (by omega) (same ▸ outside))

/-- No page of another allocation lies within two pages of one. -/
theorem GuardInv.outside {a : Allocation} (inv : GuardInv boot procs limit x free) (member : a ∈ x.given)
    (near : n * 4096 + 4096 = a.ptr.toNat ∨ n * 4096 = a.top ∨ n * 4096 = a.top + 4096) : ¬insideGuards x.given n := by
  rintro ⟨b,listed,inside⟩
  have le := a.le_top
  by_cases same : b = a
  · subst same
    omega
  · have := inv.disjoint listed member same
    have := b.le_top
    omega

/-- Over any run in which clients may also store to what they freed and free it again. -/
theorem guard_heap (ok : BootOk boot) (cpu : CpuOk boot)
    (run : Run (GuardStart boot procs limit) (GuardStep boot) GuardOk events x) : GuardSound boot x := by
  obtain ⟨free,inv⟩ := run.invariant (fun _ x => ∃ free, GuardInv boot procs limit x free)
    (fun _ begins => begins.inv) fun _ _ _ _ ⟨_,inv⟩ allowed moves => inv.step ok cpu allowed moves
  refine ⟨inv.apart.imp fun {a b} apart => Nat.le_trans (Nat.add_le_add_right b.stop_le _) apart,?_,?_,?_,?_,
    fun _ _ => inv.selftest ok cpu⟩
  · intro a member v here
    obtain ⟨above,_,_,inside⟩ := inv.holds member here
    obtain ⟨f,found,_⟩ := inv.mapped.window.backed v above inside
    have byte := inv.mapped.heapOk.byte above found
    exact ⟨_,(inv.bytes a member v here).trans byte,byte⟩
  · intro a member
    obtain ⟨start,aligned⟩ := inv.start a member
    have stop := inv.stop a member
    have le := a.le_top
    have low : heapStart.toNat ≤ a.ptr.toNat - 4096 := Nat.le_sub_of_add_le (Nat.le_trans (Nat.add_le_add_left (by decide) _) start)
    exact inv.faults (by omega) low (by omega) (inv.outside member (.inl (by omega)))
  · intro a member
    obtain ⟨start,aligned⟩ := inv.start a member
    have stop := inv.stop a member
    have le := a.le_top
    have low : heapStart.toNat ≤ a.top := Nat.le_trans (Nat.le_of_add_right_le start) le
    have page : a.top % 4096 = 0 := by unfold Allocation.top; omega
    refine ⟨a.top,a.stop_le,?_,inv.faults page low (by omega) (inv.outside member (.inr (.inl (by omega)))),
      inv.faults (by omega) (Nat.le_add_right_of_le low) (by omega) (inv.outside member (.inr (.inr (by omega))))⟩
    unfold Allocation.top Allocation.stop
    omega
  · intro a member
    obtain ⟨next,returns,_⟩ := inv.kfree ok member
    exact ⟨next,returns⟩

def guardEvents : List GuardEvent :=
  [.kmalloc 100#64,.kcalloc 2#64 8#64,.kfree 0xFFFFC00000002000#64,.kfree 0xFFFFC00000002000#64,
    .store 0xFFFFC00000002063#64 7#8]

def guardBoot : GuardHeap := ⟨heapBoot fbBoot fun _ => 0#8,[],fun _ => none⟩

instance (x : GuardHeap) : (e : GuardEvent) → Decidable (GuardOk x e)
  | .kmalloc size => inferInstanceAs (Decidable (size.toNat ≤ 2^64 - 4128))
  | .kcalloc count size =>
    inferInstanceAs (Decidable (count.toNat * size.toNat ≤ 2^64 - 4128 ∨ 2^64 ≤ count.toNat * size.toNat))
  | .kfree ptr => inferInstanceAs (Decidable (ptr = 0#64 ∨ ∃ a ∈ x.given, a.ptr = ptr))
  | .store v _ => inferInstanceAs (Decidable (∃ a ∈ x.given, a.holds v))

def GuardHeap.takeOk (boot : Boot) (x : GuardHeap) (e : GuardEvent) : Option GuardHeap :=
  if GuardOk x e then x.take boot e else none

theorem guard_heap_twice : ∃ x, x.given = [⟨0xFFFFC00000007000#64,16#64⟩,⟨0xFFFFC00000002000#64,100#64⟩] ∧
    x.memory 0xFFFFC00000002063#64 = some 7#8 ∧ x.memory 0xFFFFC0000000700F#64 = some 0#8 ∧ GuardSound fbBoot x := by
  have evaluated : (guardEvents.foldlM (GuardHeap.takeOk fbBoot) guardBoot).map (fun x =>
      (x.given,x.memory 0xFFFFC00000002063#64,x.memory 0xFFFFC0000000700F#64)) =
      some ([⟨0xFFFFC00000007000#64,16#64⟩,⟨0xFFFFC00000002000#64,100#64⟩],some 7#8,some 0#8) := by decide +kernel
  obtain ⟨x,folds,values⟩ := Option.map_eq_some_iff.mp evaluated
  simp only [Prod.mk.injEq] at values
  have begun : Run (GuardStart fbBoot [] (2^64 - 4096)) (GuardStep fbBoot) GuardOk [] guardBoot :=
    .start ⟨fbBoot_heapEmpty,rfl⟩
  have run := begun.fold (fun x e y moves => by
    unfold GuardHeap.takeOk at moves
    split at moves
    · exact ⟨‹_›,moves⟩
    · cases moves) folds
  exact ⟨x,values.1,values.2.1,values.2.2,guard_heap fbBoot_ok fbBoot_cpu run⟩

end Reddyos
