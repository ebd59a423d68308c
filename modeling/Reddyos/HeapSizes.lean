import Reddyos.HeapRun

/-! Sizes near the end of the address space: up to `2^64 - 4128` bytes `kmalloc` and `kcalloc` hand out
blocks that are as large as asked for, and beyond that their sums wrap around. -/
namespace Reddyos

open ByteMemory RadixForest LinkedChain

/-- The loop of `memset`. -/
def HeapBytes.memset (boot : Boot) (byte : BitVec 8) : Nat → U64 → HeapBytes → Except Stop HeapBytes
  | 0, _, s => return s
  | n + 1, v, s => do
    let s ← s.store boot v byte
    memset boot byte n (v + 1#64) s

def HeapBytes.kcalloc (boot : Boot) (count size : U64) (s : HeapBytes) : Except Stop (U64 × HeapBytes) := do
  if size ≠ 0#64 ∧ (~~~0#64) / size < count then return (0#64,s)
  let total := count * size
  let (ptr,s) ← s.kmalloc boot total
  if ptr = 0#64 then return (0#64,s)
  let s ← s.memset boot 0#8 total.toNat ptr
  return (ptr,s)

/-- States reached by calls that return, with the allocations that are live. Sizes are not so large that
rounding them wraps around. -/
inductive HeapCalls (boot : Boot) (start : HeapBytes → Prop) : HeapBytes → List Allocation → Prop where
  | init : start s → HeapCalls boot start s []
  | kmalloc : HeapCalls boot start s live → size.toNat ≤ 2^64 - 4128 → s.kmalloc boot size = .ok (ptr,next) →
      HeapCalls boot start next (if ptr = 0#64 then live else ⟨ptr,size⟩ :: live)
  | kcalloc : HeapCalls boot start s live →
      count.toNat * size.toNat ≤ 2^64 - 4128 ∨ 2^64 ≤ count.toNat * size.toNat →
      s.kcalloc boot count size = .ok (ptr,next) →
      HeapCalls boot start next (if ptr = 0#64 then live else ⟨ptr,count * size⟩ :: live)
  | kfree : HeapCalls boot start s live → ptr = 0#64 ∨ (∃ a ∈ live, a.ptr = ptr) →
      s.kfree boot ptr = .ok next → HeapCalls boot start next (live.filter (·.ptr ≠ ptr))
  | store : HeapCalls boot start s live → a ∈ live → off < a.size →
      s.store boot (a.ptr + off) byte = .ok next → HeapCalls boot start next live

/-- `ptr` points behind the header of a block with room for `bytes`, all of it in mapped pages. -/
def Provides (boot : Boot) (s : HeapBytes) (ptr : U64) (bytes : Nat) : Prop :=
  ∃ capacity : U64, kernelLoad64 boot s.pmm.mem (sizeAt (ptr - blockHeader)) = .ok capacity ∧
    bytes ≤ capacity.toNat ∧ ptr.toNat + capacity.toNat < 2^64 ∧
    ∀ v : U64, ptr.toNat ≤ v.toNat → v.toNat < ptr.toNat + capacity.toNat →
      ∃ phys, mmuTranslate s.pmm.mem boot.kernelPml4 v = some phys

/-- A call that returns a null pointer or enough memory, or panics when no memory is left. -/
def Serves (boot : Boot) (bytes : Nat) : Except Stop (U64 × HeapBytes) → Prop
  | .ok (ptr,next) => ptr = 0#64 ∨ Provides boot next ptr bytes
  | .error stop => ∃ message, stop = .panic message

/-- The size and the number of pages come out as they do without wrap-around. -/
def RoundsExactly (size : U64) : Prop :=
  (roundSize size).toNat = (size.toNat + 15) / 16 * 16 ∧
    (blockPages size).toNat = ((size.toNat + 15) / 16 * 16 + 32 + 4095) / 4096

def KmallocServes (boot : Boot) (s : HeapBytes) (size : U64) : Prop :=
  Serves boot size.toNat (s.kmalloc boot size) ∧ RoundsExactly size

def KcallocServes (boot : Boot) (s : HeapBytes) (count size : U64) : Prop :=
  Serves boot (count.toNat * size.toNat) (s.kcalloc boot count size) ∧
    (count.toNat * size.toNat < 2^64 → RoundsExactly (count * size))

variable {boot : Boot} {procs : List U64} {limit : Nat} {free : List U64} {blocks : List Block}
variable {s next : HeapBytes} {size ptr count : U64} {b : Block} {live : List Allocation} {requested : List U64}

theorem roundsExactly_iff : RoundsExactly size ↔ size.toNat ≤ 2^64 - 4128 := by
  constructor
  · rintro ⟨_,pages⟩
    by_contra large
    have few : (blockPages size).toNat < 2^52 := by
      unfold blockPages
      rw [BitVec.toNat_udiv,show (4096#64).toNat = 4096 from rfl]
      have := (blockHeader + roundSize size + 4096#64 - 1#64).isLt
      omega
    omega
  · intro bound
    have rounded := roundSize_toNat bound
    refine ⟨rounded,?_⟩
    rw [blockPages_toNat bound,rounded]

/-- The check of `kcalloc` refuses exactly the products that do not fit. -/
theorem kcalloc_guard : (size ≠ 0#64 ∧ (~~~0#64) / size < count) ↔ 2^64 ≤ count.toNat * size.toNat := by
  have zero : size = 0#64 ↔ size.toNat = 0 := ⟨fun h => by rw [h]; rfl,fun h => BitVec.eq_of_toNat_eq h⟩
  rw [BitVec.lt_def,BitVec.toNat_udiv,show (~~~0#64).toNat = 2^64 - 1 by decide,ne_eq,zero]
  constructor
  · rintro ⟨live,above⟩
    have := (Nat.div_lt_iff_lt_mul (by omega)).mp above
    omega
  · intro above
    have live : 0 < size.toNat := Nat.pos_of_ne_zero fun none => by simp [none] at above
    exact ⟨by omega,(Nat.div_lt_iff_lt_mul live).mpr (by omega)⟩

theorem error_of_bind {first : Except ε α} {rest : α → Except ε β} (stops : first >>= rest = .error e) :
    first = .error e ∨ ∃ a, first = .ok a ∧ rest a = .error e := by
  cases first with
  | error e => exact .inl (congrArg Except.error (Except.error.inj stops))
  | ok a => exact .inr ⟨a,rfl,stops⟩

theorem popPage_stops {s : Pmm} (stops : popPage boot s = .error stop) : ∃ message, stop = .panic message := by
  unfold popPage at stops
  split at stops
  · exact ⟨_,(Except.error.inj stops).symm⟩
  · cases stops

theorem getNext_stops {s : Pmm} (stops : getNext boot table i flags s = .error stop) :
    ∃ message, stop = .panic message := by
  unfold getNext at stops
  split at stops
  · rcases error_of_bind stops with first | ⟨_,_,rest⟩
    · rcases error_of_bind first with alloc | ⟨_,_,rest⟩
      · exact popPage_stops alloc
      · cases rest
    · cases rest
  · cases stops

theorem vmmMap_stops {s : Pmm} (stops : vmmMap boot root v phys flags s = .error stop) :
    ∃ message, stop = .panic message := by
  unfold vmmMap at stops
  split at stops
  · exact ⟨_,(Except.error.inj stops).symm⟩
  rcases error_of_bind stops with first | ⟨_,_,stops⟩
  · exact getNext_stops first
  rcases error_of_bind stops with second | ⟨_,_,stops⟩
  · exact getNext_stops second
  rcases error_of_bind stops with third | ⟨_,_,stops⟩
  · exact getNext_stops third
  · cases stops

theorem requestLoop_stops {k : Kernel} (stops : requestLoop boot pages k = .error stop) :
    ∃ message, stop = .panic message := by
  induction pages generalizing k with
  | zero => cases stops
  | succ pages ih =>
    rcases error_of_bind stops with alloc | ⟨⟨phys,pmm⟩,_,stops⟩
    · exact popPage_stops alloc
    dsimp only at stops
    split at stops
    · cases stops
    rcases error_of_bind stops with maps | ⟨_,_,stops⟩
    · exact vmmMap_stops maps
    · exact ih stops

/-- `kmalloc` of a size that is rounded without wrap stops only for want of memory. -/
theorem HeapInv.kmalloc_stops (ok : BootOk boot) (cpu : CpuOk boot) (inv : HeapInv boot procs limit s free blocks)
    (bound : size.toNat ≤ 2^64 - 4128) (stops : s.kmalloc boot size = .error stop) :
    ∃ message, stop = .panic message := by
  cases taken : takeBlock (roundSize size) blocks with
  | some found =>
    obtain ⟨_,_,returns,_⟩ := inv.reuse ok bound taken
    rw [returns] at stops
    cases stops
  | none =>
    have found := inv.search (roundSize size)
    rw [taken,Option.map_none] at found
    unfold HeapBytes.kmalloc at stops
    change (searchBlocks boot (roundSize size) s.pmm.mem (2^52 + 1) s.head >>= _) = _ at stops
    rw [found] at stops
    change (requestPages boot (blockPages size) ⟨s.pmm,⟨[],s.cursor⟩⟩ >>= _) = _ at stops
    rcases error_of_bind stops with request | ⟨⟨base,k⟩,requested,stops⟩
    · rcases error_of_bind request with loop | ⟨⟨served,_⟩,_,rest⟩
      · exact requestLoop_stops loop
      · dsimp only at rest
        split at rest <;> cases rest
    · have pages := blockPages_toNat bound
      obtain ⟨rfl,live,_,_,_,mem,written,_⟩ := inv.request ok cpu (by omega) requested
      dsimp only at stops
      rw [if_neg live] at stops
      change (writeHeader boot s.cursor (newBlock s.cursor (blockPages size)).size s.head k.pmm.mem >>= _) = _ at stops
      rw [written] at stops
      cases stops

/-- A live allocation is as large as it was asked to be. -/
theorem RunInv.provides (inv : RunInv boot procs limit s live requested free blocks) (member : a ∈ live) :
    Provides boot s a.ptr a.size.toNat := by
  obtain ⟨b,listed,_,here,fits⟩ := inv.live.owned a member
  have value := inv.heap.blocksOk.ptr_toNat listed
  have below := (inv.heap.blocksOk.stop b listed).2
  have top := s.cursor.isLt
  have header := (inv.heap.list.headers b listed).size
  unfold Block.limit at below
  rw [here]
  refine ⟨b.size,?_,fits,by omega,fun v low high => ?_⟩
  · rw [BitVec.add_sub_cancel]
    exact header
  · refine (inv.heap.backed listed (by omega) ?_).2
    unfold Block.limit
    omega

theorem RunInv.kmalloc_serves (ok : BootOk boot) (cpu : CpuOk boot)
    (inv : RunInv boot procs limit s live requested free blocks) (bound : size.toNat ≤ 2^64 - 4128) :
    Serves boot size.toNat (s.kmalloc boot size) := by
  cases returns : s.kmalloc boot size with
  | error stop => exact inv.heap.kmalloc_stops ok cpu bound returns
  | ok result =>
    obtain ⟨ptr,next⟩ := result
    obtain ⟨_,_,inv'⟩ := inv.kmalloc ok cpu bound returns
    change ptr = 0#64 ∨ Provides boot next ptr size.toNat
    by_cases null : ptr = 0#64
    · exact .inl null
    · rw [if_neg null] at inv'
      have provided := inv'.provides List.mem_cons_self
      exact .inr provided

/-- `memset` of bytes that were asked for returns. -/
theorem RunInv.memset (byte : BitVec 8) (ok : BootOk boot) (inv : RunInv boot procs limit s live requested free blocks)
    (member : a ∈ live) (i n : Nat) (inside : i + n ≤ a.size.toNat) :
    ∃ next, s.memset boot byte n (a.ptr + BitVec.ofNat 64 i) = .ok next ∧
      RunInv boot procs limit next live requested free blocks := by
  induction n generalizing s i with
  | zero => exact ⟨s,rfl,inv⟩
  | succ n ih =>
    have small : (BitVec.ofNat 64 i).toNat = i := by
      have := a.size.isLt
      rw [BitVec.toNat_ofNat]
      exact Nat.mod_eq_of_lt (by omega)
    have here : BitVec.ofNat 64 i < a.size := by
      rw [BitVec.lt_def,small]
      omega
    obtain ⟨middle,stored,inv'⟩ : ∃ middle, s.store boot (a.ptr + BitVec.ofNat 64 i) byte = .ok middle ∧ _ :=
      inv.stores ok member here
    obtain ⟨next,later,inv''⟩ := ih inv' (i + 1) (by omega)
    refine ⟨next,?_,inv''⟩
    rw [BitVec.ofNat_add,← BitVec.add_assoc] at later
    unfold HeapBytes.memset
    rw [stored]
    exact later

theorem kcalloc_product (fits : count.toNat * size.toNat < 2^64) :
    (count * size).toNat = count.toNat * size.toNat := by
  rw [BitVec.toNat_mul]
  exact Nat.mod_eq_of_lt fits

/-- `kcalloc` of a product that fits is `kmalloc` of it, zeroed. -/
theorem RunInv.kcalloc (ok : BootOk boot) (cpu : CpuOk boot)
    (inv : RunInv boot procs limit s live requested free blocks)
    (fits : count.toNat * size.toNat ≤ 2^64 - 4128) (taken : s.kmalloc boot (count * size) = .ok (ptr,middle)) :
    ∃ next, s.kcalloc boot count size = .ok (ptr,next) ∧ ∃ free blocks requested,
      RunInv boot procs limit next (if ptr = 0#64 then live else ⟨ptr,count * size⟩ :: live) requested free blocks := by
  have product := kcalloc_product (show count.toNat * size.toNat < 2^64 by omega)
  obtain ⟨free,blocks,inv'⟩ := inv.kmalloc ok cpu (by omega) taken
  unfold HeapBytes.kcalloc
  rw [if_neg (by rw [kcalloc_guard]; omega)]
  dsimp only
  rw [taken]
  by_cases null : ptr = 0#64
  · subst null
    exact ⟨middle,rfl,free,blocks,_,inv'⟩
  · rw [if_neg null] at inv' ⊢
    obtain ⟨next,cleared,inv''⟩ := inv'.memset 0#8 ok List.mem_cons_self 0 (count * size).toNat
      (Nat.le_of_eq (Nat.zero_add _))
    dsimp only at cleared
    rw [BitVec.add_zero] at cleared
    refine ⟨next,?_,free,blocks,_,inv''⟩
    change (if ptr = 0#64 then _ else _) = _
    rw [if_neg null,cleared]
    rfl

theorem kcalloc_refuses (large : 2^64 ≤ count.toNat * size.toNat) : s.kcalloc boot count size = .ok (0#64,s) := by
  unfold HeapBytes.kcalloc
  rw [if_pos (kcalloc_guard.mpr large)]
  rfl

theorem kcalloc_stops (fits : count.toNat * size.toNat < 2^64) (stops : s.kmalloc boot (count * size) = .error stop) :
    s.kcalloc boot count size = .error stop := by
  unfold HeapBytes.kcalloc
  rw [if_neg (by rw [kcalloc_guard]; omega)]
  dsimp only
  rw [stops]
  rfl

theorem RunInv.kcalloc_returns (ok : BootOk boot) (cpu : CpuOk boot)
    (inv : RunInv boot procs limit s live requested free blocks)
    (bound : count.toNat * size.toNat ≤ 2^64 - 4128 ∨ 2^64 ≤ count.toNat * size.toNat)
    (returns : s.kcalloc boot count size = .ok (ptr,next)) : ∃ free blocks requested,
      RunInv boot procs limit next (if ptr = 0#64 then live else ⟨ptr,count * size⟩ :: live) requested free blocks := by
  rcases bound with fits | large
  · cases taken : s.kmalloc boot (count * size) with
    | error stop =>
      rw [kcalloc_stops (by omega) taken] at returns
      cases returns
    | ok result =>
      obtain ⟨ptr',middle⟩ := result
      obtain ⟨next',returns',inv'⟩ := inv.kcalloc ok cpu fits taken
      rw [returns'] at returns
      obtain ⟨rfl,rfl⟩ := ok_pair returns
      exact inv'
  · rw [kcalloc_refuses large] at returns
    obtain ⟨rfl,rfl⟩ := ok_pair returns
    exact ⟨free,blocks,requested,inv⟩

theorem RunInv.kcalloc_serves (ok : BootOk boot) (cpu : CpuOk boot)
    (inv : RunInv boot procs limit s live requested free blocks)
    (bound : count.toNat * size.toNat ≤ 2^64 - 4128 ∨ 2^64 ≤ count.toNat * size.toNat) :
    Serves boot (count.toNat * size.toNat) (s.kcalloc boot count size) := by
  rcases bound with fits | large
  · have product := kcalloc_product (show count.toNat * size.toNat < 2^64 by omega)
    cases taken : s.kmalloc boot (count * size) with
    | error stop =>
      rw [kcalloc_stops (by omega) taken]
      exact inv.heap.kmalloc_stops ok cpu (by omega) taken
    | ok result =>
      obtain ⟨ptr,middle⟩ := result
      obtain ⟨next,returns,_,_,_,inv'⟩ := inv.kcalloc ok cpu fits taken
      rw [returns]
      change ptr = 0#64 ∨ Provides boot next ptr (count.toNat * size.toNat)
      by_cases null : ptr = 0#64
      · exact .inl null
      · rw [if_neg null] at inv'
        have provided := inv'.provides List.mem_cons_self
        rw [product] at provided
        exact .inr provided
  · rw [kcalloc_refuses large]
    exact .inl rfl

theorem HeapCalls.inv (ok : BootOk boot) (cpu : CpuOk boot)
    (run : HeapCalls boot (HeapEmpty boot procs limit) s live) :
    ∃ free blocks requested, RunInv boot procs limit s live requested free blocks := by
  induction run with
  | init start =>
    obtain ⟨free,inv⟩ := start.inv
    exact ⟨free,[],[],inv⟩
  | kmalloc _ bound returns ih =>
    obtain ⟨_,_,_,inv⟩ := ih
    obtain ⟨free,blocks,inv'⟩ := inv.kmalloc ok cpu bound returns
    exact ⟨free,blocks,_,inv'⟩
  | kcalloc _ bound returns ih =>
    obtain ⟨_,_,_,inv⟩ := ih
    exact inv.kcalloc_returns ok cpu bound returns
  | kfree _ allowed returns ih =>
    obtain ⟨free,_,requested,inv⟩ := ih
    obtain ⟨blocks,inv'⟩ := inv.kfree ok allowed returns
    exact ⟨free,blocks,requested,inv'⟩
  | store _ member inside returns ih =>
    obtain ⟨free,blocks,requested,inv⟩ := ih
    exact ⟨free,blocks,requested,inv.store ok member inside returns⟩

/-- In every state of the heap, requests are served in full exactly when their size is rounded without
wrap-around; products that do not fit are refused. -/
theorem sizes_served (ok : BootOk boot) (cpu : CpuOk boot)
    (run : HeapCalls boot (HeapEmpty boot procs limit) s live) :
    (∀ size, KmallocServes boot s size ↔ size.toNat ≤ 2^64 - 4128) ∧
    ∀ count size, KcallocServes boot s count size ↔
      count.toNat * size.toNat ≤ 2^64 - 4128 ∨ 2^64 ≤ count.toNat * size.toNat := by
  obtain ⟨free,blocks,requested,inv⟩ := run.inv ok cpu
  refine ⟨fun size => ⟨fun serves => roundsExactly_iff.mp serves.2,fun bound => ?_⟩,
    fun count size => ⟨fun serves => ?_,fun bound => ⟨inv.kcalloc_serves ok cpu bound,fun fits => ?_⟩⟩⟩
  · exact ⟨inv.kmalloc_serves ok cpu bound,roundsExactly_iff.mpr bound⟩
  · by_cases fits : count.toNat * size.toNat < 2^64
    · have exactly := roundsExactly_iff.mp (serves.2 fits)
      rw [kcalloc_product fits] at exactly
      exact .inl exactly
    · exact .inr (Nat.le_of_not_lt fits)
  · rw [roundsExactly_iff,kcalloc_product fits]
    omega

def heapLargest : Except Stop (U64 × HeapBytes) := (heapBoot fbBoot fun _ => 0#8).kmalloc fbBoot (~~~0#64)

theorem heapLargest_block : ∃ next, heapLargest = .ok (0xFFFFC00000000020#64,next) ∧
    kernelLoad64 fbBoot next.pmm.mem (sizeAt 0xFFFFC00000000000#64) = .ok 4064#64 := by
  have evaluated : heapLargest.toOption.map
      (fun r => (r.1,(kernelLoad64 fbBoot r.2.pmm.mem (sizeAt 0xFFFFC00000000000#64)).toOption)) =
      some (0xFFFFC00000000020#64,some 4064#64) := by decide +kernel
  cases result : heapLargest with
  | error stop => rw [result] at evaluated; cases evaluated
  | ok r =>
    obtain ⟨ptr,next⟩ := r
    rw [result] at evaluated
    simp only [Except.toOption,Option.map_some,Option.some.injEq,Prod.mk.injEq] at evaluated
    obtain ⟨rfl,loaded⟩ := evaluated
    refine ⟨next,rfl,?_⟩
    cases load : kernelLoad64 fbBoot next.pmm.mem (sizeAt 0xFFFFC00000000000#64) with
    | error stop => rw [load] at loaded; cases loaded
    | ok size =>
      rw [load] at loaded
      exact congrArg Except.ok (Option.some.inj loaded)

/-- Asked for `SIZE_MAX` bytes, `kmalloc` returns a block of 4064. -/
theorem size_under_served : ∃ s, HeapCalls fbBoot (HeapEmpty fbBoot [] (2^64 - 4096)) s [] ∧
    ¬Serves fbBoot (~~~0#64 : U64).toNat (s.kmalloc fbBoot (~~~0#64)) := by
  refine ⟨_,.init fbBoot_heapEmpty,?_⟩
  obtain ⟨next,returns,loaded⟩ := heapLargest_block
  unfold heapLargest at returns
  rw [returns]
  rintro (null | ⟨capacity,header,enough,_⟩)
  · exact absurd null (by decide)
  · have same : capacity = 4064#64 := Except.ok.inj (header.symm.trans loaded)
    rw [same] at enough
    exact absurd enough (by decide)

/-- After two calls, of which one was freed again. -/
theorem sizes_served_trace : ∃ s, HeapCalls fbBoot (HeapEmpty fbBoot [] (2^64 - 4096)) s [⟨0xFFFFC00000002020#64,5000#64⟩] ∧
    KmallocServes fbBoot s 100#64 ∧ KcallocServes fbBoot s 3#64 40#64 := by
  obtain ⟨s₁,s₂,s₃,first,second,third,_⟩ := heapTrace_calls
  have begun : HeapCalls fbBoot (HeapEmpty fbBoot [] (2^64 - 4096)) _ [] := .init fbBoot_heapEmpty
  have twice := HeapCalls.kmalloc (HeapCalls.kmalloc begun (by decide) first) (by decide) second
  have run : HeapCalls fbBoot (HeapEmpty fbBoot [] (2^64 - 4096)) s₃ [⟨0xFFFFC00000002020#64,5000#64⟩] :=
    HeapCalls.kfree twice (.inr ⟨⟨0xFFFFC00000000020#64,100#64⟩,by simp,rfl⟩) third
  have served := sizes_served fbBoot_ok fbBoot_cpu run
  exact ⟨s₃,run,(served.1 100#64).mpr (by decide),(served.2 3#64 40#64).mpr (.inl (by decide))⟩

end Reddyos
