import Reddyos.Heap

/-! Growing the heap: fresh pages behind the cursor in the kernel's tables, and nothing
else that anybody can see. -/
namespace Reddyos

open ByteMemory RadixForest

def heapSlots (boot : Boot) (cursor : U64) : Slots := fun root path i =>
  root = boot.kernelPml4 ∧ ∃ v : U64, cursor.toNat ≤ v.toNat ∧ path = pathOf v ∧ i = ptIndex v

def windowSlots (boot : Boot) (low high : U64) : Slots := fun root path i =>
  root = boot.kernelPml4 ∧ ∃ v : U64, (low.toNat ≤ v.toNat ∧ v.toNat < high.toNat) ∧ path = pathOf v ∧ i = ptIndex v

theorem windowSlots_heap (slot : windowSlots boot low high root path i) : heapSlots boot low root path i := by
  obtain ⟨kernel,v,inside,here⟩ := slot
  exact ⟨kernel,v,inside.1,here⟩

theorem windowSlots_mono {low low' high high' : U64} (le : low'.toNat ≤ low.toNat) (le' : high.toNat ≤ high'.toNat)
    (slot : windowSlots boot low high root path i) : windowSlots boot low' high' root path i := by
  obtain ⟨kernel,v,inside,here⟩ := slot
  exact ⟨kernel,v,by omega,here⟩

/-- No large page lies above `HEAP_START`, and the window there is large enough for every
frame that is left, each with a guard page. -/
structure HeapOk (boot : Boot) (s : Pmm) (free : List U64) (heap : Heap) : Prop where
  small : ∀ v : U64, heapStart.toNat ≤ v.toNat → SmallOn s.mem boot.kernelPml4 v
  low : heapStart.toNat ≤ heap.cursor.toNat
  room : heap.cursor.toNat + 8192 * (avail boot s free).length < 2^64
  aligned : HeapAligned heap

variable {boot : Boot} {procs : List U64} {changed : Slots} {s next : Pmm} {free rest : List U64}

theorem Evolves.length (evolves : Evolves boot procs changed s free next rest) :
    (avail boot next rest).length ≤ (avail boot s free).length :=
  (List.subperm_of_subset evolves.spaces.pmm.nodup evolves.less).length_le

theorem Allocated.length (allocated : Allocated boot s free procs page next rest) :
    (avail boot next rest).length + 1 ≤ (avail boot s free).length := by
  have nodup : (page :: avail boot next rest).Nodup :=
    List.nodup_cons.mpr ⟨allocated.fresh.unavailable,allocated.spaces.pmm.nodup⟩
  have subset : page :: avail boot next rest ⊆ avail boot s free := by
    intro f member
    rcases List.mem_cons.mp member with rfl | old
    · exact allocated.source
    · exact allocated.less f old
  simpa using (List.subperm_of_subset nodup subset).length_le

theorem Allocated.nonNull (ok : BootOk boot) (sp : Spaces boot s free procs)
    (allocated : Allocated boot s free procs page next rest) : page ≠ 0#64 := by
  intro zero
  have := (frame_bounds ok (avail_frame sp.pmm allocated.source)).1
  rw [zero] at this
  simp at this

theorem Allocated.held (allocated : Allocated boot s free procs page next rest) :
    Held boot procs next rest page :=
  ⟨allocated.fresh.frame,allocated.fresh.unavailable,fun _ _ => allocated.fresh.unreached⟩

theorem toNat_add_page {a : U64} (fits : a.toNat + 4096 < 2^64) :
    (a + 4096#64).toNat = a.toNat + 4096 := by
  rw [BitVec.toNat_add]
  exact Nat.mod_eq_of_lt fits

/-- The window is kept by calls that map elsewhere. -/
theorem HeapOk.evolves (heapOk : HeapOk boot s free heap)
    (evolves : Evolves boot procs changed s free next rest) : HeapOk boot next rest heap where
  small := fun v above => evolves.smallOn (adm_pathOf v (.inl rfl)) (heapOk.small v above)
  low := heapOk.low
  room := by
    have := evolves.length
    have := heapOk.room
    omega
  aligned := heapOk.aligned

structure Requested (boot : Boot) (procs : List U64) (k : Kernel) (free : List U64) (pages : Nat)
    (next : Kernel) (rest : List U64) : Prop where
  evolves : Evolves boot procs (windowSlots boot k.heap.cursor next.heap.cursor) k.pmm free next.pmm rest
  cursor : next.heap.cursor.toNat = k.heap.cursor.toNat + 4096 * pages
  taken : (avail boot next.pmm rest).length + pages ≤ (avail boot k.pmm free).length

theorem HeapOk.page (heapOk : HeapOk boot s free heap) (allocated : Allocated boot s free procs phys middle left)
    (update : Updated boot procs middle left boot.kernelPml4 (pathOf heap.cursor) (ptIndex heap.cursor) w next rest) :
    Evolves boot procs (windowSlots boot heap.cursor (heap.cursor + 4096#64)) s free next rest ∧
      HeapOk boot next rest { heap with cursor := heap.cursor + 4096#64 } ∧
      (heap.cursor + 4096#64).toNat = heap.cursor.toNat + 4096 ∧
      (avail boot next rest).length + 1 ≤ (avail boot s free).length := by
  have fewer := allocated.length
  have fewer' := update.toEvolves.length
  have room := heapOk.room
  have low := heapOk.low
  have moved : (heap.cursor + 4096#64).toNat = heap.cursor.toNat + 4096 := toNat_add_page (by omega)
  have step : Evolves boot procs (windowSlots boot heap.cursor (heap.cursor + 4096#64)) s free next rest := by
    refine (allocated.evolves _).trans (update.toEvolves.weaken ?_)
    rintro root path i ⟨rfl,rfl,rfl⟩
    exact ⟨rfl,_,by omega,rfl,rfl⟩
  refine ⟨step,⟨(heapOk.evolves step).small,?_,?_,?_⟩,moved,by omega⟩
  · dsimp only
    omega
  · dsimp only
    omega
  · exact ⟨aligned_add heapOk.aligned.cursor,heapOk.aligned.blocks⟩

theorem requestLoop_spec (ok : BootOk boot) {k : Kernel} (sp : Spaces boot k.pmm free procs)
    (heapOk : HeapOk boot k.pmm free k.heap)
    (returns : requestLoop boot pages k = .ok (served,after)) :
    served = true ∧ ∃ rest, Requested boot procs k free pages after rest := by
  induction pages generalizing k free with
  | zero =>
    obtain ⟨rfl,rfl⟩ := ok_pair returns
    exact ⟨rfl,free,.refl _ sp,by simp,by simp⟩
  | succ pages ih =>
    obtain ⟨⟨phys,pmm⟩,taken,returns⟩ := ok_of_bind returns
    obtain ⟨left,allocated⟩ := sp.alloc ok taken
    dsimp only at returns
    rw [if_neg (allocated.nonNull ok sp)] at returns
    obtain ⟨mapped,maps,returns⟩ := ok_of_bind returns
    have grown := allocated.evolves nowhere
    have selected : Adm boot procs boot.kernelPml4 (pathOf k.heap.cursor) := adm_pathOf _ (.inl rfl)
    obtain ⟨rest,update⟩ := vmmMap_spec ok grown.spaces selected
      (grown.smallOn selected (heapOk.small _ heapOk.low)) maps
    obtain ⟨step,heapOk',moved,fewer⟩ := heapOk.page allocated update
    obtain ⟨served,rest',later⟩ := ih (k := ⟨mapped,{ k.heap with cursor := k.heap.cursor + 4096#64 }⟩)
      step.spaces heapOk' returns
    have cursor : after.heap.cursor.toNat = k.heap.cursor.toNat + 4096 * (pages + 1) := by
      rw [later.cursor,moved]
      omega
    refine ⟨served,rest',(step.weaken ?_).trans (later.evolves.weaken ?_),cursor,?_⟩
    · exact fun _ _ _ slot => windowSlots_mono (Nat.le_refl _) (by omega) slot
    · exact fun _ _ _ slot => windowSlots_mono (by dsimp only; omega) (Nat.le_refl _) slot
    · have := later.taken
      dsimp only at this
      omega

def roundSize (size : U64) : U64 := (size + 15#64) &&& ~~~15#64

def blockPages (size : U64) : U64 := (blockHeader + roundSize size + 4096#64 - 1#64) / 4096#64

theorem roundSize_toNat (bound : size.toNat ≤ 2^64 - 4128) :
    (roundSize size).toNat = (size.toNat + 15) / 16 * 16 := by
  have up : (size + 15#64).toNat = size.toNat + 15 := by
    rw [BitVec.toNat_add]
    exact Nat.mod_eq_of_lt (by have : (15#64).toNat = 15 := rfl; omega)
  have rounded := Words.toNat_and_not_low (size + 15#64) 4
  rw [up] at rounded
  exact rounded

theorem blockPages_toNat (bound : size.toNat ≤ 2^64 - 4128) :
    (blockPages size).toNat = ((roundSize size).toNat + 4127) / 4096 := by
  have rounded := roundSize_toNat bound
  unfold blockPages
  generalize roundSize size = bytes at *
  -- the addition may wrap around, but then the subtraction does too
  have sum : (blockHeader + bytes + 4096#64 - 1#64).toNat = bytes.toNat + 4127 := by
    unfold blockHeader
    bv_omega
  rw [BitVec.toNat_udiv,sum]
  rfl

theorem aligned_header_nonNull (aligned : Aligned base) : base + blockHeader ≠ 0#64 := by
  intro zero
  have sum := congrArg BitVec.toNat zero
  rw [BitVec.toNat_add] at sum
  have header : blockHeader.toNat = 32 := rfl
  have none : (0#64).toNat = 0 := rfl
  unfold Aligned at aligned
  omega

/-- `kmalloc` of anything that could fit grows the heap or takes a free block. -/
theorem kmalloc_window (ok : BootOk boot) {k : Kernel} (sp : Spaces boot k.pmm free procs)
    (heapOk : HeapOk boot k.pmm free k.heap) (bound : size.toNat ≤ 2^63)
    (returns : kmalloc boot size k = .ok (ptr,after)) :
    ∃ rest, Evolves boot procs (windowSlots boot k.heap.cursor after.heap.cursor) k.pmm free after.pmm rest ∧
      HeapOk boot after.pmm rest after.heap ∧ ptr ≠ 0#64 ∧ k.heap.cursor.toNat ≤ after.heap.cursor.toNat := by
  have aligned := (kmalloc_aligned heapOk.aligned returns).1
  unfold kmalloc at returns
  dsimp only at returns
  split at returns
  · rename_i base blocks taken
    obtain ⟨rfl,rfl⟩ := ok_pair returns
    obtain ⟨⟨block,member,rfl⟩,_⟩ := takeBlock_base taken
    exact ⟨free,.refl _ sp,⟨heapOk.small,heapOk.low,heapOk.room,aligned⟩,
      aligned_header_nonNull (heapOk.aligned.blocks block member),Nat.le_refl _⟩
  · have positive : 0 < (blockPages size).toNat := by
      rw [blockPages_toNat (by omega)]
      omega
    change (requestPages boot (blockPages size) k >>= _) = _ at returns
    obtain ⟨⟨base,k'⟩,requested,returns⟩ := ok_of_bind returns
    obtain ⟨⟨served,k''⟩,looped,requested⟩ := ok_of_bind requested
    obtain ⟨rfl,rest,pagesIn⟩ := requestLoop_spec ok sp heapOk looped
    obtain ⟨rfl,rfl⟩ := ok_pair requested
    have cursor := pagesIn.cursor
    have taken := pagesIn.taken
    have room := heapOk.room
    have low := heapOk.low
    have moved : (k''.heap.cursor + 4096#64).toNat = k''.heap.cursor.toNat + 4096 :=
      toNat_add_page (by omega)
    have live : k.heap.cursor ≠ 0#64 := by
      intro zero
      rw [zero] at low
      exact absurd low (by decide)
    dsimp only at returns
    rw [if_neg live] at returns
    obtain ⟨rfl,rfl⟩ := ok_pair returns
    refine ⟨rest,pagesIn.evolves.weaken fun _ _ _ => windowSlots_mono (Nat.le_refl _) ?_,
      ⟨(heapOk.evolves pagesIn.evolves).small,?_,?_,aligned⟩,aligned_header_nonNull heapOk.aligned.cursor,?_⟩
    all_goals
      dsimp only
      rw [moved]
      omega

theorem kmalloc_spec (ok : BootOk boot) {k : Kernel} (sp : Spaces boot k.pmm free procs)
    (heapOk : HeapOk boot k.pmm free k.heap) (bound : size.toNat ≤ 2^63)
    (returns : kmalloc boot size k = .ok (ptr,after)) :
    ∃ rest, Evolves boot procs (heapSlots boot k.heap.cursor) k.pmm free after.pmm rest ∧
      HeapOk boot after.pmm rest after.heap ∧ ptr ≠ 0#64 ∧ k.heap.cursor.toNat ≤ after.heap.cursor.toNat := by
  obtain ⟨rest,evolves,others⟩ := kmalloc_window ok sp heapOk bound returns
  exact ⟨rest,evolves.weaken fun _ _ _ => windowSlots_heap,others⟩

theorem kfree_spec {k : Kernel} (ptr : U64) (heapOk : HeapOk boot k.pmm free k.heap) :
    (kfree ptr k).pmm = k.pmm ∧ HeapOk boot k.pmm free (kfree ptr k).heap := by
  have aligned := kfree_aligned ptr heapOk.aligned
  unfold kfree at aligned ⊢
  split
  · exact ⟨rfl,heapOk⟩
  · rename_i live
    rw [if_neg live] at aligned
    exact ⟨rfl,heapOk.small,heapOk.low,heapOk.room,aligned⟩

theorem TablesSame.smallOn (same : TablesSame boot procs m m') (selected : Adm boot procs root (pathOf v))
    (small : SmallOn m root v) : SmallOn m' root v := by
  intro stem i f short found
  have here := adm_stem selected short
  rw [same.walk (adm_closed here)] at found
  rw [same root stem f i (adm_closed here) found (adm_index here)]
  exact small stem i f short found

/-- The window is kept by whatever leaves the kernel's tables alone. -/
theorem HeapOk.quiet (heapOk : HeapOk boot s free heap) (same : TablesSame boot procs s.mem next.mem)
    (nodup : (avail boot next rest).Nodup) (less : ∀ f ∈ avail boot next rest, f ∈ avail boot s free) :
    HeapOk boot next rest heap where
  small := fun v above => same.smallOn (adm_pathOf v (.inl rfl)) (heapOk.small v above)
  low := heapOk.low
  room := by
    have := (List.subperm_of_subset nodup less).length_le
    have := heapOk.room
    omega
  aligned := heapOk.aligned

theorem boot_heap (ok : BootOk boot) (tables : BootTables boot m)
    (small : ∀ v : U64, heapStart.toNat ≤ v.toNat → SmallOn m boot.kernelPml4 v)
    (few : heapStart.toNat + 8192 * (frames boot).length < 2^64) :
    ∃ free, Spaces boot (pmmInit boot ⟨m,0#64,0,0#64⟩) free [] ∧
      HeapOk boot (pmmInit boot ⟨m,0#64,0,0#64⟩) free heapInit := by
  obtain ⟨free,spaces,same⟩ := boot_spaces ok tables
  refine ⟨free,spaces,?_,Nat.le_refl _,?_,by simp [Aligned,heapInit,heapStart],by simp [heapInit]⟩
  · exact fun v above => same.smallOn (adm_pathOf v (.inl rfl)) (small v above)
  · have subset : avail boot (pmmInit boot ⟨m,0#64,0,0#64⟩) free ⊆ frames boot :=
      fun f member => avail_frame spaces.pmm member
    have shorter := (List.subperm_of_subset spaces.pmm.nodup subset).length_le
    change (avail boot _ free).length ≤ _ at shorter
    simp only [heapInit]
    omega

theorem Created.heapOk (old : HeapOk boot s free heap) (created : Created boot s free procs pml4 next rest) :
    HeapOk boot next rest heap :=
  old.quiet created.same created.spaces.pmm.nodup created.less

/-- Nothing is mapped in the lower half of a new address space. -/
theorem Created.leaf (created : Created boot s free procs pml4 next rest) (lower : lowerHalf v) :
    leafAt next.mem pml4 (pathOf v) i = none := by
  have selected : Adm boot (pml4 :: procs) pml4 (pathOf v) := adm_pathOf v (.inr ⟨by simp,lower⟩)
  rw [leafAt,created.empty selected (by simp [pathOf])]
  rfl

theorem entry_zero (table : U64) (i : Nat) : entry (fun _ => 0#8) table i = 0#64 := by
  simp only [entry,load64]
  decide

theorem walk_zero (selected : Adm boot [] root path) (found : walk (child fun _ => 0#8) root path = some f) :
    root = boot.kernelPml4 ∧ path = [] ∧ f = root := by
  refine ⟨by simpa using selected.2.2,?_⟩
  cases path with
  | nil => exact ⟨rfl,(Option.some.inj found).symm⟩
  | cons i rest => simp [child,entry_zero,not_present_zero] at found

theorem zero_tables (frame : FrameOk boot.kernelPml4) (apart : boot.kernelPml4 ∉ frames boot) :
    BootTables boot (fun _ => 0#8) := by
  refine ⟨frame,⟨adm_closed,?_⟩,?_⟩
  · intro root path root' path' f selected selected' found found'
    obtain ⟨rfl,rfl,rfl⟩ := walk_zero selected found
    obtain ⟨rfl,rfl,_⟩ := walk_zero selected' found'
    exact ⟨rfl,rfl⟩
  · intro root path f selected found
    obtain ⟨rfl,rfl,rfl⟩ := walk_zero selected found
    exact apart

theorem smallOn_zero (root v : U64) : SmallOn (fun _ => 0#8) root v := by
  intro stem i f _ _ present
  rw [entry_zero] at present
  exact absurd present not_present_zero

end Reddyos
