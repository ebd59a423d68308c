import Reddyos.HeapPages

/-! Calls that return as long as enough frames are left and every frame is within reach of
the processor. A mapping takes up to three frames for its tables. -/
namespace Reddyos

open ByteMemory LinkedChain RadixForest

variable {boot : Boot} {s : Pmm} {free procs : List U64} {k : Kernel} {n : Nat}

def Reachable (boot : Boot) : Prop := ∀ f ∈ frames boot, f ≤ boot.cpuPageMask

theorem Spaces.alloc_returns (ok : BootOk boot) (sp : Spaces boot s free procs) (room : n < (avail boot s free).length) :
    ∃ page next rest, pmmAllocPage boot s = .ok (page,next) ∧ Allocated boot s free procs page next rest ∧
      n ≤ (avail boot next rest).length := by
  rcases pmmAllocPage_spec ok sp.pmm with ⟨none,_⟩ | ⟨page,next,rest,returns,taken⟩
  · change avail boot s free = [] at none
    rw [none] at room
    exact absurd room (Nat.not_lt_zero n)
  · obtain ⟨rest',allocated⟩ := sp.alloc ok returns
    obtain rfl := Chain.unique (virt_injective boot) allocated.spaces.pmm.list taken.inv.list
    refine ⟨page,next,rest',returns,allocated,?_⟩
    obtain ⟨m,left,moved⟩ := taken.moved
    have count := moved.length_eq
    unfold avail at room ⊢
    simp only [List.length_cons,List.length_append,left,List.length_take,List.length_drop] at count room ⊢
    omega

theorem getNext_returns (ok : BootOk boot) (sp : Spaces boot s free procs)
    (found : walk (child s.mem) root stem = some table) (selected : Adm boot procs root (stem ++ [i]))
    (small : Present (entry s.mem table i) → ¬Large (entry s.mem table i)) (flags : U64)
    (room : n < (avail boot s free).length) :
    ∃ deeper next rest, getNext boot table i flags s = .ok (deeper,next) ∧ Evolves boot procs nowhere s free next rest ∧
      walk (child next.mem) root (stem ++ [i]) = some deeper ∧ n ≤ (avail boot next rest).length := by
  unfold getNext
  by_cases absent : entry s.mem table i &&& pagePresent = 0#64
  · rw [if_pos absent]
    obtain ⟨page,middle,rest,takes,allocated,left⟩ := sp.alloc_returns ok room
    have zeroed : allocTable boot s = .ok (page,middle) := by
      unfold allocTable
      rw [takes]
      change Except.ok (page,{ middle with mem := fill middle.mem page.toNat 0#8 4096 }) = _
      rw [fill_of_zero allocated.fresh.zero]
    have missing : ¬Present (entry s.mem table i) := not_not.mpr absent
    obtain ⟨evolves,linked⟩ : Evolves boot procs nowhere s free (middle.setEntry table i (tableEntry page flags)) rest ∧
        walk (child (middle.setEntry table i (tableEntry page flags)).mem) root (stem ++ [i]) = some page :=
      allocated.attached ok sp found selected missing
    rw [zeroed]
    refine ⟨_,_,rest,rfl,evolves,?_,left⟩
    rw [setEntry_same,tableEntry_frame allocated.fresh.frame]
    exact linked
  · rw [if_neg absent]
    refine ⟨_,s,free,rfl,.refl nowhere sp,?_,Nat.le_of_lt room⟩
    rw [walk_concat,found]
    exact if_pos ⟨absent,small absent⟩

theorem vmmMap_returns (ok : BootOk boot) (sp : Spaces boot s free procs) (selected : Adm boot procs root (pathOf v))
    (small : SmallOn s.mem root v) (reach : phys ≤ boot.cpuPageMask) (flags : U64)
    (room : n + 3 ≤ (avail boot s free).length) :
    ∃ next rest, vmmMap boot root v phys flags s = .ok next ∧
      Updated boot procs s free root (pathOf v) (ptIndex v) (leafEntry boot phys flags) next rest ∧
      n ≤ (avail boot next rest).length := by
  have here : ∀ stem, stem <+: pathOf v → Adm boot procs root stem := fun stem short => adm_stem selected short
  obtain ⟨pdpt,s₁,free₁,first,grown₁,found₁,room₁⟩ := getNext_returns ok sp (walk_nil _ root)
    (here [pml4Index v] ⟨_,rfl⟩) (small [] _ _ ⟨_,rfl⟩ rfl) (sanitizeFlags flags 1) (show n + 2 < _ by omega)
  have small₁ := grown₁.smallOn selected small
  obtain ⟨pd,s₂,free₂,second,grown₂,found₂,room₂⟩ := getNext_returns ok grown₁.spaces found₁
    (here [pml4Index v,pdptIndex v] ⟨_,rfl⟩) (small₁ _ _ _ ⟨_,rfl⟩ found₁) (sanitizeFlags flags 2)
    (show n + 1 < _ by omega)
  have small₂ := grown₂.smallOn selected small₁
  obtain ⟨pt,s₃,free₃,third,grown₃,found₃,room₃⟩ := getNext_returns ok grown₂.spaces found₂
    (here [pml4Index v,pdptIndex v,pdIndex v] ⟨_,rfl⟩) (small₂ _ _ _ ⟨_,rfl⟩ found₂) (sanitizeFlags flags 3)
    (show n < _ by omega)
  have grown := (grown₁.trans grown₂).trans grown₃
  refine ⟨s₃.setEntry pt (ptIndex v) (leafEntry boot phys flags),free₃,?_,
    grown.setLeaf ok selected rfl found₃ (index_lt v).2.2.2,room₃⟩
  unfold vmmMap
  rw [if_neg (BitVec.not_lt.mpr reach)]
  change (getNext boot root (pml4Index v) _ s >>= _) = _
  rw [first]
  change (getNext boot pdpt (pdptIndex v) _ s₁ >>= _) = _
  rw [second]
  change (getNext boot pd (pdIndex v) _ s₂ >>= _) = _
  rw [third]
  rfl

theorem requestLoop_returns (ok : BootOk boot) (reach : Reachable boot) (sp : Spaces boot k.pmm free procs)
    (heapOk : HeapOk boot k.pmm free k.heap) (room : n + 4 * pages ≤ (avail boot k.pmm free).length) :
    ∃ after rest, requestLoop boot pages k = .ok (true,after) ∧ Spaces boot after.pmm rest procs ∧
      n ≤ (avail boot after.pmm rest).length := by
  induction pages generalizing k free with
  | zero => exact ⟨k,free,rfl,sp,room⟩
  | succ pages ih =>
    obtain ⟨phys,pmm,left,takes,allocated,room₁⟩ := sp.alloc_returns ok (show n + 4 * pages + 3 < _ by omega)
    have grown := allocated.evolves nowhere
    have selected : Adm boot procs boot.kernelPml4 (pathOf k.heap.cursor) := adm_pathOf _ (.inl rfl)
    have near : phys ≤ boot.cpuPageMask := reach phys (avail_frame sp.pmm allocated.source)
    obtain ⟨mapped,rest,maps,update,room₂⟩ := vmmMap_returns ok grown.spaces selected
      (grown.smallOn selected (heapOk.small _ heapOk.low)) near (pageWritable ||| pageNx) room₁
    obtain ⟨step,heapOk',_,_⟩ := heapOk.page allocated update
    obtain ⟨after,rest',returns,spaces,left⟩ :=
      ih (k := ⟨mapped,{ k.heap with cursor := k.heap.cursor + 4096#64 }⟩) step.spaces heapOk' room₂
    refine ⟨after,rest',?_,spaces,left⟩
    unfold requestLoop
    rw [takes]
    change (if phys = 0#64 then _ else _) = _
    rw [if_neg (allocated.nonNull ok sp)]
    rw [maps]
    exact returns

theorem requestPages_returns (ok : BootOk boot) (reach : Reachable boot) (sp : Spaces boot k.pmm free procs)
    (heapOk : HeapOk boot k.pmm free k.heap) (room : n + 4 * pages.toNat ≤ (avail boot k.pmm free).length) :
    ∃ after rest, requestPages boot pages k = .ok (k.heap.cursor,after) ∧ Spaces boot after.pmm rest procs ∧
      n ≤ (avail boot after.pmm rest).length := by
  obtain ⟨grown,rest,loops,spaces,left⟩ := requestLoop_returns ok reach sp heapOk room
  refine ⟨⟨grown.pmm,{ grown.heap with cursor := grown.heap.cursor + 4096#64 }⟩,rest,?_,spaces,left⟩
  unfold requestPages
  rw [loops]
  rfl

/-- A request that fits a page, block header included. -/
theorem kmalloc_returns (ok : BootOk boot) (reach : Reachable boot) (sp : Spaces boot k.pmm free procs)
    (heapOk : HeapOk boot k.pmm free k.heap) (small : size.toNat ≤ 4000) (room : n + 4 ≤ (avail boot k.pmm free).length) :
    ∃ ptr after rest, kmalloc boot size k = .ok (ptr,after) ∧ Spaces boot after.pmm rest procs ∧
      HeapOk boot after.pmm rest after.heap ∧ ptr ≠ 0#64 ∧ n ≤ (avail boot after.pmm rest).length := by
  have bound : size.toNat ≤ 2^63 := by omega
  have one : (blockPages size).toNat = 1 := by
    rw [blockPages_toNat (by omega),roundSize_toNat (by omega)]
    omega
  obtain ⟨ptr,after,rest,returns,spaces,left⟩ : ∃ ptr after rest, kmalloc boot size k = .ok (ptr,after) ∧
      Spaces boot after.pmm rest procs ∧ n ≤ (avail boot after.pmm rest).length := by
    unfold kmalloc
    dsimp only
    cases takeBlock ((size + 15#64) &&& ~~~15#64) k.heap.blocks with
    | some taken => exact ⟨_,_,free,rfl,sp,show n ≤ (avail boot k.pmm free).length by omega⟩
    | none =>
      have enough : n + 4 * (blockPages size).toNat ≤ (avail boot k.pmm free).length := by
        rw [one]
        exact room
      obtain ⟨grown,rest,requests,spaces,left⟩ := requestPages_returns ok reach sp heapOk enough
      have live : k.heap.cursor ≠ 0#64 := by
        intro zero
        have low := heapOk.low
        rw [zero] at low
        exact absurd low (by decide)
      change ∃ ptr after rest, (requestPages boot (blockPages size) k >>= _) = Except.ok (ptr,after) ∧ _
      rw [requests]
      change ∃ ptr after rest, (if k.heap.cursor = 0#64 then _ else _) = Except.ok (ptr,after) ∧ _
      rw [if_neg live]
      exact ⟨_,_,rest,rfl,spaces,left⟩
  obtain ⟨rest',grown,heapOk',live,_⟩ := kmalloc_spec ok sp heapOk bound returns
  obtain rfl := Chain.unique (virt_injective boot) spaces.pmm.list grown.spaces.pmm.list
  exact ⟨ptr,after,rest,returns,spaces,heapOk',live,left⟩

theorem pagingCreateAddressSpace_returns (ok : BootOk boot) (sp : Spaces boot s free procs)
    (room : n < (avail boot s free).length) :
    ∃ pml4 next rest, pagingCreateAddressSpace boot s = .ok (pml4,next) ∧ Created boot s free procs pml4 next rest ∧
      n ≤ (avail boot next rest).length := by
  obtain ⟨page,middle,rest,takes,allocated,left⟩ := sp.alloc_returns ok room
  have returns := pagingCreateAddressSpace_eq allocated.fresh.zero takes
  obtain ⟨rest',created⟩ := pagingCreateAddressSpace_spec ok sp returns
  obtain rfl := Chain.unique (virt_injective boot) (allocated.copied ok).list created.spaces.pmm.list
  exact ⟨page,_,rest,returns,created,left⟩

end Reddyos
