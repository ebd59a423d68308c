import Reddyos.AddressSpaces
import Reddyos.VmmDestroy

/-! An address space from its creation to its teardown: whatever was mapped and unmapped in
between, the teardown frees the frames of the address space once each and no other. -/
namespace Reddyos

open ByteMemory RadixForest TouchLog

/-- Calls on one address space, from its creation in `s` on. `taken` are the frames that `pmm_alloc_page`
handed out for data, `held` those of them that are older than the address space. -/
inductive SpaceLife (boot : Boot) (s : Pmm) (held : List U64) (pml4 : U64) : Pmm → List U64 → Prop where
  | create : pagingCreateAddressSpace boot s = .ok (pml4,next) → SpaceLife boot s held pml4 next held
  | alloc : SpaceLife boot s held pml4 t taken → pmmAllocPage boot t = .ok (page,next) →
      SpaceLife boot s held pml4 next (page :: taken)
  | write : SpaceLife boot s held pml4 t taken → (∀ b, Outside taken b → mem b = t.mem b) →
      SpaceLife boot s held pml4 { t with mem := mem } taken
  | map : SpaceLife boot s held pml4 t taken → lowerHalf virt → vmmMap boot pml4 virt phys flags t = .ok next →
      SpaceLife boot s held pml4 next taken
  | unmap : SpaceLife boot s held pml4 t taken → lowerHalf virt → (mmuTranslate t.mem pml4 virt).isSome →
      SpaceLife boot s held pml4 (vmmUnmap pml4 virt t) taken

def frameAt (m : Mem) (pml4 v : U64) : Option U64 := (mmuTranslate m pml4 v).map (· &&& pageMask)

/-- The frames mapped in the lower half come from the allocator, and each is mapped at one page. -/
structure MappedOnce (m : Mem) (pml4 : U64) (taken : List U64) : Prop where
  taken : ∀ v f, lowerHalf v → frameAt m pml4 v = some f → f ∈ taken
  once : ∀ v w f, lowerHalf v → lowerHalf w → frameAt m pml4 v = some f → frameAt m pml4 w = some f →
    v.toNat / 4096 = w.toNat / 4096

def LowerTable (m : Mem) (pml4 f : U64) : Prop :=
  ∃ path, path.length ≤ 3 ∧ (∀ i ∈ path, i < 512) ∧ (∀ i ∈ path.head?, i < 256) ∧ walk (child m) pml4 path = some f

/-- The teardown in state `s`, where `free` is the free list. -/
structure TearsDown (boot : Boot) (s : Pmm) (free : List U64) (pml4 : U64) : Prop where
  frees : ∀ f, f ∈ freed (pagingDestroyAddressSpaceLog boot pml4 s).2 ↔
    LowerTable s.mem pml4 f ∨ ∃ v, lowerHalf v ∧ frameAt s.mem pml4 v = some f
  once : (freed (pagingDestroyAddressSpaceLog boot pml4 s).2).Nodup
  readsFirst : ReadsFirst (pagingDestroyAddressSpaceLog boot pml4 s).2
  pmm : PmmInv boot (pagingDestroyAddressSpace boot pml4 s)
    ((freed (pagingDestroyAddressSpaceLog boot pml4 s).2).reverse ++ free)
  kernel : ∀ path f, Adm boot [] boot.kernelPml4 path → walk (child s.mem) boot.kernelPml4 path = some f →
    ∀ b, f.toNat ≤ b → b < f.toNat + 4096 → (pagingDestroyAddressSpace boot pml4 s).mem b = s.mem b

variable {boot : Boot} {s t next : Pmm} {free procs held taken pages : List U64} {m : Mem} {pml4 : U64}

theorem mem_releaseTable_iff : g ∈ releaseTable m order n table ↔
    g = table ∨ ∃ i < n, Present (entry m table i) ∧ g ∈ order (entry m table i &&& pageMask) := by
  rw [releaseTable,List.mem_append,mem_releaseEntries,List.mem_singleton]
  exact or_comm

theorem releaseTable_nodup
    (each : ∀ i < n, Present (entry m table i) → (order (entry m table i &&& pageMask)).Nodup)
    (apart : ∀ i < n, ∀ j < n, ∀ g, Present (entry m table i) → Present (entry m table j) →
      g ∈ order (entry m table i &&& pageMask) → g ∈ order (entry m table j &&& pageMask) → i = j)
    (self : ∀ i < n, Present (entry m table i) → table ∉ order (entry m table i &&& pageMask)) :
    (releaseTable m order n table).Nodup := by
  refine List.nodup_append.mpr ⟨?_,List.nodup_singleton _,?_⟩
  · refine List.pairwise_flatMap.mpr ⟨?_,?_⟩
    · intro i listed
      split
      · exact List.Pairwise.nil
      · exact each i (List.mem_range.mp listed) ‹_›
    · refine List.pairwise_lt_range.imp_of_mem ?_
      intro i j left right less g here g' there same
      subst same
      split at here
      · cases here
      split at there
      · cases there
      exact absurd (apart i (List.mem_range.mp left) j (List.mem_range.mp right) g ‹_› ‹_› here there) (Nat.ne_of_lt less)
  · intro g listed g' last same
    rw [List.mem_singleton.mp last] at same
    subst same
    obtain ⟨i,bound,present,here⟩ := mem_releaseEntries.mp listed
    exact self i bound present here

def LeafBelow (boot : Boot) (procs : List U64) (m : Mem) (pml4 : U64) (path : List Nat) (g : U64) : Prop :=
  ∃ more i e, Adm boot procs pml4 (path ++ more) ∧ (path ++ more).length = 3 ∧ i < 512 ∧
    leafAt m pml4 (path ++ more) i = some e ∧ e &&& pageMask = g

def Torn (boot : Boot) (procs : List U64) (m : Mem) (pml4 : U64) (path : List Nat) (g : U64) : Prop :=
  TablesBelow boot procs m pml4 path g ∨ LeafBelow boot procs m pml4 path g

def LeavesOnce (boot : Boot) (procs : List U64) (m : Mem) (pml4 : U64) : Prop :=
  ∀ path i e path' i' e', Adm boot procs pml4 path → Adm boot procs pml4 path' → path.length = 3 → path'.length = 3 →
    i < 512 → i' < 512 → leafAt m pml4 path i = some e → leafAt m pml4 path' i' = some e' →
    e &&& pageMask = e' &&& pageMask → path = path' ∧ i = i'

structure Exact (boot : Boot) (procs : List U64) (m : Mem) (pml4 : U64) (path : List Nat) (list : List U64) : Prop where
  members : ∀ g, g ∈ list ↔ Torn boot procs m pml4 path g
  nodup : list.Nodup

theorem LeafBelow.up (below : LeafBelow boot procs m pml4 (path ++ [i]) g) : LeafBelow boot procs m pml4 path g := by
  obtain ⟨more,j,e,adm,full,bound,leaf,same⟩ := below
  rw [List.append_assoc] at adm full leaf
  exact ⟨[i] ++ more,j,e,adm,full,bound,leaf,same⟩

theorem Torn.up (torn : Torn boot procs m pml4 (path ++ [i]) g) : Torn boot procs m pml4 path g :=
  torn.imp TablesBelow.up LeafBelow.up

/-- Everything torn down at the end of a walk is its table or lies behind one of its entries. -/
theorem Torn.down (torn : Torn boot procs m pml4 path g) (found : walk (child m) pml4 path = some table)
    (short : path.length < 3) :
    g = table ∨ ∃ i, Adm boot procs pml4 (path ++ [i]) ∧ Present (entry m table i) ∧
      Torn boot procs m pml4 (path ++ [i]) g := by
  have behind : ∀ i more f, walk (child m) pml4 (path ++ i :: more) = some f → Present (entry m table i) := by
    intro i more f here
    rw [walk_append,found,Option.bind_some,walk_cons] at here
    obtain ⟨deeper,linked,_⟩ := Option.bind_eq_some_iff.mp here
    exact (child_some linked).1
  rcases torn with ⟨more,adm,here⟩ | ⟨more,j,e,adm,full,bound,leaf,same⟩
  · cases more with
    | nil =>
      rw [List.append_nil,found] at here
      exact .inl (Option.some.inj here).symm
    | cons i more =>
      have split : path ++ i :: more = path ++ [i] ++ more := by simp
      refine .inr ⟨i,adm_stem adm ⟨more,by simp⟩,behind i more g here,.inl ⟨more,?_,?_⟩⟩
      · rwa [← split]
      · rwa [← split]
  · cases more with
    | nil =>
      rw [List.append_nil] at full
      omega
    | cons i more =>
      have split : path ++ i :: more = path ++ [i] ++ more := by simp
      obtain ⟨pt,here,_⟩ := Option.bind_eq_some_iff.mp leaf
      refine .inr ⟨i,adm_stem adm ⟨more,by simp⟩,behind i more pt here,.inr ⟨more,j,e,?_,?_,bound,?_,same⟩⟩
      · rwa [← split]
      · rwa [← split]
      · rwa [← split]

/-- What is torn down behind one entry is not torn down behind another. -/
theorem Spaces.torn_apart (sp : Spaces boot s free procs)
    (leaves : LeavesIn boot procs s pml4 (Held boot procs s free)) (once : LeavesOnce boot procs s.mem pml4)
    (left : Torn boot procs s.mem pml4 (path ++ [i]) g) (right : Torn boot procs s.mem pml4 (path ++ [j]) g) : i = j := by
  have apart : ∀ path path', LeafBelow boot procs s.mem pml4 path g → ¬TablesBelow boot procs s.mem pml4 path' g := by
    rintro path path' ⟨more,k,e,adm,full,bound,leaf,rfl⟩ ⟨more',adm',here⟩
    exact (leaves _ k e adm full bound leaf).2.2 pml4 _ adm' here
  rcases left with table | leaf <;> rcases right with table' | leaf'
  · exact sp.below_apart table table'
  · exact absurd table (apart _ _ leaf')
  · exact absurd table' (apart _ _ leaf)
  · obtain ⟨more,k,e,adm,full,bound,leaf,here⟩ := leaf
    obtain ⟨more',k',e',adm',full',bound',leaf',here'⟩ := leaf'
    obtain ⟨same,_⟩ := once _ k e _ k' e' adm adm' full full' bound bound' leaf leaf' (here.trans here'.symm)
    rw [List.append_assoc,List.append_assoc] at same
    exact (List.cons.inj (List.append_cancel_left same)).1

theorem exact_inner (sp : Spaces boot s free procs) (leaves : LeavesIn boot procs s pml4 (Held boot procs s free))
    (once : LeavesOnce boot procs s.mem pml4) (selected : Adm boot procs pml4 path)
    (found : walk (child s.mem) pml4 path = some table) (short : path.length < 3)
    (reach : ∀ i, Adm boot procs pml4 (path ++ [i]) → i < n)
    (below : ∀ i < n, Present (entry s.mem table i) →
      Exact boot procs s.mem pml4 (path ++ [i]) (order (entry s.mem table i &&& pageMask))) :
    Exact boot procs s.mem pml4 path (releaseTable s.mem order n table) := by
  have self : TablesBelow boot procs s.mem pml4 path table := ⟨[],by rwa [List.append_nil],by rwa [List.append_nil]⟩
  refine ⟨?_,releaseTable_nodup ?_ ?_ ?_⟩
  · intro g
    rw [mem_releaseTable_iff]
    constructor
    · rintro (rfl | ⟨i,bound,present,listed⟩)
      · exact .inl self
      · exact (((below i bound present).members _).mp listed).up
    · intro torn
      refine (torn.down found short).imp_right ?_
      rintro ⟨i,adm,present,deeper⟩
      exact ⟨i,reach i adm,present,((below i (reach i adm) present).members _).mpr deeper⟩
  · exact fun i bound present => (below i bound present).nodup
  · intro i left j right g present present' here there
    exact sp.torn_apart leaves once (((below i left present).members _).mp here) (((below j right present').members _).mp there)
  · intro i bound present listed
    rcases ((below i bound present).members _).mp listed with table' | ⟨more,k,e,adm,full,inside,leaf,same⟩
    · exact sp.not_below_itself selected found table'
    · refine (leaves _ k e adm full inside leaf).2.2 pml4 path selected ?_
      rw [same]
      exact found

theorem exact_last (leaves : LeavesIn boot procs s pml4 (Held boot procs s free))
    (once : LeavesOnce boot procs s.mem pml4) (selected : Adm boot procs pml4 path)
    (found : walk (child s.mem) pml4 path = some table) (full : path.length = 3) :
    Exact boot procs s.mem pml4 path (releasePt s.mem table) := by
  have leaf : ∀ i, Present (entry s.mem table i) → leafAt s.mem pml4 path i = some (entry s.mem table i) := by
    intro i present
    rw [leafAt,found,Option.bind_some,if_pos present]
  have self : TablesBelow boot procs s.mem pml4 path table := ⟨[],by rwa [List.append_nil],by rwa [List.append_nil]⟩
  refine ⟨?_,releaseTable_nodup ?_ ?_ ?_⟩
  · intro g
    rw [releasePt,mem_releaseTable_iff]
    constructor
    · rintro (rfl | ⟨i,bound,present,listed⟩)
      · exact .inl self
      · rw [List.mem_singleton.mp listed]
        exact .inr ⟨[],i,_,by rwa [List.append_nil],by rwa [List.append_nil],bound,by
          rw [List.append_nil]; exact leaf i present,rfl⟩
    · rintro (⟨more,adm,here⟩ | ⟨more,i,e,adm,length,bound,mapped,rfl⟩)
      · have last : more = [] := by
          have := adm.1
          rw [List.length_append] at this
          exact List.eq_nil_of_length_eq_zero (by omega)
        subst last
        rw [List.append_nil,found] at here
        exact .inl (Option.some.inj here).symm
      · have last : more = [] := by
          rw [List.length_append] at length
          exact List.eq_nil_of_length_eq_zero (by omega)
        subst last
        rw [List.append_nil,leafAt,found,Option.bind_some] at mapped
        split at mapped
        · rename_i present
          rw [← Option.some.inj mapped]
          exact .inr ⟨i,bound,present,List.mem_singleton_self _⟩
        · cases mapped
  · exact fun _ _ _ => List.nodup_singleton _
  · intro i left j right g present present' here there
    have same := (List.mem_singleton.mp here).symm.trans (List.mem_singleton.mp there)
    exact (once path i _ path j _ selected selected full full left right (leaf i present) (leaf j present') same).2
  · intro i bound present listed
    refine (leaves path i _ selected full bound (leaf i present)).2.2 pml4 path selected ?_
    rw [← List.mem_singleton.mp listed]
    exact found

/-- The released frames are the torn down ones, once each. -/
theorem released_exact (sp : Spaces boot s free procs) (member : pml4 ∈ procs)
    (leaves : LeavesIn boot procs s pml4 (Held boot procs s free)) (once : LeavesOnce boot procs s.mem pml4) :
    Exact boot procs s.mem pml4 [] (released s.mem pml4) := by
  have foreign : pml4 ≠ boot.kernelPml4 := fun same => sp.kernel (same ▸ member)
  have low : ∀ i, Adm boot procs pml4 ([] ++ [i]) → i < 256 := fun i adm => (adm.2.2.resolve_left foreign).2 i rfl
  refine exact_inner sp leaves once (adm_nil (.inr member)) (walk_nil _ pml4) (by simp) low fun a first present => ?_
  obtain ⟨adm,found⟩ := sp.next_table member (adm_nil (.inr member)) (walk_nil _ pml4) (by simp) (by omega)
    (fun _ => first) present
  refine exact_inner sp leaves once adm found (by simp) (fun _ => adm_index) fun b second present => ?_
  obtain ⟨adm,found⟩ := sp.next_table member adm found (by simp) second (fun nil => by simp at nil) present
  refine exact_inner sp leaves once adm found (by simp) (fun _ => adm_index) fun c third present => ?_
  obtain ⟨adm,found⟩ := sp.next_table member adm found (by simp) third (fun nil => by simp at nil) present
  exact exact_last leaves once adm found rfl

/-- Releasing distinct frames that are neither free nor still to come. -/
theorem pushAll_pmm (ok : BootOk boot) (inv : PmmInv boot s free) (framed : ∀ f ∈ pages, f ∈ frames boot)
    (nodup : pages.Nodup) (fresh : ∀ f ∈ pages, f ∉ free ++ untaken boot s) :
    PmmInv boot (pushAll boot pages s) (pages.reverse ++ free) := by
  induction pages generalizing s free with
  | nil => exact inv
  | cons page rest ih =>
    obtain ⟨here,framed⟩ := List.forall_mem_cons.mp framed
    obtain ⟨new,fresh⟩ := List.forall_mem_cons.mp fresh
    obtain ⟨once,nodup⟩ := List.nodup_cons.mp nodup
    rw [List.reverse_cons,List.append_assoc]
    refine ih (pmmFreePage_spec ok inv here new) framed nodup fun f listed again => ?_
    rcases List.mem_cons.mp again with same | old
    · exact once (same ▸ listed)
    · exact fresh f listed old

structure LifeInv (boot : Boot) (procs : List U64) (pml4 : U64) (t : Pmm) (free taken : List U64) : Prop where
  spaces : Spaces boot t free (pml4 :: procs)
  tables : Adm boot (pml4 :: procs) pml4 path → walk (child t.mem) pml4 path = some f → f ∈ frames boot
  data : ∀ f ∈ taken, f ∈ frames boot ∧ Held boot (pml4 :: procs) t free f

theorem LifeInv.evolves {rest : List U64} (inv : LifeInv boot procs pml4 t free taken)
    (evolves : Evolves boot (pml4 :: procs) anywhere t free next rest) : LifeInv boot procs pml4 next rest taken where
  spaces := evolves.spaces
  tables := by
    intro path f selected found
    rcases evolves.tables selected found with old | new
    · exact inv.tables selected old
    · exact avail_frame inv.spaces.pmm new
  data := fun f listed => (inv.data f listed).imp_right evolves.held

theorem LifeInv.lower (inv : LifeInv boot procs pml4 t free taken) (lower : lowerHalf v) :
    Adm boot (pml4 :: procs) pml4 (pathOf v) ∧ SmallOn t.mem pml4 v := by
  have selected : Adm boot (pml4 :: procs) pml4 (pathOf v) := adm_pathOf v (.inr ⟨List.mem_cons_self,lower⟩)
  exact ⟨selected,inv.spaces.smallOn List.mem_cons_self selected⟩

theorem SpaceLife.inv (ok : BootOk boot) (sp : Spaces boot s free procs)
    (owned : ∀ f ∈ held, f ∈ frames boot ∧ Held boot procs s free f) (life : SpaceLife boot s held pml4 t taken) :
    ∃ rest, LifeInv boot procs pml4 t rest taken := by
  induction life with
  | create returns =>
    obtain ⟨rest,created⟩ := pagingCreateAddressSpace_spec ok sp returns
    refine ⟨rest,created.spaces,?_,fun f listed => (owned f listed).imp_right created.held⟩
    intro path f selected found
    by_cases root : path = []
    · subst root
      rw [← Option.some.inj found]
      exact avail_frame sp.pmm created.source
    · rw [created.empty selected root] at found
      cases found
  | alloc _ returns ih =>
    obtain ⟨rest,inv⟩ := ih
    obtain ⟨left,allocated⟩ := inv.spaces.alloc ok returns
    have kept := inv.evolves (allocated.evolves anywhere)
    refine ⟨left,kept.spaces,kept.tables,List.forall_mem_cons.mpr ⟨⟨?_,?_⟩,kept.data⟩⟩
    · exact avail_frame inv.spaces.pmm allocated.source
    · exact ⟨allocated.fresh.frame,allocated.fresh.unavailable,fun _ _ => allocated.fresh.unreached⟩
  | write _ outside ih =>
    obtain ⟨rest,inv⟩ := ih
    obtain ⟨spaces,same⟩ := inv.spaces.write ok (fun f listed => (inv.data f listed).2) outside
    refine ⟨rest,spaces,?_,fun f listed => (inv.data f listed).imp_right same.held⟩
    exact fun selected found => inv.tables selected ((same.walk selected).symm.trans found)
  | map _ lower returns ih =>
    obtain ⟨rest,inv⟩ := ih
    obtain ⟨selected,small⟩ := inv.lower lower
    obtain ⟨left,update⟩ := vmmMap_spec ok inv.spaces selected small returns
    exact ⟨left,inv.evolves (update.toEvolves.weaken fun _ _ _ _ => trivial)⟩
  | unmap _ lower mapped ih =>
    obtain ⟨rest,inv⟩ := ih
    obtain ⟨selected,small⟩ := inv.lower lower
    obtain ⟨pt,found⟩ := leafTable_of_mapped small mapped
    have update := vmmUnmap_spec ok inv.spaces selected found
    exact ⟨rest,inv.evolves (update.toEvolves.weaken fun _ _ _ _ => trivial)⟩

theorem physical_frame (v e : U64) : physical v e &&& pageMask = e &&& pageMask := by
  rw [physical,BitVec.and_or_distrib_right,BitVec.and_assoc,BitVec.and_self,BitVec.and_assoc,
    show (0xFFF#64 : U64) &&& pageMask = 0#64 by decide,BitVec.and_zero,BitVec.or_zero]

theorem LifeInv.frameAt (inv : LifeInv boot procs pml4 t free taken) (lower : lowerHalf v) :
    Reddyos.frameAt t.mem pml4 v = (leafOf t pml4 v).map (· &&& pageMask) := by
  obtain ⟨selected,_⟩ := inv.lower lower
  rw [Reddyos.frameAt,inv.spaces.translate List.mem_cons_self selected,Option.map_map]
  congr 1
  funext e
  exact physical_frame v e

theorem LifeInv.leavesIn (inv : LifeInv boot procs pml4 t free taken) (mapped : MappedOnce t.mem pml4 taken) :
    LeavesIn boot (pml4 :: procs) t pml4 (· ∈ taken) := by
  refine leavesIn_of_lower inv.spaces List.mem_cons_self fun v e lower leaf => mapped.taken v _ lower ?_
  rw [inv.frameAt lower,leaf]
  rfl

theorem LifeInv.leavesOnce (inv : LifeInv boot procs pml4 t free taken) (mapped : MappedOnce t.mem pml4 taken) :
    LeavesOnce boot (pml4 :: procs) t.mem pml4 := by
  intro path i e path' i' e' selected selected' full full' bound bound' leaf leaf' same
  obtain ⟨v,lower,rfl,rfl⟩ := inv.spaces.leaf_address List.mem_cons_self selected full bound
  obtain ⟨w,lower',rfl,rfl⟩ := inv.spaces.leaf_address List.mem_cons_self selected' full' bound'
  refine (same_page lower lower').mpr (mapped.once v w (e &&& pageMask) lower lower' ?_ ?_)
  · rw [inv.frameAt lower,leafOf,leaf]
    rfl
  · rw [inv.frameAt lower',leafOf,leaf',same]
    rfl

theorem LifeInv.torn_iff (inv : LifeInv boot procs pml4 t free taken) : Torn boot (pml4 :: procs) t.mem pml4 [] f ↔
    LowerTable t.mem pml4 f ∨ ∃ v, lowerHalf v ∧ Reddyos.frameAt t.mem pml4 v = some f := by
  have foreign : pml4 ≠ boot.kernelPml4 := fun same => inv.spaces.kernel (by simp [same])
  refine or_congr ?_ ?_
  · constructor
    · rintro ⟨path,⟨length,bounds,half⟩,found⟩
      exact ⟨path,length,bounds,(half.resolve_left foreign).2,found⟩
    · rintro ⟨path,length,bounds,half,found⟩
      exact ⟨path,⟨length,bounds,.inr ⟨List.mem_cons_self,half⟩⟩,found⟩
  · constructor
    · rintro ⟨path,i,e,selected,full,bound,leaf,rfl⟩
      obtain ⟨v,lower,path,rfl⟩ := inv.spaces.leaf_address List.mem_cons_self selected full bound
      refine ⟨v,lower,?_⟩
      rw [inv.frameAt lower,leafOf,path,leaf]
      rfl
    · rintro ⟨v,lower,frame⟩
      rw [inv.frameAt lower] at frame
      obtain ⟨e,leaf,same⟩ := Option.map_eq_some_iff.mp frame
      exact ⟨pathOf v,ptIndex v,e,(inv.lower lower).1,rfl,(index_lt v).2.2.2,leaf,same⟩

theorem LifeInv.kernel_kept (inv : LifeInv boot procs pml4 t free taken) (mapped : MappedOnce t.mem pml4 taken)
    (selected : Adm boot [] boot.kernelPml4 path) (found : walk (child t.mem) boot.kernelPml4 path = some f) :
    ¬Torn boot (pml4 :: procs) t.mem pml4 [] f := by
  have here := adm_kernel selected (pml4 :: procs)
  rintro (⟨more,adm,below⟩ | ⟨more,i,e,adm,full,bound,leaf,rfl⟩)
  · obtain ⟨same,_⟩ := inv.spaces.forest.unique adm here below found
    exact inv.spaces.kernel (by simp [same])
  · exact (inv.data _ (inv.leavesIn mapped _ i e adm full bound leaf)).2.2.2 _ _ here found

/-- The teardown frees the top-level table, the tables of the lower half and the frames mapped there, each once
and nothing else; it reads no table that it has freed and leaves the kernel's tables alone. -/
theorem teardown_exact (ok : BootOk boot) (sp : Spaces boot s free procs)
    (owned : ∀ f ∈ held, f ∈ frames boot ∧ Held boot procs s free f) (life : SpaceLife boot s held pml4 t taken)
    (mapped : MappedOnce t.mem pml4 taken) : ∃ rest, TearsDown boot t rest pml4 := by
  obtain ⟨rest,inv⟩ := life.inv ok sp owned
  have sp := inv.spaces
  have member : pml4 ∈ pml4 :: procs := List.mem_cons_self
  have inside := inv.leavesIn mapped
  have data : LeavesIn boot (pml4 :: procs) t pml4 (Held boot (pml4 :: procs) t rest) :=
    fun path i e adm full bound leaf => (inv.data _ (inside path i e adm full bound leaf)).2
  have exact' := released_exact sp member data (inv.leavesOnce mapped)
  have log := pagingDestroyAddressSpaceLog_eq sp member data fun _ held => held
  have destroyed := pagingDestroyAddressSpaceLog_fst boot pml4 t
  rw [log] at destroyed
  have torn : ∀ g ∈ released t.mem pml4, g ∈ frames boot ∧ g ∉ rest ++ untaken boot t := by
    intro g listed
    rcases (exact'.members g).mp listed with ⟨more,adm,here⟩ | ⟨more,i,e,adm,full,bound,leaf,rfl⟩
    · exact ⟨inv.tables adm here,sp.apart adm here⟩
    · obtain ⟨framed,held⟩ := inv.data _ (inside _ i e adm full bound leaf)
      exact ⟨framed,held.2.1⟩
  refine ⟨rest,?_,?_,?_,?_,?_⟩
  · intro f
    rw [log,freed_teardownLog,exact'.members f]
    exact inv.torn_iff
  · rw [log,freed_teardownLog]
    exact exact'.nodup
  · rw [log]
    exact (tears_root sp member data fun _ held => held).first
  · rw [log,freed_teardownLog,← destroyed]
    exact pushAll_pmm ok sp.pmm (fun g listed => (torn g listed).1) exact'.nodup fun g listed => (torn g listed).2
  · intro path f selected found b low high
    rw [← destroyed]
    refine pushAll_outside (outside_of_not_mem (fun g listed => frame_aligned ok (torn g listed).1) ?_ ?_ low high)
    · exact (sp.table_ok (adm_kernel selected _) found).1
    · exact fun listed => inv.kernel_kept mapped selected found ((exact'.members f).mp listed)

theorem LifeInv.mappedOnce (ok : BootOk boot) (inv : LifeInv boot procs pml4 t free taken)
    (mapped : MappedOnce t.mem pml4 pages) (lower : lowerHalf virt)
    (returns : vmmMap boot pml4 virt phys flags t = .ok next) (here : leafEntry boot phys flags &&& pageMask = f)
    (new : f ∉ pages) : MappedOnce next.mem pml4 (f :: pages) := by
  obtain ⟨selected,small⟩ := inv.lower lower
  obtain ⟨rest,update⟩ := vmmMap_spec ok inv.spaces selected small returns
  have after := inv.evolves (update.toEvolves.weaken fun _ _ _ _ => trivial)
  have frames : ∀ v g, lowerHalf v → Reddyos.frameAt next.mem pml4 v = some g →
      v.toNat / 4096 = virt.toNat / 4096 ∧ g = f ∨ Reddyos.frameAt t.mem pml4 v = some g := by
    intro v g low frame
    rw [after.frameAt low,leafOf,update.leaf (inv.lower low).1 rfl (index_lt v).2.2.2] at frame
    split at frame
    · rename_i same
      rw [if_pos (leafEntry_present boot phys flags)] at frame
      exact .inl ⟨(same_page low lower).mp same.2,(Option.some.inj frame).symm.trans here⟩
    · rw [inv.frameAt low]
      exact .inr frame
  refine ⟨fun v g low frame => ?_,fun v w g low low' frame frame' => ?_⟩
  · rcases frames v g low frame with ⟨_,rfl⟩ | old
    · exact List.mem_cons_self
    · exact List.mem_cons_of_mem _ (mapped.taken v g low old)
  · rcases frames v g low frame with ⟨page,rfl⟩ | old
    · rcases frames w g low' frame' with ⟨page',_⟩ | old'
      · exact page.trans page'.symm
      · exact absurd (mapped.taken w g low' old') new
    · rcases frames w g low' frame' with ⟨_,rfl⟩ | old'
      · exact absurd (mapped.taken v g low old) new
      · exact mapped.once v w g low low' old old'

def lifeOfTwo : Except Stop ((U64 × U64 × U64) × Pmm) := do
  let (pml4,s) ← pagingCreateAddressSpace hhdmBoot (pmmInit hhdmBoot ⟨hhdmMem,0#64,0,0#64⟩)
  let (page,s) ← pmmAllocPage hhdmBoot s
  let (page',s) ← pmmAllocPage hhdmBoot s
  let s ← vmmMap hhdmBoot pml4 0x400000#64 page (pageUser ||| pageWritable) s
  let s ← vmmMap hhdmBoot pml4 0x401000#64 page' (pageUser ||| pageWritable) s
  return ((pml4,page,page'),s)

theorem teardown_exact_two : ∃ t rest,
    SpaceLife hhdmBoot (pmmInit hhdmBoot ⟨hhdmMem,0#64,0,0#64⟩) [] 0x205000#64 t [0x203000#64,0x204000#64] ∧
      frameAt t.mem 0x205000#64 0x400000#64 = some 0x204000#64 ∧
      frameAt t.mem 0x205000#64 0x401000#64 = some 0x203000#64 ∧ TearsDown hhdmBoot t rest 0x205000#64 := by
  have evaluated : lifeOfTwo.toOption.map (fun r => (r.1,frameAt r.2.mem 0x205000#64 0x400000#64,
      frameAt r.2.mem 0x205000#64 0x401000#64)) =
      some ((0x205000#64,0x204000#64,0x203000#64),some 0x204000#64,some 0x203000#64) := by decide +kernel
  cases result : lifeOfTwo with
  | error stop => rw [result] at evaluated; cases evaluated
  | ok r =>
    rw [result] at evaluated
    simp only [Except.toOption,Option.map_some,Option.some.injEq,Prod.mk.injEq] at evaluated
    obtain ⟨values,seen,seen'⟩ := evaluated
    obtain ⟨⟨root,data,data'⟩,last⟩ := r
    obtain ⟨rfl,rfl,rfl⟩ := values
    unfold lifeOfTwo at result
    obtain ⟨⟨pml4,s₁⟩,one,result⟩ := ok_of_bind result
    obtain ⟨⟨page,s₂⟩,two,result⟩ := ok_of_bind result
    obtain ⟨⟨page',s₃⟩,three,result⟩ := ok_of_bind result
    obtain ⟨s₄,four,result⟩ := ok_of_bind result
    obtain ⟨s₅,five,result⟩ := ok_of_bind result
    simp only [pure,Except.pure,Except.ok.injEq,Prod.mk.injEq] at result
    obtain ⟨⟨rfl,rfl,rfl⟩,rfl⟩ := result
    obtain ⟨free,sp,_⟩ := boot_spaces hhdmBoot_ok hhdmMem_tables
    have taken := ((@SpaceLife.create _ _ [] _ _ one).alloc two).alloc three
    obtain ⟨rest,inv⟩ := taken.inv hhdmBoot_ok sp (List.forall_mem_nil _)
    obtain ⟨_,created⟩ := pagingCreateAddressSpace_spec hhdmBoot_ok sp one
    obtain ⟨_,allocated⟩ := created.spaces.alloc hhdmBoot_ok two
    obtain ⟨_,allocated'⟩ := allocated.spaces.alloc hhdmBoot_ok three
    have bare : ∀ v f, lowerHalf v → frameAt s₃.mem 0x205000#64 v ≠ some f := by
      intro v f lower frame
      have selected := (inv.lower lower).1
      rw [inv.frameAt lower,leafOf,allocated'.same.leafAt selected (index_lt v).2.2.2,
        allocated.same.leafAt selected (index_lt v).2.2.2,leafAt,created.empty selected (by simp [pathOf])] at frame
      cases frame
    have none : MappedOnce s₃.mem 0x205000#64 [] :=
      ⟨fun v f lower frame => absurd frame (bare v f lower),fun v _ f lower _ frame => absurd frame (bare v f lower)⟩
    have first := taken.map (by decide) four
    obtain ⟨_,inv'⟩ := first.inv hhdmBoot_ok sp (List.forall_mem_nil _)
    have once := inv.mappedOnce hhdmBoot_ok none (by decide) four (f := 0x204000#64) (by decide) (by decide)
    have twice := inv'.mappedOnce hhdmBoot_ok once (by decide) five (f := 0x203000#64) (by decide) (by decide)
    have life := first.map (by decide) five
    obtain ⟨left,exactly⟩ := teardown_exact hhdmBoot_ok sp (List.forall_mem_nil _) life twice
    exact ⟨_,left,life,seen,seen',exactly⟩

end Reddyos
