import Reddyos.TouchLog
import Reddyos.VmmCalls

/-! Tearing down an address space: `paging_destroy_address_space` releases the tables of the
lower half and every frame mapped there, in one fixed order. A frame that is released twice
closes the free list to a cycle. -/
namespace Reddyos

open ByteMemory LinkedChain RadixForest TouchLog

variable {boot : Boot} {s : Pmm} {free procs pages : List U64} {pml4 : U64}

theorem load64_pushNode (page : U64) (s : Pmm) : load64 (pushNode boot page s).mem page.toNat = s.freelistHead :=
  load64_store64_same

theorem load64_pushNode_other (page : U64) (s : Pmm) (af : Aligned f) (ap : Aligned page) (other : f ≠ page) :
    load64 (pushNode boot page s).mem f.toNat = load64 s.mem f.toNat := by
  have apart := frames_apart af ap other
  exact load64_store64_apart (by omega)

/-- A free list that never ends, through aligned frames. -/
def Cyclic (boot : Boot) (s : Pmm) : Prop :=
  ∃ cells, (∀ f ∈ cells, Aligned f) ∧
    Endless boot.virt (fun page => load64 s.mem page.toNat) 0#64 s.freelistHead cells

theorem Cyclic.push (cyclic : Cyclic boot s) (aligned : Aligned page) (live : boot.virt page ≠ 0#64) :
    Cyclic boot (pushNode boot page s) := by
  obtain ⟨cells,all,endless⟩ := cyclic
  refine ⟨page :: cells,List.forall_mem_cons.mpr ⟨aligned,all⟩,?_⟩
  apply endless.push live
  · exact load64_pushNode page s
  · intro other member different
    exact load64_pushNode_other page s (all other member) aligned different

theorem Cyclic.pushAll (cyclic : Cyclic boot s) (pushed : ∀ f ∈ pages, Aligned f ∧ boot.virt f ≠ 0#64) :
    Cyclic boot (Reddyos.pushAll boot pages s) := by
  induction pages generalizing s with
  | nil => exact cyclic
  | cons page rest ih =>
    obtain ⟨⟨here,live⟩,others⟩ := List.forall_mem_cons.mp pushed
    exact ih (cyclic.push here live) others

/-- A list onto which a frame is pushed twice, or one it already holds, never ends. -/
theorem pushAll_twice (list : FreeList boot s free) (aligned : ∀ f ∈ free, Aligned f) (nodup : free.Nodup)
    (pushed : ∀ f ∈ pages, Aligned f ∧ boot.virt f ≠ 0#64) (twice : ¬(pages ++ free).Nodup) :
    Cyclic boot (pushAll boot pages s) := by
  induction pages generalizing s free with
  | nil => exact absurd nodup twice
  | cons page rest ih =>
    obtain ⟨⟨here,live⟩,others⟩ := List.forall_mem_cons.mp pushed
    have kept : ∀ other ∈ free, other ≠ page →
        load64 (pushNode boot page s).mem other.toNat = load64 s.mem other.toNat :=
      fun other member different => load64_pushNode_other page s (aligned other member) here different
    by_cases again : page ∈ free
    · obtain ⟨front,within,endless⟩ := Chain.cycle list again (load64_pushNode page s) kept
      have cyclic : Cyclic boot (pushNode boot page s) := ⟨front,fun f listed => aligned f (within f listed),endless⟩
      exact cyclic.pushAll others
    · have longer : FreeList boot (pushNode boot page s) (page :: free) := by
        apply Chain.push list live
        · exact load64_pushNode page s
        · exact fun other member => kept other member (fun same => again (same ▸ member))
      refine ih longer (List.forall_mem_cons.mpr ⟨here,aligned⟩) (List.nodup_cons.mpr ⟨again,nodup⟩) others ?_
      exact fun distinct => twice ((List.Perm.nodup_iff List.perm_middle).mp distinct)

theorem Cyclic.no_list (cyclic : Cyclic boot s) : ¬FreeList boot s listed := by
  obtain ⟨_,_,endless⟩ := cyclic
  exact endless.no_chain (virt_injective boot)

def releaseEntries (m : Mem) (visit : U64 → List U64) (n : Nat) (table : U64) : List U64 :=
  (List.range n).flatMap fun i =>
    if entry m table i &&& pagePresent = 0#64 then [] else visit (entry m table i &&& pageMask)

/-- What `destroyTable` releases, read off the memory before it. -/
def releaseTable (m : Mem) (visit : U64 → List U64) (count : Nat) (table : U64) : List U64 :=
  releaseEntries m visit count table ++ [table]

def releasePt (m : Mem) : U64 → List U64 := releaseTable m (fun f => [f]) 512
def releasePd (m : Mem) : U64 → List U64 := releaseTable m (releasePt m) 512
def releasePdpt (m : Mem) : U64 → List U64 := releaseTable m (releasePd m) 512
def released (m : Mem) : U64 → List U64 := releaseTable m (releasePdpt m) 256

theorem mem_releaseEntries : g ∈ releaseEntries m visit n table ↔
    ∃ i < n, Present (entry m table i) ∧ g ∈ visit (entry m table i &&& pageMask) := by
  unfold releaseEntries Present
  simp only [List.mem_flatMap,List.mem_range]
  constructor
  · rintro ⟨i,bound,listed⟩
    split at listed
    · cases listed
    · exact ⟨i,bound,‹_›,listed⟩
  · rintro ⟨i,bound,present,listed⟩
    exact ⟨i,bound,by rwa [if_neg present]⟩

/-- Slot `i` of a table in `destroyTable`, with a log of what is read and freed. -/
def visitEntry (visit : U64 → Pmm → Pmm × List (Touch U64)) (table : U64) (r : Pmm × List (Touch U64)) (i : Nat) :
    Pmm × List (Touch U64) :=
  if entry r.1.mem table i &&& pagePresent = 0#64 then (r.1,r.2 ++ [.read table])
  else
    let below := visit (entry r.1.mem table i &&& pageMask) r.1
    (below.1,r.2 ++ .read table :: below.2)

def destroyTableLog (boot : Boot) (visit : U64 → Pmm → Pmm × List (Touch U64)) (count : Nat) (table : U64) (s : Pmm) :
    Pmm × List (Touch U64) :=
  let r := (List.range count).foldl (visitEntry visit table) (s,[])
  (pmmFreePage boot table r.1,r.2 ++ [.free table])

def freePageLog (boot : Boot) (page : U64) (s : Pmm) : Pmm × List (Touch U64) := (pmmFreePage boot page s,[.free page])

def destroyPtLog (boot : Boot) := destroyTableLog boot (freePageLog boot) 512
def destroyPdLog (boot : Boot) := destroyTableLog boot (destroyPtLog boot) 512
def destroyPdptLog (boot : Boot) := destroyTableLog boot (destroyPdLog boot) 512

def pagingDestroyAddressSpaceLog (boot : Boot) := destroyTableLog boot (destroyPdptLog boot) 256

theorem visitEntry_fst {visit : U64 → Pmm → Pmm} (same : ∀ f s, (log f s).1 = visit f s) (list : List Nat) (r : Pmm × List (Touch U64)) :
    (list.foldl (visitEntry log table) r).1 = list.foldl (fun s i =>
      if entry s.mem table i &&& pagePresent = 0#64 then s else visit (entry s.mem table i &&& pageMask) s) r.1 := by
  induction list generalizing r with
  | nil => rfl
  | cons i rest ih =>
    rw [List.foldl_cons,List.foldl_cons,ih]
    unfold visitEntry
    split
    · rfl
    · dsimp only
      rw [same]

theorem destroyTableLog_fst {visit : U64 → Pmm → Pmm} (same : ∀ f s, (log f s).1 = visit f s) (n : Nat) (table : U64) (s : Pmm) :
    (destroyTableLog boot log n table s).1 = destroyTable boot visit n table s :=
  congrArg (pmmFreePage boot table) (visitEntry_fst same (List.range n) (s,[]))

theorem pagingDestroyAddressSpaceLog_fst (boot : Boot) (pml4 : U64) (s : Pmm) :
    (pagingDestroyAddressSpaceLog boot pml4 s).1 = pagingDestroyAddressSpace boot pml4 s :=
  destroyTableLog_fst (destroyTableLog_fst (destroyTableLog_fst (destroyTableLog_fst (fun _ _ => rfl) 512) 512) 512) 256
    pml4 s

def entryLog (m : Mem) (log : U64 → List (Touch U64)) (table : U64) (i : Nat) : List (Touch U64) :=
  .read table :: if entry m table i &&& pagePresent = 0#64 then [] else log (entry m table i &&& pageMask)

def tableLog (m : Mem) (log : U64 → List (Touch U64)) (n : Nat) (table : U64) : List (Touch U64) :=
  (List.range n).flatMap (entryLog m log table) ++ [.free table]

def ptLog (m : Mem) : U64 → List (Touch U64) := tableLog m (fun f => [.free f]) 512
def pdLog (m : Mem) : U64 → List (Touch U64) := tableLog m (ptLog m) 512
def pdptLog (m : Mem) : U64 → List (Touch U64) := tableLog m (pdLog m) 512
def teardownLog (m : Mem) : U64 → List (Touch U64) := tableLog m (pdptLog m) 256

theorem freed_tableLog (same : ∀ f, freed (log f) = order f) (m : Mem) (n : Nat) (table : U64) :
    freed (tableLog m log n table) = releaseTable m order n table := by
  unfold tableLog releaseTable releaseEntries
  rw [freed_append,freed_flatMap]
  congr 1
  refine List.flatMap_congr fun i _ => ?_
  unfold entryLog
  rw [freed_read]
  split
  · rfl
  · exact same _

theorem freed_teardownLog (m : Mem) (pml4 : U64) : freed (teardownLog m pml4) = released m pml4 :=
  freed_tableLog (freed_tableLog (freed_tableLog (freed_tableLog (fun _ => rfl) m 512) m 512) m 512) m 256 pml4

theorem entry_pushAll (aligned : ∀ g ∈ pages, Aligned g) (table : Aligned t) (apart : t ∉ pages) (bound : i < 512) :
    entry (pushAll boot pages s).mem t i = entry s.mem t i := by
  apply entry_congr bound
  intro b low high
  exact pushAll_outside (outside_of_not_mem aligned table apart low high)

/-- After `done` was pushed `visit` does what its log says, as long as the log reads nothing that was freed. -/
def Follows (boot : Boot) (s : Pmm) (visit : U64 → Pmm → Pmm × List (Touch U64)) (log : U64 → List (Touch U64))
    (f : U64) : Prop :=
  ∀ done, (∀ g ∈ done ++ freed (log f), Aligned g) → (∀ t, .read t ∈ log f → Aligned t ∧ t ∉ done) →
    ReadsFirst (log f) → visit f (pushAll boot done s) = (pushAll boot (done ++ freed (log f)) s,log f)

theorem follows_free (f : U64) : Follows boot s (freePageLog boot) (fun f => [.free f]) f := by
  intro done _ _ _
  change (pmmFreePage boot f (pushAll boot done s),[Touch.free f]) = (pushAll boot (done ++ [f]) s,[.free f])
  rw [pushAll_append]
  rfl

/-- One entry: it is read before anything behind it is freed. -/
theorem visitEntry_follows (bound : i < 512)
    (below : Present (entry s.mem table i) → Follows boot s visit log (entry s.mem table i &&& pageMask))
    (aligned : ∀ g ∈ done ++ freed (entryLog s.mem log table i), Aligned g)
    (reads : ∀ t, .read t ∈ entryLog s.mem log table i → Aligned t ∧ t ∉ done)
    (first : ReadsFirst (entryLog s.mem log table i)) (touched : List (Touch U64)) :
    visitEntry visit table (pushAll boot done s,touched) i =
      (pushAll boot (done ++ freed (entryLog s.mem log table i)) s,touched ++ entryLog s.mem log table i) := by
  obtain ⟨self,clean⟩ := reads table List.mem_cons_self
  have same : entry (pushAll boot done s).mem table i = entry s.mem table i :=
    entry_pushAll (fun g listed => aligned g (List.mem_append_left _ listed)) self clean bound
  unfold visitEntry
  dsimp only
  rw [same]
  by_cases absent : entry s.mem table i &&& pagePresent = 0#64
  · simp [entryLog,absent]
  · have whole : entryLog s.mem log table i = .read table :: log (entry s.mem table i &&& pageMask) := by
      rw [entryLog,if_neg absent]
    rw [whole] at aligned reads first ⊢
    rw [if_neg absent,below absent done aligned (fun t listed => reads t (List.mem_cons_of_mem _ listed))
      (List.pairwise_cons.mp first).2,freed_read]

theorem visitEntries_follows (list : List Nat) (bounds : ∀ i ∈ list, i < 512)
    (below : ∀ i ∈ list, Present (entry s.mem table i) → Follows boot s visit log (entry s.mem table i &&& pageMask))
    (aligned : ∀ g ∈ done ++ freed (list.flatMap (entryLog s.mem log table)), Aligned g)
    (reads : ∀ t, .read t ∈ list.flatMap (entryLog s.mem log table) → Aligned t ∧ t ∉ done)
    (first : ReadsFirst (list.flatMap (entryLog s.mem log table))) (touched : List (Touch U64)) :
    list.foldl (visitEntry visit table) (pushAll boot done s,touched) =
      (pushAll boot (done ++ freed (list.flatMap (entryLog s.mem log table))) s,
        touched ++ list.flatMap (entryLog s.mem log table)) := by
  induction list generalizing done touched with
  | nil => simp
  | cons i rest ih =>
    obtain ⟨bound,bounds⟩ := List.forall_mem_cons.mp bounds
    obtain ⟨here,below⟩ := List.forall_mem_cons.mp below
    rw [List.flatMap_cons] at aligned reads first ⊢
    obtain ⟨now,later,apart⟩ := first.split
    rw [freed_append,← List.append_assoc] at aligned ⊢
    rw [List.foldl_cons,visitEntry_follows bound here (fun g listed => aligned g (List.mem_append_left _ listed))
      (fun t listed => reads t (List.mem_append_left _ listed)) now,ih bounds below aligned ?_ later,List.append_assoc touched]
    intro t listed
    obtain ⟨frame,clean⟩ := reads t (List.mem_append_right _ listed)
    refine ⟨frame,fun again => ?_⟩
    rcases List.mem_append.mp again with old | new
    · exact clean old
    · exact apart t listed new

theorem follows_table (count : n ≤ 512)
    (below : ∀ i < n, Present (entry s.mem table i) → Follows boot s visit log (entry s.mem table i &&& pageMask)) :
    Follows boot s (destroyTableLog boot visit n) (tableLog s.mem log n) table := by
  intro done aligned reads first
  unfold tableLog at aligned reads first ⊢
  obtain ⟨first,_⟩ := first.split
  rw [freed_append,← List.append_assoc] at aligned ⊢
  unfold destroyTableLog
  rw [visitEntries_follows (List.range n) (fun i listed => Nat.lt_of_lt_of_le (List.mem_range.mp listed) count)
    (fun i listed => below i (List.mem_range.mp listed)) (fun g listed => aligned g (List.mem_append_left _ listed))
    (fun t listed => reads t (List.mem_append_left _ listed)) first []]
  have last : pushAll boot (done ++ freed ((List.range n).flatMap (entryLog s.mem log table)) ++ [table]) s =
      pmmFreePage boot table (pushAll boot (done ++ freed ((List.range n).flatMap (entryLog s.mem log table))) s) :=
    pushAll_append
  exact Prod.ext last.symm rfl

/-- The teardown follows its log, if that reads nothing that it has freed. -/
theorem teardown_follows (boot : Boot) (s : Pmm) (pml4 : U64) :
    Follows boot s (pagingDestroyAddressSpaceLog boot) (teardownLog s.mem) pml4 :=
  follows_table (by decide) fun _ _ _ => follows_table (Nat.le_refl _) fun _ _ _ =>
    follows_table (Nat.le_refl _) fun _ _ _ => follows_table (Nat.le_refl _) fun _ _ _ => follows_free _

variable {data : U64 → Prop}

def TablesBelow (boot : Boot) (procs : List U64) (m : Mem) (pml4 : U64) (path : List Nat) (g : U64) : Prop :=
  ∃ more, Adm boot procs pml4 (path ++ more) ∧ walk (child m) pml4 (path ++ more) = some g

def LeavesIn (boot : Boot) (procs : List U64) (s : Pmm) (pml4 : U64) (data : U64 → Prop) : Prop :=
  ∀ path i e, Adm boot procs pml4 path → path.length = 3 → i < 512 → leafAt s.mem pml4 path i = some e →
    data (e &&& pageMask)

theorem adm_snoc (selected : Adm boot procs pml4 path) (member : pml4 ∈ procs) (short : path.length < 3)
    (bound : i < 512) (half : path = [] → i < 256) : Adm boot procs pml4 (path ++ [i]) := by
  obtain ⟨_,indices,lower⟩ := selected
  refine ⟨by rw [List.length_append,List.length_singleton]; omega,?_,?_⟩
  · intro j listed
    rcases List.mem_append.mp listed with old | last
    · exact indices j old
    · rw [List.mem_singleton.mp last]
      exact bound
  · cases path with
    | nil =>
      refine .inr ⟨member,?_⟩
      intro j first
      obtain rfl : i = j := Option.some.inj first
      exact half rfl
    | cons j rest => exact lower

structure Tears (boot : Boot) (procs : List U64) (m : Mem) (pml4 : U64) (data : U64 → Prop) (path : List Nat)
    (log : List (Touch U64)) : Prop where
  reads : .read t ∈ log → TablesBelow boot procs m pml4 path t
  frees : .free g ∈ log → TablesBelow boot procs m pml4 path g ∨ data g
  first : ReadsFirst log

theorem TablesBelow.up (below : TablesBelow boot procs m pml4 (path ++ [i]) g) : TablesBelow boot procs m pml4 path g := by
  obtain ⟨more,adm,here⟩ := below
  rw [List.append_assoc] at adm here
  exact ⟨[i] ++ more,adm,here⟩

/-- Different slots of a table lead to different tables. -/
theorem Spaces.below_apart (sp : Spaces boot s free procs) (left : TablesBelow boot procs s.mem pml4 (path ++ [i]) g)
    (right : TablesBelow boot procs s.mem pml4 (path ++ [j]) g) : i = j := by
  obtain ⟨more,adm,here⟩ := left
  obtain ⟨more',adm',here'⟩ := right
  obtain ⟨_,same⟩ := sp.forest.unique adm adm' here here'
  rw [List.append_assoc,List.append_assoc] at same
  exact (List.cons.inj (List.append_cancel_left same)).1

theorem Spaces.not_below_itself (sp : Spaces boot s free procs) (selected : Adm boot procs pml4 path)
    (found : walk (child s.mem) pml4 path = some table) : ¬TablesBelow boot procs s.mem pml4 (path ++ [i]) table := by
  rintro ⟨more,adm,here⟩
  obtain ⟨_,same⟩ := sp.forest.unique selected adm found here
  have := congrArg List.length same
  simp at this

theorem mem_tableLog : touch ∈ tableLog m log n table ↔
    touch = .free table ∨ ∃ i < n, touch ∈ entryLog m log table i := by
  unfold tableLog
  simp only [List.mem_append,List.mem_flatMap,List.mem_range,List.mem_singleton]
  exact or_comm

theorem mem_entryLog : touch ∈ entryLog m log table i ↔
    touch = .read table ∨ Present (entry m table i) ∧ touch ∈ log (entry m table i &&& pageMask) := by
  unfold entryLog Present
  split <;> simp [*]

/-- One table: `below` says what the logs behind its present entries do. -/
theorem tears_table (sp : Spaces boot s free procs) (selected : Adm boot procs pml4 path)
    (found : walk (child s.mem) pml4 path = some table) (held : ∀ g, data g → Held boot procs s free g)
    (below : ∀ i < n, Present (entry s.mem table i) →
      Tears boot procs s.mem pml4 data (path ++ [i]) (log (entry s.mem table i &&& pageMask))) :
    Tears boot procs s.mem pml4 data path (tableLog s.mem log n table) := by
  have self : TablesBelow boot procs s.mem pml4 path table :=
    ⟨[],by rwa [List.append_nil],by rwa [List.append_nil]⟩
  refine ⟨?_,?_,?_⟩
  · intro t listed
    rcases mem_tableLog.mp listed with last | ⟨i,bound,listed⟩
    · cases last
    · rcases mem_entryLog.mp listed with here | ⟨present,listed⟩
      · cases here
        exact self
      · exact ((below i bound present).reads listed).up
  · intro g listed
    rcases mem_tableLog.mp listed with last | ⟨i,bound,listed⟩
    · cases last
      exact .inl self
    · rcases mem_entryLog.mp listed with here | ⟨present,listed⟩
      · cases here
      · exact ((below i bound present).frees listed).imp_left TablesBelow.up
  · refine List.pairwise_append.mpr ⟨?_,readsFirst_free table,?_⟩
    · refine List.pairwise_flatMap.mpr ⟨?_,?_⟩
      · intro i listed
        have bound := List.mem_range.mp listed
        refine readsFirst_read ?_ table
        split
        · exact List.Pairwise.nil
        · exact (below i bound ‹_›).first
      · refine List.pairwise_lt_range.imp_of_mem ?_
        intro i j left right less touch here touch' there g freed read
        subst freed read
        -- what is freed behind slot `i` is neither this table nor one behind slot `j`
        rcases mem_entryLog.mp here with same | ⟨present,here⟩
        · cases same
        have gone := (below i (List.mem_range.mp left) present).frees here
        rcases mem_entryLog.mp there with same | ⟨present',there⟩
        · cases same
          rcases gone with tables | some
          · exact sp.not_below_itself selected found tables
          · exact (held table some).2.2 pml4 path selected found
        · have needed := (below j (List.mem_range.mp right) present').reads there
          rcases gone with tables | some
          · exact absurd (sp.below_apart tables needed) (Nat.ne_of_lt less)
          · obtain ⟨more,adm,walked⟩ := needed
            exact (held g some).2.2 pml4 _ adm walked
    · intro touch _ last only g _ read
      rw [List.mem_singleton.mp only] at read
      cases read

/-- The tables behind the present entries of an inner table. -/
theorem Spaces.next_table (sp : Spaces boot s free procs) (member : pml4 ∈ procs) (selected : Adm boot procs pml4 path)
    (found : walk (child s.mem) pml4 path = some table) (short : path.length < 3) (bound : i < 512)
    (half : path = [] → i < 256) (present : Present (entry s.mem table i)) :
    Adm boot procs pml4 (path ++ [i]) ∧
      walk (child s.mem) pml4 (path ++ [i]) = some (entry s.mem table i &&& pageMask) := by
  have next := adm_snoc selected member short bound half
  refine ⟨next,?_⟩
  rw [walk_concat,found,Option.bind_some,child,if_pos ⟨present,sp.small member next found present⟩]

/-- A last-level table: the frames mapped by it, and then itself. -/
theorem tears_last (sp : Spaces boot s free procs) (selected : Adm boot procs pml4 path)
    (found : walk (child s.mem) pml4 path = some table) (full : path.length = 3)
    (leaves : LeavesIn boot procs s pml4 data) (held : ∀ g, data g → Held boot procs s free g) :
    Tears boot procs s.mem pml4 data path (ptLog s.mem table) := by
  refine tears_table sp selected found held fun i bound present => ⟨?_,?_,readsFirst_free _⟩
  · intro t listed
    cases List.mem_singleton.mp listed
  · intro g listed
    cases List.mem_singleton.mp listed
    refine .inr (leaves path i _ selected full bound ?_)
    rw [leafAt,found,Option.bind_some,if_pos present]

theorem tears_root (sp : Spaces boot s free procs) (member : pml4 ∈ procs) (leaves : LeavesIn boot procs s pml4 data)
    (held : ∀ g, data g → Held boot procs s free g) :
    Tears boot procs s.mem pml4 data [] (teardownLog s.mem pml4) := by
  refine tears_table sp (adm_nil (.inr member)) (walk_nil _ pml4) held fun a first present => ?_
  obtain ⟨adm,found⟩ := sp.next_table member (adm_nil (.inr member)) (walk_nil _ pml4) (by simp) (by omega)
    (fun _ => first) present
  refine tears_table sp adm found held fun b second present => ?_
  obtain ⟨adm,found⟩ := sp.next_table member adm found (by simp) second (fun nil => by simp at nil) present
  refine tears_table sp adm found held fun c third present => ?_
  obtain ⟨adm,found⟩ := sp.next_table member adm found (by simp) third (fun nil => by simp at nil) present
  exact tears_last sp adm found rfl leaves held

/-- The teardown reads what its log says and pushes the released frames, in order. -/
theorem pagingDestroyAddressSpaceLog_eq (sp : Spaces boot s free procs) (member : pml4 ∈ procs)
    (leaves : LeavesIn boot procs s pml4 data) (held : ∀ g, data g → Held boot procs s free g) :
    pagingDestroyAddressSpaceLog boot pml4 s = (pushAll boot (released s.mem pml4) s,teardownLog s.mem pml4) := by
  have tears := tears_root sp member leaves held
  have follows := teardown_follows boot s pml4 [] ?_ ?_ tears.first
  · rwa [List.nil_append,freed_teardownLog] at follows
  · intro g listed
    rcases tears.frees (mem_freed.mp listed) with ⟨more,adm,here⟩ | some
    · exact (sp.table_ok adm here).1
    · exact (held g some).1.1
  · intro t listed
    obtain ⟨more,adm,here⟩ := tears.reads listed
    exact ⟨(sp.table_ok adm here).1,List.not_mem_nil⟩

/-- The teardown pushes the released frames, in order. -/
theorem pagingDestroyAddressSpace_eq (sp : Spaces boot s free procs) (member : pml4 ∈ procs)
    (leaves : LeavesIn boot procs s pml4 data) (held : ∀ g, data g → Held boot procs s free g) :
    pagingDestroyAddressSpace boot pml4 s = pushAll boot (released s.mem pml4) s ∧
      ∀ g ∈ released s.mem pml4, TablesBelow boot procs s.mem pml4 [] g ∨ data g := by
  rw [← pagingDestroyAddressSpaceLog_fst,pagingDestroyAddressSpaceLog_eq sp member leaves held]
  refine ⟨rfl,fun g listed => ?_⟩
  rw [← freed_teardownLog] at listed
  exact (tears_root sp member leaves held).frees (mem_freed.mp listed)

theorem mem_releaseTable (bound : i < n) (present : Present (entry m table i))
    (listed : g ∈ visit (entry m table i &&& pageMask)) : g ∈ releaseTable m visit n table :=
  List.mem_append_left _ (mem_releaseEntries.mpr ⟨i,bound,present,listed⟩)

theorem lower_address (a b c d : Nat) (first : a < 256) (second : b < 512) (third : c < 512) (last : d < 512) :
    ∃ v : U64, lowerHalf v ∧ pathOf v = [a,b,c] ∧ ptIndex v = d := by
  have value : (BitVec.ofNat 64 (a * 2^39 + b * 2^30 + c * 2^21 + d * 2^12)).toNat =
      a * 2^39 + b * 2^30 + c * 2^21 + d * 2^12 := by
    rw [BitVec.toNat_ofNat]
    omega
  refine ⟨BitVec.ofNat 64 (a * 2^39 + b * 2^30 + c * 2^21 + d * 2^12),?_,?_,?_⟩
  · unfold lowerHalf
    omega
  · unfold pathOf
    rw [pml4Index_eq,pdptIndex_eq,pdIndex_eq,value]
    congr 1
    · omega
    congr 1
    · omega
    congr 1
    omega
  · rw [ptIndex_eq,value]
    omega

/-- Every last-level entry of a lower half belongs to an address. -/
theorem Spaces.leaf_address (sp : Spaces boot s free procs) (member : pml4 ∈ procs) (selected : Adm boot procs pml4 path)
    (full : path.length = 3) (bound : i < 512) : ∃ v, lowerHalf v ∧ pathOf v = path ∧ ptIndex v = i := by
  obtain ⟨_,bounds,half⟩ := selected
  match path, full with
  | [a,b,c], _ =>
    rcases half with kernel | ⟨_,lower⟩
    · exact absurd (kernel ▸ member) sp.kernel
    · exact lower_address a b c i (lower a rfl) (bounds b (by simp)) (bounds c (by simp)) bound

/-- It is enough to look at the addresses of the lower half. -/
theorem leavesIn_of_lower (sp : Spaces boot s free procs) (member : pml4 ∈ procs)
    (leaves : ∀ v e, lowerHalf v → leafOf s pml4 v = some e → data (e &&& pageMask)) : LeavesIn boot procs s pml4 data := by
  intro path i e selected full bound leaf
  obtain ⟨v,low,rfl,rfl⟩ := sp.leaf_address member selected full bound
  exact leaves v e low leaf

/-- Everything mapped in the lower half is released. -/
theorem mem_released (lower : lowerHalf v) (leaf : leafOf s pml4 v = some e) : e &&& pageMask ∈ released s.mem pml4 := by
  unfold leafOf leafAt at leaf
  obtain ⟨pt,found,leaf⟩ := Option.bind_eq_some_iff.mp leaf
  unfold pathOf at found
  simp only [walk_cons,walk_nil] at found
  obtain ⟨pdpt,first,found⟩ := Option.bind_eq_some_iff.mp found
  obtain ⟨pd,second,found⟩ := Option.bind_eq_some_iff.mp found
  obtain ⟨pt',third,found⟩ := Option.bind_eq_some_iff.mp found
  obtain rfl := Option.some.inj found
  obtain ⟨_,second_bound,third_bound,last_bound⟩ := index_lt v
  obtain ⟨present₁,rfl⟩ := child_some first
  obtain ⟨present₂,rfl⟩ := child_some second
  obtain ⟨present₃,rfl⟩ := child_some third
  split at leaf
  · rename_i present
    obtain rfl := Option.some.inj leaf
    refine mem_releaseTable (lower_index lower) present₁ (mem_releaseTable second_bound present₂
      (mem_releaseTable third_bound present₃ (mem_releaseTable last_bound present ?_)))
    exact List.mem_singleton_self _
  · cases leaf

end Reddyos
