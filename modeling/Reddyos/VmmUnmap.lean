import Reddyos.PageTree

/-! What `vmm_unmap` does to memory whatever it holds: with the tables of the page in place it clears one
last-level entry, without them it clears a word that is no entry of the page. -/
namespace Reddyos

open ByteMemory RadixForest

def leafTable (m : Mem) (root v : U64) : Option U64 := walk (child m) root (pathOf v)

def unmapTable (m : Mem) (root v : U64) : U64 :=
  let pdpt := entry m root (pml4Index v) &&& pageMask
  let pd := entry m pdpt (pdptIndex v) &&& pageMask
  entry m pd (pdIndex v) &&& pageMask

/-- Address spaces made of distinct table frames, which two of them share only in the same place. -/
structure TableTrees (m : Mem) (roots : List U64) : Prop where
  frame : ∀ root ∈ roots, FrameOk root
  inPlace : ∀ root ∈ roots, ∀ root' ∈ roots, TablePath path → TablePath path' →
    walk (child m) root path = some f → walk (child m) root' path' = some f → path = path'
  top : ∀ root ∈ roots, i < 512 → Present (entry m root i) → ¬Large (entry m root i)

def SmallPages (m : Mem) (root : U64) : Prop :=
  ∀ path i f, TablePath (path ++ [i]) → walk (child m) root path = some f → Present (entry m f i) →
    ¬Large (entry m f i)

/-- Only the last-level entry of `v` has changed, and its page is gone; another address space loses the
page as well when it shares that entry. -/
structure UnmapsOne (roots : List U64) (m m' : Mem) (root v : U64) : Prop where
  gone : ∀ w, SamePage v w → mmuTranslate m' root w = none
  others : ∀ other ∈ roots, ∀ w, Canonical w → ¬SamePage v w → mmuTranslate m' other w = mmuTranslate m other w
  apart : ∀ other ∈ roots, leafTable m other v ≠ leafTable m root v →
    ∀ w, SamePage v w → mmuTranslate m' other w = mmuTranslate m other w
  bytes : ∀ b, m' b ≠ m b → ∃ pt, leafTable m root v = some pt ∧
    entryAddr pt (ptIndex v) ≤ b ∧ b < entryAddr pt (ptIndex v) + 8

variable {m m' : Mem} {s : Pmm} {roots : List U64} {root other v w pt f : U64}

theorem vmmUnmap_mem (root v : U64) (s : Pmm) :
    vmmUnmap root v s = s.setEntry (unmapTable s.mem root v) (ptIndex v) 0#64 := rfl

theorem unmapTable_eq (found : leafTable m root v = some pt) : unmapTable m root v = pt := walk_pathOf found

theorem tablePath_pathOf (v : U64) : TablePath (pathOf v) := by
  obtain ⟨first,second,third,_⟩ := index_lt v
  refine ⟨Nat.le_refl 3,?_⟩
  simp only [pathOf,List.mem_cons,List.not_mem_nil,or_false]
  rintro i (rfl | rfl | rfl)
  · exact first
  · exact second
  · exact third

theorem TablePath.stem (inside : TablePath (path ++ [i])) : TablePath path := by
  obtain ⟨length,bound⟩ := inside
  rw [List.length_append] at length
  exact ⟨by omega,fun j member => bound j (List.mem_append_left _ member)⟩

theorem TableTrees.frameOk (trees : TableTrees m roots) (member : root ∈ roots) (found : walk (child m) root path = some f) :
    FrameOk f := by
  rcases path.eq_nil_or_concat with rfl | ⟨stem,i,rfl⟩
  · rw [← Option.some.inj found]
    exact trees.frame root member
  · rw [List.concat_eq_append,walk_concat] at found
    obtain ⟨_,_,last⟩ := Option.bind_eq_some_iff.mp found
    exact child_frame last

/-- Only the entries on the way down matter to the processor. -/
theorem mmuTranslate_frame (top : Present (entry m root (pml4Index w)) → ¬Large (entry m root (pml4Index w)))
    (same : ∀ stem i f, stem ++ [i] <+: pathOf w ++ [ptIndex w] → walk (child m) root stem = some f →
      entry m' f i = entry m f i) :
    mmuTranslate m' root w = mmuTranslate m root w := by
  unfold mmuTranslate
  dsimp only
  rw [same [] (pml4Index w) root ⟨_,rfl⟩ rfl]
  by_cases absent : entry m root (pml4Index w) &&& pagePresent = 0#64
  · rw [if_pos absent,if_pos absent]
  rw [if_neg absent,if_neg absent]
  have first : walk (child m) root [pml4Index w] = some (entry m root (pml4Index w) &&& pageMask) := by
    rw [walk_cons,child,if_pos ⟨absent,top absent⟩]
    rfl
  rw [same [pml4Index w] (pdptIndex w) _ ⟨_,rfl⟩ first]
  generalize entry m root (pml4Index w) &&& pageMask = pdpt at *
  by_cases absent₂ : entry m pdpt (pdptIndex w) &&& pagePresent = 0#64
  · rw [if_pos absent₂,if_pos absent₂]
  by_cases large : entry m pdpt (pdptIndex w) &&& pageLarge ≠ 0#64
  · rw [if_neg absent₂,if_neg absent₂,if_pos large,if_pos large]
  rw [if_neg absent₂,if_neg absent₂,if_neg large,if_neg large]
  have second : walk (child m) root [pml4Index w,pdptIndex w] = some (entry m pdpt (pdptIndex w) &&& pageMask) := by
    rw [show [pml4Index w,pdptIndex w] = [pml4Index w] ++ [pdptIndex w] from rfl,walk_concat,first]
    exact if_pos ⟨absent₂,large⟩
  rw [same [pml4Index w,pdptIndex w] (pdIndex w) _ ⟨_,rfl⟩ second]
  generalize entry m pdpt (pdptIndex w) &&& pageMask = pd at *
  by_cases absent₃ : entry m pd (pdIndex w) &&& pagePresent = 0#64
  · rw [if_pos absent₃,if_pos absent₃]
  by_cases large₃ : entry m pd (pdIndex w) &&& pageLarge ≠ 0#64
  · rw [if_neg absent₃,if_neg absent₃,if_pos large₃,if_pos large₃]
  rw [if_neg absent₃,if_neg absent₃,if_neg large₃,if_neg large₃]
  have third : walk (child m) root (pathOf w) = some (entry m pd (pdIndex w) &&& pageMask) := by
    rw [show pathOf w = [pml4Index w,pdptIndex w] ++ [pdIndex w] from rfl,walk_concat,second]
    exact if_pos ⟨absent₃,large₃⟩
  rw [same (pathOf w) (ptIndex w) _ ⟨[],List.append_nil _⟩ third]

theorem TableTrees.entry_kept (trees : TableTrees s.mem roots) (member : root ∈ roots) (found : leafTable s.mem root v = some pt)
    (member' : other ∈ roots) (inside : TablePath path) (here : walk (child s.mem) other path = some f) (bound : i < 512)
    (apart : ¬(path = pathOf v ∧ f = pt ∧ i = ptIndex v)) :
    entry (s.setEntry pt (ptIndex v) e).mem f i = entry s.mem f i := by
  refine setEntry_other s (trees.frameOk member found).1 (trees.frameOk member' here).1 (index_lt v).2.2.2 bound ?_
  rintro ⟨rfl,rfl⟩
  exact apart ⟨trees.inPlace other member' root member inside (tablePath_pathOf v) here found,rfl,rfl⟩

theorem TableTrees.translate_kept (trees : TableTrees s.mem roots) (member : root ∈ roots)
    (found : leafTable s.mem root v = some pt) (member' : other ∈ roots)
    (apart : ¬(leafTable s.mem other w = some pt ∧ pathOf w = pathOf v ∧ ptIndex w = ptIndex v)) :
    mmuTranslate (s.setEntry pt (ptIndex v) e).mem other w = mmuTranslate s.mem other w := by
  refine mmuTranslate_frame (trees.top other member' (index_lt w).1) fun stem i f short here => ?_
  have whole : ∀ j ∈ pathOf w ++ [ptIndex w], j < 512 := by
    intro j inPath
    rcases List.mem_append.mp inPath with path | last
    · exact (tablePath_pathOf w).2 j path
    · rw [List.mem_singleton.mp last]
      exact (index_lt w).2.2.2
  have length := short.length_le
  rw [List.length_append,List.length_append] at length
  have length : stem.length + 1 ≤ 3 + 1 := length
  have inside : TablePath stem := ⟨Nat.le_of_succ_le_succ length,fun j inStem =>
    whole j (short.subset (List.mem_append_left _ inStem))⟩
  refine trees.entry_kept member found member' inside here (whole i (short.subset (by simp))) ?_
  rintro ⟨rfl,rfl,rfl⟩
  have same := short.eq_of_length (by simp [pathOf])
  obtain ⟨path,index⟩ := List.append_inj same rfl
  exact apart ⟨by rw [leafTable,← path]; exact here,path.symm,(List.singleton_inj.mp index).symm⟩

theorem TableTrees.walk_kept (trees : TableTrees s.mem roots) (member : root ∈ roots)
    (found : leafTable s.mem root v = some pt) (member' : other ∈ roots) (inside : TablePath path) :
    walk (child (s.setEntry pt (ptIndex v) e).mem) other path = walk (child s.mem) other path := by
  refine @walk_congr _ _ _ _ (fun top path => top ∈ roots ∧ TablePath path) other path
    (fun selected => ⟨selected.1,selected.2.stem⟩) (fun top stem i f selected here => ?_) ⟨member',inside⟩
  refine child_congr (trees.entry_kept member found selected.1 selected.2.stem here (selected.2.2 i (by simp)) ?_)
  rintro ⟨rfl,_⟩
  have length := selected.2.1
  simp [pathOf] at length

theorem TableTrees.translate_cleared (trees : TableTrees s.mem roots) (small : SmallPages s.mem root)
    (member : root ∈ roots) (found : leafTable s.mem root v = some pt) (path : pathOf w = pathOf v)
    (index : ptIndex w = ptIndex v) : mmuTranslate (s.setEntry pt (ptIndex v) 0#64).mem root w = none := by
  have inside := tablePath_pathOf v
  have smallOn : SmallOn (s.setEntry pt (ptIndex v) 0#64).mem root w := by
    intro stem i f short here
    have inside' : TablePath (stem ++ [i]) := ⟨by simpa [pathOf] using short.length_le,fun j inStem =>
      (tablePath_pathOf w).2 j (short.subset inStem)⟩
    rw [trees.walk_kept member found member inside'.stem] at here
    rw [trees.entry_kept member found member inside'.stem here (inside'.2 i (by simp))]
    · exact small stem i f inside' here
    · rintro ⟨rfl,_⟩
      have length := short.length_le
      simp [pathOf] at length
  rw [mmuTranslate_leafAt smallOn,leafAt,path,trees.walk_kept member found member inside,
    show walk (child s.mem) root (pathOf v) = some pt from found,Option.bind_some,index,setEntry_same,
    if_neg not_present_zero]
  rfl

theorem SmallPages.untranslated (small : SmallPages m root) (missing : leafTable m root v = none)
    (path : pathOf w = pathOf v) : mmuTranslate m root w = none := by
  have smallOn : SmallOn m root w := by
    intro stem i f short here
    exact small stem i f ⟨by simpa [pathOf] using short.length_le,fun j inStem =>
      (tablePath_pathOf w).2 j (short.subset inStem)⟩ here
  rw [mmuTranslate_leafAt smallOn,leafAt,path,show walk (child m) root (pathOf v) = none from missing]
  rfl

/-- With the tables in place the entry of the page is cleared. -/
theorem TableTrees.unmaps (trees : TableTrees s.mem roots) (member : root ∈ roots) (small : SmallPages s.mem root)
    (canonical : Canonical v) (found : leafTable s.mem root v = some pt) :
    UnmapsOne roots s.mem (s.setEntry pt (ptIndex v) 0#64).mem root v := by
  refine ⟨fun w page => ?_,fun other member' w canonical' apart => ?_,fun other member' apart w page => ?_,
    fun b changed => ⟨pt,found,?_⟩⟩
  · obtain ⟨path,index⟩ := (same_page_canonical canonical (page.canonical canonical)).mpr page
    exact trees.translate_cleared small member found path index
  · refine trees.translate_kept member found member' fun ⟨_,same⟩ => apart ?_
    exact (same_page_canonical canonical canonical').mp same
  · refine trees.translate_kept member found member' fun ⟨here,path,_⟩ => apart ?_
    rw [found,← here,leafTable,leafTable,path]
  · by_contra outside
    exact changed (store64_outside (by omega))

/-- Without them no word is an entry of the page, so the one that is cleared must be 0 already. -/
theorem SmallPages.unmaps_iff (small : SmallPages s.mem root) (canonical : Canonical v)
    (found : leafTable s.mem root v = none) (table : U64) :
    UnmapsOne roots s.mem (s.setEntry table (ptIndex v) 0#64).mem root v ↔ entry s.mem table (ptIndex v) = 0#64 := by
  constructor
  · intro unmaps
    by_contra nonzero
    have same : (s.setEntry table (ptIndex v) 0#64).mem = s.mem := by
      funext b
      by_contra changed
      obtain ⟨pt,here,_⟩ := unmaps.bytes b changed
      rw [found] at here
      cases here
    have cleared : entry (s.setEntry table (ptIndex v) 0#64).mem table (ptIndex v) = 0#64 := setEntry_same s
    rw [same] at cleared
    exact nonzero cleared
  · intro zero
    have same : (s.setEntry table (ptIndex v) 0#64).mem = s.mem := by
      rw [← zero]
      exact store64_load64 _ _
    rw [same]
    refine ⟨fun w page => ?_,fun _ _ _ _ _ => rfl,fun _ _ _ _ _ => rfl,fun b changed => absurd rfl changed⟩
    exact small.untranslated found ((same_page_canonical canonical (page.canonical canonical)).mpr page).1

/-- `vmm_unmap` does what it should exactly when the tables of the page are there, or when the word that it
clears without them is 0 already. -/
theorem unmap_touches_one (trees : TableTrees s.mem roots) (member : root ∈ roots) (small : SmallPages s.mem root)
    (canonical : Canonical v) :
    UnmapsOne roots s.mem (vmmUnmap root v s).mem root v ↔
      (leafTable s.mem root v).isSome ∨ entry s.mem (unmapTable s.mem root v) (ptIndex v) = 0#64 := by
  rw [vmmUnmap_mem]
  cases found : leafTable s.mem root v with
  | some pt =>
    rw [unmapTable_eq found]
    exact iff_of_true (trees.unmaps member small canonical found) (.inl rfl)
  | none =>
    simp only [Option.isSome_none,Bool.false_eq_true,false_or]
    exact small.unmaps_iff canonical found _

/-- A top-level table without present entries. -/
theorem bare_tables (frame : FrameOk root) (bare : ∀ i < 512, ¬Present (entry m root i)) :
    TableTrees m [root] ∧ SmallPages m root ∧ ∀ v, leafTable m root v = none := by
  have alone : ∀ path f, TablePath path → walk (child m) root path = some f → path = [] := by
    intro path f inside found
    cases path with
    | nil => rfl
    | cons i rest =>
      rw [walk_cons,child,if_neg fun here => bare i (inside.2 i (by simp)) here.1] at found
      cases found
  refine ⟨⟨?_,?_,?_⟩,?_,fun v => ?_⟩
  · simpa using frame
  · intro path path' f top member top' member' inside inside' found found'
    rw [List.mem_singleton.mp member] at found
    rw [List.mem_singleton.mp member'] at found'
    rw [alone path f inside found,alone path' f inside' found']
  · intro i top member bound present
    rw [List.mem_singleton.mp member] at present
    exact absurd present (bare i bound)
  · intro path i f inside found present
    obtain rfl := alone path f inside.stem found
    obtain rfl := Option.some.inj found
    exact absurd present (bare i (inside.2 i (by simp)))
  · cases found : leafTable m root v with
    | none => rfl
    | some pt =>
      have none := alone _ pt (tablePath_pathOf v) found
      simp [pathOf] at none

def lowBit : Pmm := ⟨fun b => if b = 0 then 1#8 else 0#8,0#64,0,0#64⟩

theorem lowBit_bare : ∀ i < 512, ¬Present (entry lowBit.mem 0x8000#64 i) := by
  intro i bound
  have same : entry lowBit.mem 0x8000#64 i = entry (fun _ => 0#8) 0x8000#64 i := by
    refine entry_congr bound fun b low _ => if_neg ?_
    have : (0x8000#64).toNat = 0x8000 := rfl
    omega
  rw [same,entry_zero]
  exact not_present_zero

/-- Unmapping a page that has no tables clears the word at address 0. -/
theorem unmap_clears_low : TableTrees lowBit.mem [0x8000#64] ∧ SmallPages lowBit.mem 0x8000#64 ∧ Canonical 0#64 ∧
    ¬UnmapsOne [0x8000#64] lowBit.mem (vmmUnmap 0x8000#64 0#64 lowBit).mem 0x8000#64 0#64 := by
  have frame : FrameOk 0x8000#64 := ⟨rfl,by decide⟩
  obtain ⟨trees,small,missing⟩ := bare_tables frame lowBit_bare
  refine ⟨trees,small,.inl (by decide),fun unmaps => ?_⟩
  have changed : (vmmUnmap 0x8000#64 0#64 lowBit).mem 0 ≠ lowBit.mem 0 := by decide
  obtain ⟨pt,found,_⟩ := unmaps.bytes 0 changed
  rw [missing] at found
  cases found

def onePage : Pmm :=
  ((((Pmm.mk (fun _ => 0#8) 0#64 0 0#64).setEntry 0x1000#64 0 0x2003#64).setEntry 0x2000#64 0 0x3003#64).setEntry
    0x3000#64 0 0x4003#64).setEntry 0x4000#64 0 0x5003#64

theorem onePage_empty (aligned : Aligned table) (bound : i < 512) (nonzero : i ≠ 0) : entry onePage.mem table i = 0#64 := by
  have step : ∀ (s : Pmm) (table' w : U64), Aligned table' →
      entry (s.setEntry table' 0 w).mem table i = entry s.mem table i := fun s table' w aligned' =>
    setEntry_other s aligned' aligned (by decide) bound fun same => nonzero same.2
  rw [onePage,step _ 0x4000#64 _ rfl,step _ 0x3000#64 _ rfl,step _ 0x2000#64 _ rfl,step _ 0x1000#64 _ rfl]
  exact entry_zero table i

theorem onePage_first : child onePage.mem 0x1000#64 0 = some 0x2000#64 ∧ child onePage.mem 0x2000#64 0 = some 0x3000#64 ∧
    child onePage.mem 0x3000#64 0 = some 0x4000#64 := by decide

def onePageTables : List (List Nat × U64) := [([],0x1000#64),([0],0x2000#64),([0,0],0x3000#64),([0,0,0],0x4000#64)]

theorem onePage_zero (table : U64) (aligned : Aligned table) (bound : i < 512)
    (found : walk (child onePage.mem) table (i :: rest) = some f) : i = 0 := by
  by_contra nonzero
  rw [walk_cons,child,onePage_empty aligned bound nonzero,if_neg fun here => not_present_zero here.1] at found
  cases found

theorem onePage_walk (inside : TablePath path) (found : walk (child onePage.mem) 0x1000#64 path = some f) :
    (path,f) ∈ onePageTables := by
  obtain ⟨first,second,third⟩ := onePage_first
  obtain ⟨length,bound⟩ := inside
  match path with
  | [] => simp [onePageTables,← Option.some.inj found]
  | i :: rest =>
    obtain rfl := onePage_zero 0x1000#64 rfl (bound i (by simp)) found
    rw [walk_cons,first,Option.bind_some] at found
    match rest with
    | [] => simp [onePageTables,← Option.some.inj found]
    | j :: rest =>
      obtain rfl := onePage_zero 0x2000#64 rfl (bound j (by simp)) found
      rw [walk_cons,second,Option.bind_some] at found
      match rest with
      | [] => simp [onePageTables,← Option.some.inj found]
      | k :: rest =>
        obtain rfl := onePage_zero 0x3000#64 rfl (bound k (by simp)) found
        rw [walk_cons,third,Option.bind_some] at found
        have length : rest.length + 3 ≤ 3 := length
        obtain rfl : rest = [] := List.length_eq_zero_iff.mp (by omega)
        simp [onePageTables,← Option.some.inj found]

theorem onePage_small : SmallPages onePage.mem 0x1000#64 := by
  intro path i f inside found present
  have listed := onePage_walk inside.stem found
  have aligned : ∀ x ∈ onePageTables, x.2.toNat % 4096 = 0 := by decide
  have flat : ∀ x ∈ onePageTables, ¬Large (entry onePage.mem x.2 0) := by decide
  by_cases zero : i = 0
  · subst zero
    exact flat (path,f) listed
  · rw [onePage_empty (aligned (path,f) listed) (inside.2 i (by simp)) zero] at present
    exact absurd present not_present_zero

theorem onePage_trees : TableTrees onePage.mem [0x1000#64] := by
  have injective : ∀ x ∈ onePageTables, ∀ y ∈ onePageTables, x.2 = y.2 → x.1 = y.1 := by decide
  refine ⟨?_,?_,?_⟩
  · intro root member
    rw [List.mem_singleton.mp member]
    exact ⟨rfl,by decide⟩
  · intro path path' f top member top' member' inside inside' found found'
    rw [List.mem_singleton.mp member] at found
    rw [List.mem_singleton.mp member'] at found'
    exact injective _ (onePage_walk inside found) _ (onePage_walk inside' found') rfl
  · intro i top member bound present
    rw [List.mem_singleton.mp member] at present ⊢
    exact onePage_small [] i _ ⟨by simp,by simpa using bound⟩ rfl present

theorem unmap_touches_one_page : leafTable onePage.mem 0x1000#64 0#64 = some 0x4000#64 ∧
    UnmapsOne [0x1000#64] onePage.mem (vmmUnmap 0x1000#64 0#64 onePage).mem 0x1000#64 0#64 := by
  have found : leafTable onePage.mem 0x1000#64 0#64 = some 0x4000#64 := by decide
  refine ⟨found,(unmap_touches_one onePage_trees (by simp) onePage_small (.inl (by decide))).mpr (.inl ?_)⟩
  rw [found]
  rfl

end Reddyos
