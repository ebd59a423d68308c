import Reddyos.KernelHalf
import Reddyos.PageAccess
import Reddyos.PageTree
import Reddyos.Transitions

/-! What the processor remembers of the page tables. It may fetch any entry at any time and use it
for as long as nothing makes it forget: `invlpg` behind every change of a last-level entry, and the
load of CR3 that comes with another address space. -/
namespace Reddyos

open ByteMemory RadixForest Transitions

/-- The bit of a last-level entry that a load of CR3 respects; the kernel has no name for it. -/
def pageGlobal : U64 := 0x100#64

def GlobalPage (e : U64) : Prop := e &&& pageGlobal ≠ 0#64

/-- Everything that may be remembered: tables by the slots on the way to them, and entries that end a
translation, with their level. -/
structure Caches where
  cr3 : U64
  tables : List Nat → U64 → Prop
  pages : U64 → Nat → U64 → Prop

/-- The address that an entry of a level gives: 1 GiB, 2 MiB and 4 KiB pages. -/
def cachedAddress (v : U64) (level : Nat) (e : U64) : U64 :=
  match level with
  | 1 => (e &&& 0x000FFFFFC0000000#64) ||| (v &&& 0x3FFFFFFF#64)
  | 2 => (e &&& 0x000FFFFFFFE00000#64) ||| (v &&& 0x1FFFFF#64)
  | _ => physical v e

/-- Tables are forgotten as well; keeping them here makes the caches larger. -/
def Caches.invlpg (c : Caches) (v : U64) : Caches :=
  { c with pages := fun w level e => c.pages w level e ∧ ¬SamePage v w }

def Caches.setCr3 (c : Caches) (cr3 : U64) : Caches :=
  ⟨cr3,fun path f => path = [] ∧ f = cr3,fun v level e => c.pages v level e ∧ GlobalPage e⟩

def Caches.invlAll (c : Caches) : Caches := c.setCr3 c.cr3

def Caches.pagingLoadCr3 (c : Caches) (cr3 : U64) : Caches := (c.setCr3 cr3).invlAll

/-- A page walk goes on from a table that is remembered. -/
inductive Fetch (m : Mem) (c : Caches) : Caches → Prop where
  | table : c.tables path table → path.length < 3 → i < 512 → child m table i = some f →
      Fetch m c { c with tables := fun path' f' => c.tables path' f' ∨ path' = path ++ [i] ∧ f' = f }
  | page : Canonical v → c.tables (pathOf v) table → Present (entry m table (ptIndex v)) →
      Fetch m c { c with pages := fun w level e => c.pages w level e ∨
        w = v ∧ level = 3 ∧ e = entry m table (ptIndex v) }
  | large : Canonical v → stem ++ [i] <+: pathOf v → stem ≠ [] → c.tables stem table → Present (entry m table i) →
      Large (entry m table i) → Fetch m c { c with pages := fun w level e => c.pages w level e ∨
        w = v ∧ level = stem.length ∧ e = (entry m table i) }

structure CachedSpaces where
  pmm : Pmm
  spaces : List Space
  held : List U64
  caches : Caches

inductive CacheEvent where
  | space (e : SpaceEvent)
  | load (cr3 : U64)
  | fetch

/-- The kernel's own lower half is left alone. -/
def Fetches (boot : Boot) (c : Caches) : Prop :=
  c.cr3 = boot.kernelPml4 → ∀ i rest f, c.tables (i :: rest) f → 256 ≤ i

inductive CacheStep (boot : Boot) (c : CachedSpaces) : CacheEvent → CachedSpaces → Prop where
  | alloc : pmmAllocPage boot c.pmm = .ok (page,next) →
      CacheStep boot c (.space .alloc) { c with pmm := next, held := page :: c.held }
  | write : (∀ b, Outside c.held b → mem b = c.pmm.mem b) →
      CacheStep boot c (.space .write) { c with pmm := { c.pmm with mem := mem } }
  | create : pagingCreateAddressSpace boot c.pmm = .ok (pml4,next) →
      CacheStep boot c (.space .create) { c with
        pmm := next, spaces := ⟨pml4,fun i => decide (Present (entry c.pmm.mem boot.kernelPml4 i))⟩ :: c.spaces }
  | map : Target boot c.spaces pml4 virt → vmmMap boot pml4 virt phys flags c.pmm = .ok next →
      CacheStep boot c (.space (.map pml4 virt phys flags)) { c with pmm := next, caches := c.caches.invlpg virt }
  | unmap : Target boot c.spaces pml4 virt → (mmuTranslate c.pmm.mem pml4 virt).isSome →
      CacheStep boot c (.space (.unmap pml4 virt)) { c with
        pmm := vmmUnmap pml4 virt c.pmm, caches := c.caches.invlpg virt }
  | load : cr3 = boot.kernelPml4 ∨ cr3 ∈ c.spaces.map Space.pml4 →
      CacheStep boot c (.load cr3) { c with caches := c.caches.pagingLoadCr3 cr3 }
  | fetch : Fetch c.pmm.mem c.caches caches → Fetches boot caches →
      CacheStep boot c .fetch { c with caches := caches }

/-- The kernel on the tables of the boot loader. -/
def CacheStart (boot : Boot) (m : Mem) (c : CachedSpaces) : Prop :=
  c = ⟨pmmInit boot ⟨m,0#64,0,0#64⟩,[],[],⟨boot.kernelPml4,fun path f => path = [] ∧ f = boot.kernelPml4,fun _ _ _ => False⟩⟩

/-- Calls clear of the boot loader's large pages; no page is mapped with the global bit. -/
def CacheGuard (boot : Boot) (m : Mem) (_ : CachedSpaces) : CacheEvent → Prop
  | .space e => e.small boot m = true ∧ ∀ pml4 virt phys flags, e = .map pml4 virt phys flags →
      ¬GlobalPage (leafEntry boot phys flags)
  | _ => True

def spaceEvents (events : List CacheEvent) : List SpaceEvent :=
  (events.filterMap fun | .space e => some e | _ => none).reverse

/-- What an access may be answered: by an entry that is remembered, or by a walk. -/
def Answers (c : CachedSpaces) (v p : U64) : Prop :=
  (∃ level e, c.caches.pages v level e ∧ p = cachedAddress v level e) ∨ mmuTranslate c.pmm.mem c.caches.cr3 v = some p

/-- The tables below `root` have the entry, at its level on the way of `v`. -/
inductive Leads (m : Mem) (root v : U64) : Nat → U64 → Prop where
  | page : leafAt m root (pathOf v) (ptIndex v) = some e → Leads m root v 3 e
  | large : stem ++ [i] <+: pathOf v → stem ≠ [] → walk (child m) root stem = some f → Present (entry m f i) →
      Large (entry m f i) → Leads m root v stem.length (entry m f i)

def treeOf (boot : Boot) (cr3 : U64) (i : Nat) : U64 := if i < 256 then cr3 else boot.kernelPml4

inductive TableKnown (boot : Boot) (procs : List U64) (m : Mem) (cr3 : U64) : List Nat → U64 → Prop where
  | root : TableKnown boot procs m cr3 [] cr3
  | below : (i < 256 → cr3 ∈ procs) → Adm boot procs (treeOf boot cr3 i) (i :: path) →
      walk (child m) (treeOf boot cr3 i) (i :: path) = some f → TableKnown boot procs m cr3 (i :: path) f

structure PageKnown (boot : Boot) (procs : List U64) (m : Mem) (cr3 v : U64) (level : Nat) (e : U64) : Prop where
  canonical : Canonical v
  leads : Leads m (treeOf boot cr3 (pml4Index v)) v level e
  own : lowerHalf v → cr3 ∈ procs ∧ ¬GlobalPage e

variable {boot : Boot} {m m' : Mem} {procs free rest : List U64} {s next : Pmm} {root v e cr3 f : U64}
variable {level : Nat} {path : List Nat} {c after : CachedSpaces} {events : List CacheEvent} {changed : Slots}

/-- The tables on the way to a last-level table are no large pages. -/
theorem smallOn_of_walk (found : walk (child m) root (pathOf v) = some f) : SmallOn m root v := by
  intro stem i g short here present large
  obtain ⟨tail,joined⟩ := short
  have missing : child m g i = none := if_neg fun both => both.2 large
  rw [← joined,walk_append,walk_concat,here,Option.bind_some,missing] at found
  cases found

theorem Leads.translate (leads : Leads m root v level e) : mmuTranslate m root v = some (cachedAddress v level e) := by
  cases leads with
  | page leaf =>
    obtain ⟨pt,found,_⟩ := Option.bind_eq_some_iff.mp leaf
    rw [mmuTranslate_leafAt (smallOn_of_walk found),leaf]
    rfl
  | large short below found present large =>
    rcases pathOf_stems short with ⟨rfl,rfl⟩ | ⟨rfl,rfl⟩ | ⟨rfl,rfl⟩
    · exact absurd rfl below
    · exact mmuTranslate_huge found present large
    · exact mmuTranslate_large found present large

theorem Leads.same (leads : Leads m root v level e) (same : TablesSame boot procs m m')
    (selected : Adm boot procs root (pathOf v)) : Leads m' root v level e := by
  cases leads with
  | page leaf => exact .page ((same.leafAt selected (index_lt v).2.2.2).trans leaf)
  | large short below found present large =>
    have here := adm_stem selected short
    have kept := same root _ _ _ (adm_closed here) found (adm_index here)
    have found' := (same.walk (adm_closed here)).trans found
    rw [← kept] at present large ⊢
    exact .large short below found' present large

theorem Leads.evolves (leads : Leads s.mem root v level e) (evolves : Evolves boot procs changed s free next rest)
    (selected : Adm boot procs root (pathOf v)) (other : ¬changed root (pathOf v) (ptIndex v)) :
    Leads next.mem root v level e := by
  cases leads with
  | page leaf => exact .page ((evolves.leaves selected rfl (index_lt v).2.2.2 other).trans leaf)
  | large short below found present large =>
    have here := adm_stem selected short
    have kept := evolves.keeps here found present
    have found' := evolves.mono (adm_closed here) found
    rw [← kept] at present large ⊢
    exact .large short below found' present large

theorem treeOf_lower (lower : lowerHalf v) : treeOf boot cr3 (pml4Index v) = cr3 := if_pos (lower_index lower)

theorem treeOf_upper (upper : upperHalf v) : treeOf boot cr3 (pml4Index v) = boot.kernelPml4 :=
  if_neg (by have := upper_index upper; omega)

theorem PageKnown.adm (known : PageKnown boot procs m cr3 v level e) :
    Adm boot procs (treeOf boot cr3 (pml4Index v)) (pathOf v) := by
  refine adm_pathOf v ?_
  rcases known.canonical with lower | upper
  · rw [treeOf_lower lower]
    exact .inr ⟨(known.own lower).1,lower⟩
  · exact .inl (treeOf_upper upper)

theorem Adm.more (selected : Adm boot procs root path) (new : U64) : Adm boot (new :: procs) root path :=
  ⟨selected.1,selected.2.1,selected.2.2.imp_right (And.imp_left (List.mem_cons_of_mem _))⟩

theorem TableKnown.same (known : TableKnown boot procs m cr3 path f) (same : TablesSame boot procs m m') :
    TableKnown boot procs m' cr3 path f := by
  cases known with
  | root => exact .root
  | below own selected found => exact .below own selected ((same.walk selected).trans found)

theorem TableKnown.more (known : TableKnown boot procs m cr3 path f) (new : U64) :
    TableKnown boot (new :: procs) m cr3 path f := by
  cases known with
  | root => exact .root
  | below own selected found => exact .below (fun low => List.mem_cons_of_mem _ (own low)) (selected.more new) found

theorem TableKnown.evolves (known : TableKnown boot procs s.mem cr3 path f)
    (evolves : Evolves boot procs changed s free next rest) : TableKnown boot procs next.mem cr3 path f := by
  cases known with
  | root => exact .root
  | below own selected found => exact .below own selected (evolves.mono selected found)

theorem PageKnown.same (known : PageKnown boot procs m cr3 v level e) (same : TablesSame boot procs m m') :
    PageKnown boot procs m' cr3 v level e :=
  ⟨known.canonical,known.leads.same same known.adm,known.own⟩

theorem PageKnown.more (known : PageKnown boot procs m cr3 v level e) (new : U64) :
    PageKnown boot (new :: procs) m cr3 v level e :=
  ⟨known.canonical,known.leads,fun lower => (known.own lower).imp_left (List.mem_cons_of_mem _)⟩

/-- An entry that survives a load of CR3 is the kernel's. -/
theorem PageKnown.load (known : PageKnown boot procs m cr3 v level e) (survives : GlobalPage e) (other : U64) :
    PageKnown boot procs m other v level e := by
  have upper : upperHalf v := known.canonical.resolve_left fun lower => (known.own lower).2 survives
  refine ⟨known.canonical,?_,fun lower => absurd survives (known.own lower).2⟩
  have leads := known.leads
  rw [treeOf_upper upper] at leads ⊢
  exact leads

/-- A slot of the loaded tables is one of the tree it belongs to. -/
theorem KernelHalf.slot (half : KernelHalf boot procs s) (loaded : cr3 = boot.kernelPml4 ∨ cr3 ∈ procs) (bound : i < 512)
    (present : Present (entry s.mem cr3 i)) : entry s.mem cr3 i = entry s.mem (treeOf boot cr3 i) i := by
  unfold treeOf
  split
  · rfl
  · rename_i high
    rcases loaded with rfl | member
    · rfl
    · exact half.shared cr3 member i (by omega) bound present

/-- A walk that goes on from a known table finds a known table. -/
theorem TableKnown.goes (half : KernelHalf boot procs s) (loaded : cr3 = boot.kernelPml4 ∨ cr3 ∈ procs)
    (known : TableKnown boot procs s.mem cr3 path table) (short : path.length < 3) (bound : i < 512)
    (clear : cr3 = boot.kernelPml4 → path = [] → 256 ≤ i) (found : child s.mem table i = some f) :
    TableKnown boot procs s.mem cr3 (path ++ [i]) f := by
  cases known with
  | root =>
    have own : i < 256 → cr3 ∈ procs := fun low => loaded.resolve_left fun kernel => by
      have := clear kernel rfl
      omega
    refine .below own ⟨by simp,by simpa using bound,?_⟩ ?_
    · unfold treeOf
      split
      · rename_i low
        exact .inr ⟨own low,by simpa using low⟩
      · exact .inl rfl
    · have same : child s.mem (treeOf boot cr3 i) i = child s.mem cr3 i := by
        unfold child
        rw [half.slot loaded bound (child_some found).1]
      rw [walk_cons,same,found]
      rfl
  | below own selected here =>
    rw [List.cons_append]
    refine .below own ⟨?_,?_,selected.2.2⟩ ?_
    · simp only [List.length_cons,List.length_append,List.length_nil] at short ⊢
      omega
    · intro j member
      rw [← List.cons_append] at member
      rcases List.mem_append.mp member with old | new
      · exact selected.2.1 j old
      · obtain rfl := List.mem_singleton.mp new
        exact bound
    · rw [← List.cons_append,walk_concat,here,Option.bind_some,found]

/-- No page that was mapped has the global bit. -/
theorem ownEntry_plain {history : List SpaceEvent}
    (plain : ∀ pml4 virt phys flags, .map pml4 virt phys flags ∈ history → ¬GlobalPage (leafEntry boot phys flags))
    (own : ownEntry boot root history page = some e) : ¬GlobalPage e := by
  induction history with
  | nil => cases own
  | cons event earlier ih =>
    have ih := ih fun pml4 virt phys flags member => plain pml4 virt phys flags (List.mem_cons_of_mem _ member)
    cases event with
    | map target virt phys flags =>
      rw [ownEntry] at own
      split at own
      · obtain rfl := Option.some.inj own
        exact plain target virt phys flags List.mem_cons_self
      · exact ih own
    | unmap target virt =>
      rw [ownEntry] at own
      split at own
      · cases own
      · exact ih own
    | alloc => exact ih own
    | write => exact ih own
    | create => exact ih own

/-- What may be remembered is in the tables: in those that are loaded for the lower half, in the
kernel's for the upper half. -/
structure CachesKnown (boot : Boot) (procs : List U64) (m : Mem) (caches : Caches) : Prop where
  loaded : caches.cr3 = boot.kernelPml4 ∨ caches.cr3 ∈ procs
  tables : ∀ path f, caches.tables path f → TableKnown boot procs m caches.cr3 path f
  pages : ∀ v level e, caches.pages v level e → PageKnown boot procs m caches.cr3 v level e

variable {caches : Caches}

theorem CachesKnown.same (known : CachesKnown boot procs m caches) (same : TablesSame boot procs m m') :
    CachesKnown boot procs m' caches :=
  ⟨known.loaded,fun path f there => (known.tables path f there).same same,
    fun v level e there => (known.pages v level e there).same same⟩

theorem CachesKnown.more (known : CachesKnown boot procs m caches) (new : U64) : CachesKnown boot (new :: procs) m caches :=
  ⟨known.loaded.imp_right (List.mem_cons_of_mem _),fun path f there => (known.tables path f there).more new,
    fun v level e there => (known.pages v level e there).more new⟩

/-- A call changes one last-level entry, whose page is forgotten behind it. -/
theorem CachesKnown.invlpg (known : CachesKnown boot procs s.mem caches) (canonical : Canonical virt)
    (update : Updated boot procs s free pml4 (pathOf virt) (ptIndex virt) w next rest) :
    CachesKnown boot procs next.mem (caches.invlpg virt) := by
  refine ⟨known.loaded,fun path f there => (known.tables path f there).evolves update.toEvolves,?_⟩
  rintro v level e ⟨there,other⟩
  have page := known.pages v level e there
  refine ⟨page.canonical,page.leads.evolves update.toEvolves page.adm ?_,page.own⟩
  rintro ⟨_,path,index⟩
  exact other ((same_page_canonical canonical page.canonical).mp ⟨path,index⟩)

theorem CachesKnown.load (known : CachesKnown boot procs m caches) (loads : cr3 = boot.kernelPml4 ∨ cr3 ∈ procs) :
    CachesKnown boot procs m (caches.pagingLoadCr3 cr3) := by
  refine ⟨loads,?_,?_⟩
  · rintro path f ⟨rfl,rfl⟩
    exact .root
  · rintro v level e ⟨⟨there,survives⟩,_⟩
    exact (known.pages v level e there).load survives cr3

theorem KernelHalf.same (half : KernelHalf boot procs s) (same : TablesSame boot procs s.mem next.mem) :
    KernelHalf boot procs next := by
  have entries (root : U64) (member : root = boot.kernelPml4 ∨ root ∈ procs) (i : Nat) (bound : i < 512) :
      entry next.mem root i = entry s.mem root i := same _ [] _ i (adm_nil member) rfl bound
  refine ⟨fun i bound => ?_,fun root member i low high => ?_⟩
  · rw [entries _ (.inl rfl) i bound]
    exact half.plain i bound
  · rw [entries _ (.inr member) i high,entries _ (.inl rfl) i high]
    exact half.shared root member i low high

/-- A known table on the way of an address is one of the tree that the address belongs to. -/
theorem TableKnown.on_way (known : TableKnown boot procs m cr3 path f) (below : path ≠ []) (way : path <+: pathOf v) :
    (pml4Index v < 256 → cr3 ∈ procs) ∧ walk (child m) (treeOf boot cr3 (pml4Index v)) path = some f := by
  cases known with
  | root => exact absurd rfl below
  | below own selected found =>
    obtain ⟨rfl,_⟩ := List.cons_prefix_cons.mp way
    exact ⟨own,found⟩

theorem CachesKnown.ends (known : CachesKnown boot procs m caches)
    (page : PageKnown boot procs m caches.cr3 v level e) :
    CachesKnown boot procs m { caches with pages := fun w l e' => caches.pages w l e' ∨ w = v ∧ l = level ∧ e' = e } := by
  refine ⟨known.loaded,known.tables,?_⟩
  rintro w l e' (old | ⟨rfl,rfl,rfl⟩)
  · exact known.pages w l e' old
  · exact page

variable {spaces : List Space} {held : List U64} {history : List SpaceEvent} {caches' : Caches}

theorem CachesKnown.fetch (inv : SpacesInv boot m history s spaces held free)
    (plain : ∀ pml4 virt phys flags, .map pml4 virt phys flags ∈ history → ¬GlobalPage (leafEntry boot phys flags))
    (half : KernelHalf boot (spaces.map Space.pml4) s) (known : CachesKnown boot (spaces.map Space.pml4) s.mem caches)
    (fetches : Fetch s.mem caches caches') (clear : Fetches boot caches') :
    CachesKnown boot (spaces.map Space.pml4) s.mem caches' := by
  cases fetches with
  | @table path table i f from' short bound found =>
    refine ⟨known.loaded,?_,known.pages⟩
    rintro path' f' (old | ⟨rfl,rfl⟩)
    · exact known.tables path' f' old
    · refine (known.tables path table from').goes half known.loaded short bound (fun kernel top => ?_) found
      subst top
      exact clear kernel i [] f' (.inr ⟨rfl,rfl⟩)
  | @page v table canonical from' present =>
    obtain ⟨own,found⟩ := (known.tables _ _ from').on_way (v := v) (by simp [pathOf]) (List.prefix_refl _)
    have leaf : leafAt s.mem (treeOf boot caches.cr3 (pml4Index v)) (pathOf v) (ptIndex v) =
        some (entry s.mem table (ptIndex v)) := by
      rw [leafAt,found,Option.bind_some,if_pos present]
    refine known.ends ⟨canonical,.page leaf,fun lower => ?_⟩
    have member := own (lower_index lower)
    obtain ⟨space,listed,same⟩ := List.mem_map.mp member
    rw [treeOf_lower lower,← same,inv.own listed lower] at leaf
    exact ⟨member,ownEntry_plain plain leaf⟩
  | @large v stem i table canonical short below from' present large =>
    obtain ⟨own,found⟩ := (known.tables _ _ from').on_way below (List.IsPrefix.trans (List.prefix_append _ _) short)
    refine known.ends ⟨canonical,.large short below found present large,fun lower => ?_⟩
    have member := own (lower_index lower)
    rw [treeOf_lower lower] at found
    exact absurd large (inv.forest.small member (adm_stem (adm_pathOf v (.inr ⟨member,lower⟩)) short) found present)

structure CachesInv (boot : Boot) (m : Mem) (events : List CacheEvent) (c : CachedSpaces) : Prop where
  run : SpacesRun boot m (spaceEvents events) c.pmm c.spaces c.held
  small : ∀ e ∈ spaceEvents events, e.small boot m = true
  plain : ∀ pml4 virt phys flags, .map pml4 virt phys flags ∈ spaceEvents events → ¬GlobalPage (leafEntry boot phys flags)
  half : KernelHalf boot (c.spaces.map Space.pml4) c.pmm
  known : CachesKnown boot (c.spaces.map Space.pml4) c.pmm.mem c.caches

@[simp]
theorem spaceEvents_space (events : List CacheEvent) (e : SpaceEvent) :
    spaceEvents (events ++ [.space e]) = e :: spaceEvents events := by
  simp [spaceEvents]

@[simp]
theorem spaceEvents_load (events : List CacheEvent) (cr3 : U64) : spaceEvents (events ++ [.load cr3]) = spaceEvents events := by
  simp [spaceEvents]

@[simp]
theorem spaceEvents_fetch (events : List CacheEvent) : spaceEvents (events ++ [.fetch]) = spaceEvents events := by
  simp [spaceEvents]

theorem Target.canonical (target : Target boot spaces pml4 virt) : Canonical virt :=
  target.elim (fun kernel => .inr kernel.2) fun own => .inl own.2

theorem CachesInv.space {e : SpaceEvent} (inv : CachesInv boot m events c)
    (met : e.small boot m = true ∧ ∀ pml4 virt phys flags, e = .map pml4 virt phys flags → ¬GlobalPage (leafEntry boot phys flags))
    (run : SpacesRun boot m (e :: spaceEvents events) after.pmm after.spaces after.held)
    (half : KernelHalf boot (after.spaces.map Space.pml4) after.pmm)
    (known : CachesKnown boot (after.spaces.map Space.pml4) after.pmm.mem after.caches) :
    CachesInv boot m (events ++ [.space e]) after := by
  refine ⟨by rwa [spaceEvents_space],fun e' member => ?_,fun pml4 virt phys flags member => ?_,half,known⟩
  · rw [spaceEvents_space] at member
    rcases List.mem_cons.mp member with rfl | old
    · exact met.1
    · exact inv.small e' old
  · rw [spaceEvents_space] at member
    rcases List.mem_cons.mp member with same | old
    · exact met.2 pml4 virt phys flags same.symm
    · exact inv.plain pml4 virt phys flags old

theorem CachesInv.step {e : CacheEvent} (ok : BootOk boot) (tables : BootTables boot m) (inv : CachesInv boot m events c)
    (met : CacheGuard boot m c e) (step : CacheStep boot c e after) : CachesInv boot m (events ++ [e]) after := by
  obtain ⟨free,spaces⟩ := inv.run.inv ok tables inv.small
  cases step with
  | alloc returns =>
    obtain ⟨_,allocated⟩ := spaces.forest.alloc ok returns
    exact inv.space met (.alloc inv.run returns) (inv.half.same allocated.same) (inv.known.same allocated.same)
  | write outside =>
    obtain ⟨_,same⟩ := spaces.forest.write ok (fun f member => spaces.data member) outside
    exact inv.space met (.write inv.run outside) (inv.half.same same) (inv.known.same same)
  | create returns =>
    obtain ⟨_,created⟩ := pagingCreateAddressSpace_spec ok spaces.forest returns
    exact inv.space met (.create inv.run returns) (created.kernelHalf inv.half) ((inv.known.same created.same).more _)
  | map target returns =>
    have small := spaces.smallOn target fun kernel => by simpa [SpaceEvent.small,kernel] using met.1
    obtain ⟨_,update⟩ := vmmMap_spec ok spaces.forest (target_adm target) small returns
    exact inv.space met (.map inv.run target returns) (inv.half.evolves update.toEvolves)
      (inv.known.invlpg target.canonical update)
  | unmap target mapped =>
    have small := spaces.smallOn target fun kernel => by simpa [SpaceEvent.small,kernel] using met.1
    obtain ⟨pt,found⟩ := leafTable_of_mapped small mapped
    have update := vmmUnmap_spec ok spaces.forest (target_adm target) found
    exact inv.space met (.unmap inv.run target mapped) (inv.half.evolves update.toEvolves)
      (inv.known.invlpg target.canonical update)
  | load loads =>
    obtain ⟨run,small,plain,half,known⟩ := inv
    rw [← spaceEvents_load events] at run small plain
    exact ⟨run,small,plain,half,known.load loads⟩
  | fetch fetches clear =>
    have known := inv.known.fetch spaces inv.plain inv.half fetches clear
    obtain ⟨run,small,plain,half,_⟩ := inv
    rw [← spaceEvents_fetch events] at run small plain
    exact ⟨run,small,plain,half,known⟩

theorem cachesInv_run (ok : BootOk boot) (tables : BootTables boot m)
    (plain : ∀ i < 512, Present (entry m boot.kernelPml4 i) → ¬Large (entry m boot.kernelPml4 i))
    (run : Run (CacheStart boot m) (CacheStep boot) (CacheGuard boot m) events c) : CachesInv boot m events c := by
  refine run.invariant (CachesInv boot m) ?_ fun _ _ _ _ inv met step => inv.step ok tables met step
  rintro c rfl
  obtain ⟨_,_,same⟩ := boot_spaces ok tables
  refine ⟨.init,nofun,nofun,⟨fun i bound => ?_,nofun⟩,⟨.inl rfl,?_,nofun⟩⟩
  · rw [same _ [] _ i (adm_nil (.inl rfl)) rfl bound]
    exact plain i bound
  · rintro path f ⟨rfl,rfl⟩
    exact .root

/-- At no time does the processor answer with a translation that the tables no longer have: in the upper half with
another than the kernel's, in the lower half of a process with another than the replay of its own calls. -/
theorem caches_coherent (ok : BootOk boot) (tables : BootTables boot m)
    (plain : ∀ i < 512, Present (entry m boot.kernelPml4 i) → ¬Large (entry m boot.kernelPml4 i))
    (run : Run (CacheStart boot m) (CacheStep boot) (CacheGuard boot m) events c) (answers : Answers c v p) :
    (upperHalf v → mmuTranslate c.pmm.mem boot.kernelPml4 v = some p) ∧
      (lowerHalf v → c.caches.cr3 ≠ boot.kernelPml4 →
        (ownEntry boot c.caches.cr3 (spaceEvents events) (v.toNat / 4096)).map (physical v) = some p) := by
  have inv := cachesInv_run ok tables plain run
  obtain ⟨free,spaces⟩ := inv.run.inv ok tables inv.small
  have answer : mmuTranslate c.pmm.mem (treeOf boot c.caches.cr3 (pml4Index v)) v = some p := by
    rcases answers with ⟨level,e,there,rfl⟩ | walks
    · exact (inv.known.pages v level e there).leads.translate
    · have present : Present (entry c.pmm.mem c.caches.cr3 (pml4Index v)) := by
        intro absent
        unfold mmuTranslate at walks
        dsimp only at walks
        rw [if_pos absent] at walks
        cases walks
      rw [← walks]
      exact mmuTranslate_congr (inv.half.slot inv.known.loaded (index_lt v).1 present).symm
  refine ⟨fun upper => ?_,fun lower other => ?_⟩
  · rwa [treeOf_upper upper] at answer
  · obtain ⟨space,listed,same⟩ := List.mem_map.mp (inv.known.loaded.resolve_left other)
    rw [treeOf_lower lower,← same,
      spaces.forest.translate (mem_roots listed) (adm_pathOf v (.inr ⟨mem_roots listed,lower⟩)),spaces.own listed lower,
      same] at answer
    exact answer

theorem hhdmMem_slots : ∀ i < 512, Present (entry hhdmMem hhdmBoot.kernelPml4 i) → ¬Large (entry hhdmMem hhdmBoot.kernelPml4 i) := by
  intro i bound present
  by_cases slot : i = 256
  · subst slot
    decide +kernel
  · have word : entry hhdmMem 0x9000#64 i = load64 (fun _ => 0#8) ((0x9000#64).toNat + 8 * i) := by
      have base : (0x9000#64).toNat = 0x9000 := rfl
      unfold entry entryAddr hhdmMem
      rw [load64_store64_apart (by omega),load64_store64_apart (by omega),load64_store64_apart (by omega),
        load64_store64_apart (by omega)]
    have zero : load64 (fun _ => 0#8) ((0x9000#64).toNat + 8 * i) = 0#64 := by
      simp only [load64]
      decide
    rw [show hhdmBoot.kernelPml4 = 0x9000#64 from rfl,word,zero] at present
    exact absurd rfl present

theorem run_fetch {next : Caches}
    (run : Run (CacheStart boot m) (CacheStep boot) (CacheGuard boot m) later { c with caches := caches })
    (foreign : caches.cr3 ≠ boot.kernelPml4) (fetch : Fetch c.pmm.mem caches next) :
    Run (CacheStart boot m) (CacheStep boot) (CacheGuard boot m) (later ++ [.fetch]) { c with caches := next } := by
  have same : next.cr3 = caches.cr3 := by cases fetch <;> rfl
  have allowed : CacheGuard boot m { c with caches := caches } .fetch := trivial
  have moves : CacheStep boot { c with caches := caches } .fetch { c with caches := next } :=
    .fetch (c := { c with caches := caches }) fetch fun kernel => absurd (same ▸ kernel) foreign
  exact .step run allowed moves

/-- The processor may come to remember every table of a process, level by level. -/
theorem fetches_table (run : Run (CacheStart boot m) (CacheStep boot) (CacheGuard boot m) events c)
    (foreign : c.caches.cr3 ≠ boot.kernelPml4) (root : c.caches.tables [] c.caches.cr3) {path : List Nat}
    (length : path.length ≤ 3) (bounds : ∀ i ∈ path, i < 512) (found : walk (child c.pmm.mem) c.caches.cr3 path = some f) :
    ∃ later caches, Run (CacheStart boot m) (CacheStep boot) (CacheGuard boot m) later { c with caches := caches } ∧
      caches.cr3 = c.caches.cr3 ∧ caches.tables path f := by
  induction path using List.reverseRecOn generalizing f with
  | nil =>
    obtain rfl := Option.some.inj found
    exact ⟨events,c.caches,run,rfl,root⟩
  | append_singleton path i ih =>
    rw [List.length_append,List.length_singleton] at length
    rw [walk_concat] at found
    obtain ⟨table,above,found⟩ := Option.bind_eq_some_iff.mp found
    obtain ⟨later,caches,run,same,there⟩ := ih (by omega) (fun j listed => bounds j (by simp [listed])) above
    have fetch := Fetch.table there (by omega) (bounds i (by simp)) found
    refine ⟨_,_,run_fetch run (same ▸ foreign) fetch,same,?_⟩
    exact Or.inr ⟨rfl,rfl⟩

theorem fetches_page (run : Run (CacheStart boot m) (CacheStep boot) (CacheGuard boot m) events c)
    (foreign : c.caches.cr3 ≠ boot.kernelPml4) (root : c.caches.tables [] c.caches.cr3) (canonical : Canonical v)
    (found : leafAt c.pmm.mem c.caches.cr3 (pathOf v) (ptIndex v) = some e) :
    ∃ later caches, Run (CacheStart boot m) (CacheStep boot) (CacheGuard boot m) later { c with caches := caches } ∧
      caches.cr3 = c.caches.cr3 ∧ caches.pages v 3 e := by
  obtain ⟨table,walks,last⟩ := Option.bind_eq_some_iff.mp found
  split at last
  · rename_i present
    obtain rfl := Option.some.inj last
    have bounds : ∀ i ∈ pathOf v, i < 512 := by
      obtain ⟨first,second,third,_⟩ := index_lt v
      simp [pathOf,first,second,third]
    obtain ⟨later,caches,run,same,there⟩ := fetches_table run foreign root (by simp [pathOf]) bounds walks
    have fetch := Fetch.page canonical there present
    refine ⟨_,_,run_fetch run (same ▸ foreign) fetch,same,?_⟩
    exact Or.inr ⟨rfl,rfl,rfl⟩
  · cases last

/-- A process is loaded that the kernel mapped a page for, and one for itself. -/
theorem mapIoapic_cached (returns : mapIoapic 0xFFFF800000400000#64 = .ok ((0x205000#64,0x204000#64,0x203000#64),s)) :
    ∃ events c, Run (CacheStart hhdmBoot hhdmMem) (CacheStep hhdmBoot) (CacheGuard hhdmBoot hhdmMem) events c ∧
      c.pmm = s ∧ c.caches.cr3 = 0x203000#64 ∧ c.caches.tables [] c.caches.cr3 := by
  unfold mapIoapic at returns
  obtain ⟨⟨spare,s₁⟩,first,returns⟩ := ok_of_bind returns
  obtain ⟨⟨data,s₂⟩,second,returns⟩ := ok_of_bind returns
  obtain ⟨⟨pml4,s₃⟩,third,returns⟩ := ok_of_bind returns
  obtain ⟨s₄,fourth,returns⟩ := ok_of_bind returns
  obtain ⟨s₅,fifth,returns⟩ := ok_of_bind returns
  simp only [pure,Except.pure,Except.ok.injEq,Prod.mk.injEq] at returns
  obtain ⟨⟨rfl,rfl,rfl⟩,rfl⟩ := returns
  have alloc (c : CachedSpaces) : CacheGuard hhdmBoot hhdmMem c (.space .alloc) := ⟨rfl,by rintro _ _ _ _ ⟨⟩⟩
  have create (c : CachedSpaces) : CacheGuard hhdmBoot hhdmMem c (.space .create) := ⟨rfl,by rintro _ _ _ _ ⟨⟩⟩
  have mapped {pml4 virt phys flags : U64} (small : (SpaceEvent.map pml4 virt phys flags).small hhdmBoot hhdmMem = true)
      (plain : leafEntry hhdmBoot phys flags &&& pageGlobal = 0#64) (c : CachedSpaces) :
      CacheGuard hhdmBoot hhdmMem c (.space (.map pml4 virt phys flags)) := by
    refine ⟨small,?_⟩
    rintro _ _ _ _ ⟨⟩
    exact not_not.mpr plain
  have begins : Run (CacheStart hhdmBoot hhdmMem) (CacheStep hhdmBoot) (CacheGuard hhdmBoot hhdmMem) [] _ := .start rfl
  have run := Run.step (Run.step begins (alloc _) (.alloc first)) (alloc _) (.alloc second)
  have run := Run.step run (create _) (.create third)
  have own (c : CachedSpaces) :
      CacheGuard hhdmBoot hhdmMem c (.space (.map 0x203000#64 0x400000#64 0x204000#64 0x7#64)) :=
    mapped (by decide +kernel) (by decide) c
  have shared (c : CachedSpaces) :
      CacheGuard hhdmBoot hhdmMem c (.space (.map 0x9000#64 0xFFFF800000400000#64 0xFEC00000#64 0x13#64)) :=
    mapped (by decide +kernel) (by decide) c
  have run := Run.step run (own _) (.map (.inr ⟨List.mem_cons_self,by decide⟩) fourth)
  have run := Run.step run (shared _) (.map (.inl ⟨rfl,by decide⟩) fifth)
  have loads (c : CachedSpaces) : CacheGuard hhdmBoot hhdmMem c (.load 0x203000#64) := trivial
  exact ⟨_,_,.step run (loads _) (.load (.inr List.mem_cons_self)),rfl,rfl,rfl,rfl⟩

/-- The process sees the page of the kernel in an entry that the processor has remembered. -/
theorem caches_coherent_mapIoapic : ∃ (c : CachedSpaces) (e : U64), c.caches.cr3 = 0x203000#64 ∧
    c.caches.pages 0xFFFF800000400000#64 3 e ∧ cachedAddress 0xFFFF800000400000#64 3 e = 0xFEC00000#64 ∧
    mmuTranslate c.pmm.mem 0x9000#64 0xFFFF800000400000#64 = some 0xFEC00000#64 := by
  have evaluated : (mapIoapic 0xFFFF800000400000#64).toOption.map
      (fun r => (r.1,(leafAt r.2.mem 0x203000#64 (pathOf 0xFFFF800000400000#64) (ptIndex 0xFFFF800000400000#64)).map
        (physical 0xFFFF800000400000#64))) =
      some ((0x205000#64,0x204000#64,0x203000#64),some 0xFEC00000#64) := by decide +kernel
  cases result : mapIoapic 0xFFFF800000400000#64 with
  | error stop => rw [result] at evaluated; cases evaluated
  | ok r =>
    rw [result] at evaluated
    simp only [Except.toOption,Option.map_some,Option.some.injEq,Prod.mk.injEq] at evaluated
    obtain ⟨values,seen⟩ := evaluated
    obtain ⟨e,leaf,address⟩ := Option.map_eq_some_iff.mp seen
    obtain ⟨events,c,run,tables,cr3,root⟩ := mapIoapic_cached (result.trans (by rw [← values]))
    rw [← tables,← cr3] at leaf
    obtain ⟨later,caches,run,same,remembered⟩ := fetches_page run (by rw [cr3]; decide) root (.inr (by decide)) leaf
    have answers : Answers { c with caches := caches } 0xFFFF800000400000#64 0xFEC00000#64 :=
      .inl ⟨3,e,remembered,address.symm⟩
    exact ⟨_,e,same.trans cr3,remembered,address,
      (caches_coherent hhdmBoot_ok hhdmMem_tables hhdmMem_slots run answers).1 (by decide)⟩

end Reddyos
