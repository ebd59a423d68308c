import Reddyos.VmmCalls

/-! Address spaces over whole runs: what a process sees in its lower half is a replay of
its own calls, and the kernel half it was created with stays the kernel's. -/
namespace Reddyos

open ByteMemory RadixForest

/-- A call, or a write into frames that `pmm_alloc_page` handed out for data. -/
inductive SpaceEvent where
  | alloc
  | write
  | create
  | map (pml4 virt phys flags : U64)
  | unmap (pml4 virt : U64)

/-- A process address space and the kernel slots that were present at its creation. -/
structure Space where
  pml4 : U64
  shared : Nat → Bool

/-- Upper-half calls go to the kernel's tables, lower-half calls to those of a process. -/
def Target (boot : Boot) (spaces : List Space) (pml4 virt : U64) : Prop :=
  pml4 = boot.kernelPml4 ∧ upperHalf virt ∨ pml4 ∈ spaces.map Space.pml4 ∧ lowerHalf virt

/-- Runs from the boot memory `m`, the latest event first. -/
inductive SpacesRun (boot : Boot) (m : Mem) :
    List SpaceEvent → Pmm → List Space → List U64 → Prop where
  | init : SpacesRun boot m [] (pmmInit boot ⟨m,0#64,0,0#64⟩) [] []
  | alloc : SpacesRun boot m events s spaces held → pmmAllocPage boot s = .ok (page,next) →
      SpacesRun boot m (.alloc :: events) next spaces (page :: held)
  | write : SpacesRun boot m events s spaces held → (∀ b, Outside held b → mem b = s.mem b) →
      SpacesRun boot m (.write :: events) { s with mem := mem } spaces held
  | create : SpacesRun boot m events s spaces held →
      pagingCreateAddressSpace boot s = .ok (pml4,next) →
      SpacesRun boot m (.create :: events) next
        (⟨pml4,fun i => decide (Present (entry s.mem boot.kernelPml4 i))⟩ :: spaces) held
  | map : SpacesRun boot m events s spaces held → Target boot spaces pml4 virt →
      vmmMap boot pml4 virt phys flags s = .ok next →
      SpacesRun boot m (.map pml4 virt phys flags :: events) next spaces held
  | unmap : SpacesRun boot m events s spaces held → Target boot spaces pml4 virt →
      (mmuTranslate s.mem pml4 virt).isSome →
      SpacesRun boot m (.unmap pml4 virt :: events) (vmmUnmap pml4 virt s) spaces held

/-- The last-level entry of a page by the calls made on one address space alone. -/
def ownEntry (boot : Boot) (pml4 : U64) : List SpaceEvent → Nat → Option U64
  | [], _ => none
  | .map target virt phys flags :: earlier, page =>
    if pml4 = target ∧ page = virt.toNat / 4096 then some (leafEntry boot phys flags)
    else ownEntry boot pml4 earlier page
  | .unmap target virt :: earlier, page =>
    if pml4 = target ∧ page = virt.toNat / 4096 then none
    else ownEntry boot pml4 earlier page
  | .alloc :: earlier, page => ownEntry boot pml4 earlier page
  | .write :: earlier, page => ownEntry boot pml4 earlier page
  | .create :: earlier, page => ownEntry boot pml4 earlier page

/-- Lower-half translations are a replay of the address space's own calls. -/
def Isolated (boot : Boot) (events : List SpaceEvent) (s : Pmm) (spaces : List Space) : Prop :=
  ∀ space ∈ spaces, ∀ v, lowerHalf v → mmuTranslate s.mem space.pml4 v =
    (ownEntry boot space.pml4 events (v.toNat / 4096)).map (physical v)

/-- Upper-half translations behind the slots present at creation are the kernel's. -/
def KernelShared (boot : Boot) (s : Pmm) (spaces : List Space) : Prop :=
  ∀ space ∈ spaces, ∀ v, upperHalf v → space.shared (pml4Index v) = true →
    mmuTranslate s.mem space.pml4 v = mmuTranslate s.mem boot.kernelPml4 v

/-- The walk to `v` meets a present entry with bit 7 set. -/
def inLargePage (m : Mem) (pml4 virt : U64) : Bool :=
  let pml4e := entry m pml4 (pml4Index virt)
  let pdpte := entry m (pml4e &&& pageMask) (pdptIndex virt)
  let pde := entry m (pdpte &&& pageMask) (pdIndex virt)
  decide (Present pml4e) && (decide (Large pml4e) ||
    decide (Present pdpte) && (decide (Large pdpte) || decide (Present pde) && decide (Large pde)))

/-- The call stays clear of the large pages of the boot loader. -/
def SpaceEvent.small (boot : Boot) (m : Mem) : SpaceEvent → Bool
  | .map pml4 virt _ _ => pml4 != boot.kernelPml4 || !inLargePage m pml4 virt
  | .unmap pml4 virt => pml4 != boot.kernelPml4 || !inLargePage m pml4 virt
  | .alloc => true
  | .write => true
  | .create => true

theorem smallOn_of_not_inLargePage (small : inLargePage m root v = false) : SmallOn m root v := by
  intro stem i f short found present large
  simp only [inLargePage,Bool.and_eq_false_iff,Bool.or_eq_false_iff,decide_eq_false_iff_not] at small
  rcases pathOf_stems short with ⟨rfl,rfl⟩ | ⟨rfl,rfl⟩ | ⟨rfl,rfl⟩
  · simp only [walk_nil,Option.some.injEq] at found
    subst f
    tauto
  · simp only [walk_cons,walk_nil,child] at found
    split at found <;> simp_all
  · simp only [walk_cons,walk_nil,child] at found
    split at found <;> simp only [Option.bind_some,Option.bind_none,reduceCtorEq] at found
    split at found <;> simp_all

structure SpacesInv (boot : Boot) (m : Mem) (events : List SpaceEvent) (s : Pmm)
    (spaces : List Space) (held free : List U64) : Prop where
  forest : Spaces boot s free (spaces.map Space.pml4)
  data : f ∈ held → Held boot (spaces.map Space.pml4) s free f
  own : space ∈ spaces → lowerHalf v → leafAt s.mem space.pml4 (pathOf v) (ptIndex v) =
    ownEntry boot space.pml4 events (v.toNat / 4096)
  shared : space ∈ spaces → 256 ≤ i → i < 512 → space.shared i = true →
    Present (entry s.mem boot.kernelPml4 i) ∧
      entry s.mem space.pml4 i = entry s.mem boot.kernelPml4 i
  untouched : pml4 ∉ spaces.map Space.pml4 → pml4 ≠ boot.kernelPml4 →
    ownEntry boot pml4 events page = none
  large : Adm boot [] boot.kernelPml4 (path ++ [i]) →
    walk (child s.mem) boot.kernelPml4 path = some f → Present (entry s.mem f i) →
    Large (entry s.mem f i) →
    walk (child m) boot.kernelPml4 path = some f ∧ Present (entry m f i) ∧ Large (entry m f i)

variable {boot : Boot} {m : Mem} {events : List SpaceEvent} {s next : Pmm} {spaces : List Space}
variable {held free rest : List U64}

theorem mem_roots (member : space ∈ spaces) : space.pml4 ∈ spaces.map Space.pml4 :=
  List.mem_map.mpr ⟨space,member,rfl⟩

theorem SpacesInv.quiet (inv : SpacesInv boot m events s spaces held free)
    (sp : Spaces boot next rest (spaces.map Space.pml4))
    (same : TablesSame boot (spaces.map Space.pml4) s.mem next.mem)
    (owned : ∀ f ∈ held', Held boot (spaces.map Space.pml4) next rest f)
    (replay : ∀ pml4 page, ownEntry boot pml4 (event :: events) page = ownEntry boot pml4 events page) :
    SpacesInv boot m (event :: events) next spaces held' rest where
  forest := sp
  data := owned _
  own := by
    intro space v member lower
    rw [replay,same.leafAt (adm_pathOf v (.inr ⟨mem_roots member,lower⟩)) (index_lt v).2.2.2]
    exact inv.own member lower
  shared := by
    intro space i member low high present
    rw [same _ [] _ i (adm_nil (.inl rfl)) rfl high,same _ [] _ i (adm_nil (.inr (mem_roots member))) rfl high]
    exact inv.shared member low high present
  untouched := by
    intro pml4 page other foreign
    rw [replay]
    exact inv.untouched other foreign
  large := by
    intro path i f selected found present large
    have here := adm_kernel selected (spaces.map Space.pml4)
    rw [same.walk (adm_closed here)] at found
    rw [same _ path f i (adm_closed here) found (adm_index here)] at present large
    exact inv.large selected found present large

theorem SpacesInv.alloc (ok : BootOk boot) (inv : SpacesInv boot m events s spaces held free)
    (returns : pmmAllocPage boot s = .ok (page,next)) :
    ∃ rest, SpacesInv boot m (.alloc :: events) next spaces (page :: held) rest := by
  obtain ⟨rest,allocated⟩ := inv.forest.alloc ok returns
  refine ⟨rest,inv.quiet allocated.spaces allocated.same ?_ (fun _ _ => rfl)⟩
  intro f member
  rcases List.mem_cons.mp member with rfl | old
  · exact ⟨allocated.fresh.frame,allocated.fresh.unavailable,fun _ _ => allocated.fresh.unreached⟩
  · exact (allocated.evolves anywhere).held (inv.data old)

theorem SpacesInv.write (ok : BootOk boot) (inv : SpacesInv boot m events s spaces held free)
    (outside : ∀ b, Outside held b → mem b = s.mem b) :
    SpacesInv boot m (.write :: events) { s with mem := mem } spaces held free := by
  obtain ⟨sp,same⟩ := inv.forest.write ok (fun f member => inv.data member) outside
  refine inv.quiet sp same ?_ (fun _ _ => rfl)
  intro f member
  obtain ⟨frame,apart,unreached⟩ := inv.data member
  refine ⟨frame,apart,fun root path selected found => unreached root path selected ?_⟩
  rwa [same.walk selected] at found

theorem SpacesInv.create (ok : BootOk boot) (inv : SpacesInv boot m events s spaces held free)
    (returns : pagingCreateAddressSpace boot s = .ok (pml4,next)) :
    ∃ rest, SpacesInv boot m (.create :: events) next
      (⟨pml4,fun i => decide (Present (entry s.mem boot.kernelPml4 i))⟩ :: spaces) held rest := by
  obtain ⟨rest,created⟩ := pagingCreateAddressSpace_spec ok inv.forest returns
  have sp := created.spaces
  have foreign : pml4 ≠ boot.kernelPml4 := fun same => sp.kernel (by simp [same])
  have different : ∀ space ∈ spaces, space.pml4 ≠ pml4 :=
    fun space member same => created.new (same ▸ mem_roots member)
  have kernel : ∀ i < 512, entry next.mem boot.kernelPml4 i = entry s.mem boot.kernelPml4 i :=
    fun i bound => created.same _ [] _ i (adm_nil (.inl rfl)) rfl bound
  refine ⟨rest,sp,?_,?_,?_,?_,?_⟩
  · exact fun member => created.held (inv.data member)
  · intro space v member lower
    rcases List.mem_cons.mp member with rfl | member
    · have selected : Adm boot (pml4 :: spaces.map Space.pml4) pml4 (pathOf v) :=
        adm_pathOf v (.inr ⟨List.mem_cons_self,lower⟩)
      change leafAt next.mem pml4 _ _ = ownEntry boot pml4 events _
      rw [inv.untouched created.new foreign,leafAt,created.empty selected (by simp [pathOf])]
      rfl
    · have selected : Adm boot (spaces.map Space.pml4) space.pml4 (pathOf v) :=
        adm_pathOf v (.inr ⟨mem_roots member,lower⟩)
      rw [created.same.leafAt selected (index_lt v).2.2.2]
      exact inv.own member lower
  · intro space i member low high present
    rcases List.mem_cons.mp member with rfl | member
    · rw [kernel i high]
      exact ⟨by simpa using present,created.upper low high⟩
    · rw [kernel i high,created.same _ [] _ i (adm_nil (.inr (mem_roots member))) rfl high]
      exact inv.shared member low high present
  · intro other page new _
    simp only [List.map_cons,List.mem_cons,not_or] at new
    exact inv.untouched new.2 ‹_›
  · intro path i f selected found present large
    have here := adm_kernel selected (spaces.map Space.pml4)
    rw [created.same.walk (adm_closed here)] at found
    rw [created.same _ path f i (adm_closed here) found (adm_index here)] at present large
    exact inv.large selected found present large

theorem SpacesInv.updated (inv : SpacesInv boot m events s spaces held free)
    (target : Target boot spaces pml4 virt)
    (update : Updated boot (spaces.map Space.pml4) s free pml4 (pathOf virt) (ptIndex virt) w next rest)
    (replay : ∀ other page, ownEntry boot other (event :: events) page =
      if other = pml4 ∧ page = virt.toNat / 4096 then if Present w then some w else none
      else ownEntry boot other events page) :
    SpacesInv boot m (event :: events) next spaces held rest where
  forest := update.spaces
  data := fun member => update.toEvolves.held (inv.data member)
  own := by
    intro space v member lower
    have selected : Adm boot (spaces.map Space.pml4) space.pml4 (pathOf v) :=
      adm_pathOf v (.inr ⟨mem_roots member,lower⟩)
    rw [replay,update.leaf selected rfl (index_lt v).2.2.2,inv.own member lower]
    -- a lower-half call names the page by its number, an upper-half call names no process
    congr 1
    rw [eq_iff_iff]
    refine and_congr_right fun same => ?_
    subst pml4
    rcases target with ⟨kernel,_⟩ | ⟨_,lower'⟩
    · exact absurd (kernel ▸ mem_roots member) inv.forest.kernel
    · exact same_page lower lower'
  shared := by
    intro space i member low high present
    obtain ⟨here,same⟩ := inv.shared member low high present
    have slot : Adm boot (spaces.map Space.pml4) boot.kernelPml4 ([] ++ [i]) :=
      ⟨by simp,by simpa using high,.inl rfl⟩
    rw [update.keeps slot rfl here,update.upper (mem_roots member) low high]
    exact ⟨here,same⟩
  untouched := by
    intro other page new foreign
    rw [replay,if_neg]
    · exact inv.untouched new foreign
    · rintro ⟨rfl,_⟩
      exact target.elim (fun h => foreign h.1) (fun h => new h.1)
  large := by
    intro path i f selected found present large
    obtain ⟨found,present,large⟩ := update.small (adm_kernel selected _) found present large
    exact inv.large selected found present large

/-- The walk of a call that stays clear of the boot loader's large pages. -/
theorem SpacesInv.smallOn (inv : SpacesInv boot m events s spaces held free)
    (target : Target boot spaces pml4 virt)
    (small : pml4 = boot.kernelPml4 → inLargePage m pml4 virt = false) : SmallOn s.mem pml4 virt := by
  rcases target with ⟨kernel,_⟩ | ⟨member,lower⟩
  · subst pml4
    intro stem i f short found present large
    have selected : Adm boot [] boot.kernelPml4 (stem ++ [i]) :=
      adm_stem (adm_pathOf virt (.inl rfl)) short
    obtain ⟨found,present,large⟩ := inv.large selected found present large
    exact smallOn_of_not_inLargePage (small rfl) stem i f short found present large
  · exact inv.forest.smallOn member (adm_pathOf virt (.inr ⟨member,lower⟩))

theorem target_adm (target : Target boot spaces pml4 virt) :
    Adm boot (spaces.map Space.pml4) pml4 (pathOf virt) :=
  adm_pathOf virt (target.imp And.left id)

theorem SpacesInv.map (ok : BootOk boot) (inv : SpacesInv boot m events s spaces held free)
    (target : Target boot spaces pml4 virt)
    (small : pml4 = boot.kernelPml4 → inLargePage m pml4 virt = false)
    (returns : vmmMap boot pml4 virt phys flags s = .ok next) :
    ∃ rest, SpacesInv boot m (.map pml4 virt phys flags :: events) next spaces held rest := by
  obtain ⟨rest,update⟩ := vmmMap_spec ok inv.forest (target_adm target) (inv.smallOn target small) returns
  refine ⟨rest,inv.updated target update ?_⟩
  intro other page
  rw [ownEntry,if_pos (leafEntry_present boot phys flags)]

theorem SpacesInv.unmap (ok : BootOk boot) (inv : SpacesInv boot m events s spaces held free)
    (target : Target boot spaces pml4 virt)
    (small : pml4 = boot.kernelPml4 → inLargePage m pml4 virt = false)
    (mapped : (mmuTranslate s.mem pml4 virt).isSome) :
    SpacesInv boot m (.unmap pml4 virt :: events) (vmmUnmap pml4 virt s) spaces held free := by
  obtain ⟨pt,found⟩ := leafTable_of_mapped (inv.smallOn target small) mapped
  refine inv.updated target (vmmUnmap_spec ok inv.forest (target_adm target) found) ?_
  intro other page
  rw [ownEntry,if_neg not_present_zero]

theorem SpacesRun.inv (ok : BootOk boot) (tables : BootTables boot m)
    (run : SpacesRun boot m events s spaces held)
    (small : ∀ event ∈ events, event.small boot m = true) :
    ∃ free, SpacesInv boot m events s spaces held free := by
  induction run with
  | init =>
    obtain ⟨free,sp,same⟩ := boot_spaces ok tables
    refine ⟨free,sp,by simp,by simp,by simp,fun _ _ => rfl,?_⟩
    intro path i f selected found present large
    rw [same.walk (adm_closed selected)] at found
    rw [same _ path f i (adm_closed selected) found (adm_index selected)] at present large
    exact ⟨found,present,large⟩
  | alloc _ returns ih =>
    obtain ⟨free,inv⟩ := ih (fun event member => small event (by simp [member]))
    exact inv.alloc ok returns
  | write _ outside ih =>
    obtain ⟨free,inv⟩ := ih (fun event member => small event (by simp [member]))
    exact ⟨free,inv.write ok outside⟩
  | create _ returns ih =>
    obtain ⟨free,inv⟩ := ih (fun event member => small event (by simp [member]))
    exact inv.create ok returns
  | map _ target returns ih =>
    obtain ⟨free,inv⟩ := ih (fun event member => small event (by simp [member]))
    refine inv.map ok target (fun kernel => ?_) returns
    simpa [SpaceEvent.small,kernel] using small _ List.mem_cons_self
  | unmap _ target mapped ih =>
    obtain ⟨free,inv⟩ := ih (fun event member => small event (by simp [member]))
    refine ⟨free,inv.unmap ok target (fun kernel => ?_) mapped⟩
    simpa [SpaceEvent.small,kernel] using small _ List.mem_cons_self

/-- Isolation of the lower halves and sharing of the kernel half over every run whose
kernel calls stay clear of the boot loader's large pages. -/
theorem address_spaces_isolated (ok : BootOk boot) (tables : BootTables boot m)
    (run : SpacesRun boot m events s spaces held)
    (small : ∀ event ∈ events, event.small boot m = true) :
    Isolated boot events s spaces ∧ KernelShared boot s spaces := by
  obtain ⟨free,inv⟩ := run.inv ok tables small
  constructor
  · intro space member v lower
    rw [inv.forest.translate (mem_roots member) (adm_pathOf v (.inr ⟨mem_roots member,lower⟩)),
      inv.own member lower]
  · intro space member v upper present
    exact mmuTranslate_congr (inv.shared member (upper_index upper) (index_lt v).1 present).2

def hhdmBoot : Boot :=
  ⟨[⟨0x0#64,0x200000#64,1#64⟩,⟨0x200000#64,0x6000#64,0#64⟩],
    0xFFFF800000000000#64,0xFFFFFFFFFF#64,0x9000#64⟩

/-- The boot loader maps the second 2 MiB of the direct map by one large page and has a
table of 4 KiB pages for the third. -/
def hhdmMem : Mem :=
  store64 (store64 (store64 (store64 (fun _ => 0#8) 0x9800 0xA003#64) 0xA000 0xB003#64)
    0xB008 0x200083#64) 0xB010 0xC003#64

theorem hhdmBoot_frames : frames hhdmBoot =
    [0x200000#64,0x201000#64,0x202000#64,0x203000#64,0x204000#64,0x205000#64] := by decide +kernel

theorem hhdmBoot_ok : BootOk hhdmBoot where
  fits := by simp [hhdmBoot,Usable,limineMemmapUsable,MemmapEntry.limit]
  disjoint := by simp [hhdmBoot,Usable,limineMemmapUsable]
  nonNull := by rw [hhdmBoot_frames]; simp [Boot.virt,hhdmBoot]

theorem hhdmMem_none {table : U64} (aligned : table.toNat % 8 = 0)
    (apart : table.toNat + 8 * i ∉ [0x9800,0xA000,0xB008,0xB010]) : child hhdmMem table i = none := by
  simp only [List.mem_cons,List.not_mem_nil,or_false,not_or] at apart
  have word : entry hhdmMem table i = load64 (fun _ => 0#8) (table.toNat + 8 * i) := by
    unfold entry entryAddr hhdmMem
    rw [load64_store64_apart (by omega),load64_store64_apart (by omega),load64_store64_apart (by omega),
      load64_store64_apart (by omega)]
  have zero : load64 (fun _ => 0#8) (table.toNat + 8 * i) = 0#64 := by
    simp only [load64]
    decide
  have absent : ¬(Present 0#64 ∧ ¬Large 0#64) := by decide
  rw [child,word,zero,if_neg absent]

theorem hhdmMem_child (bound : i < 512) :
    child hhdmMem 0x9000#64 i = (if i = 256 then some 0xA000#64 else none) ∧
    child hhdmMem 0xA000#64 i = (if i = 0 then some 0xB000#64 else none) ∧
    child hhdmMem 0xB000#64 i = (if i = 2 then some 0xC000#64 else none) := by
  refine ⟨?_,?_,?_⟩
  · by_cases slot : i = 256
    · subst slot
      decide +kernel
    · rw [if_neg slot]
      exact hhdmMem_none rfl (by simp; omega)
  · by_cases slot : i = 0
    · subst slot
      decide +kernel
    · rw [if_neg slot]
      exact hhdmMem_none rfl (by simp; omega)
  · by_cases slot : i = 2
    · subst slot
      decide +kernel
    · rw [if_neg slot]
      by_cases large : i = 1
      · subst large
        decide +kernel
      · exact hhdmMem_none rfl (by simp; omega)

theorem hhdmMem_walk (selected : Adm hhdmBoot [] root path)
    (found : walk (child hhdmMem) root path = some f) :
    root = 0x9000#64 ∧ ((path = [] ∧ f = 0x9000#64) ∨ (path = [256] ∧ f = 0xA000#64) ∨
      (path = [256,0] ∧ f = 0xB000#64) ∨ (path = [256,0,2] ∧ f = 0xC000#64)) := by
  obtain ⟨length,bound,half⟩ := selected
  have kernel : root = 0x9000#64 := half.resolve_right (by simp)
  subst root
  refine ⟨rfl,?_⟩
  match path with
  | [] => simp_all
  | [i] =>
    have first := (hhdmMem_child (bound i (by simp))).1
    simp only [walk_cons,walk_nil,first] at found
    split at found <;> simp_all
  | [i,j] =>
    have first := (hhdmMem_child (bound i (by simp))).1
    have second := (hhdmMem_child (bound j (by simp))).2.1
    simp only [walk_cons,walk_nil,first] at found
    split at found
    · simp only [Option.bind_some,second] at found
      split at found <;> simp_all
    · cases found
  | [i,j,k] =>
    have first := (hhdmMem_child (bound i (by simp))).1
    have second := (hhdmMem_child (bound j (by simp))).2.1
    have third := (hhdmMem_child (bound k (by simp))).2.2
    simp only [walk_cons,first] at found
    split at found
    · simp only [Option.bind_some,second] at found
      split at found
      · simp only [Option.bind_some,third] at found
        split at found <;> simp_all
      · cases found
    · cases found
  | i :: j :: k :: l :: rest => exact absurd length (by simp only [List.length_cons]; omega)

theorem hhdmMem_tables : BootTables hhdmBoot hhdmMem where
  frame := by simp [FrameOk,Aligned,hhdmBoot]
  forest := by
    refine ⟨adm_closed,?_⟩
    intro root path root' path' f selected selected' found found'
    obtain ⟨rfl,here⟩ := hhdmMem_walk selected found
    obtain ⟨rfl,there⟩ := hhdmMem_walk selected' found'
    refine ⟨rfl,?_⟩
    rcases here with ⟨rfl,rfl⟩ | ⟨rfl,rfl⟩ | ⟨rfl,rfl⟩ | ⟨rfl,rfl⟩ <;>
      rcases there with ⟨rfl,same⟩ | ⟨rfl,same⟩ | ⟨rfl,same⟩ | ⟨rfl,same⟩ <;> first | rfl | cases same
  apart := by
    intro root path f selected found
    rw [hhdmBoot_frames]
    obtain ⟨_,⟨_,rfl⟩ | ⟨_,rfl⟩ | ⟨_,rfl⟩ | ⟨_,rfl⟩⟩ := hhdmMem_walk selected found <;> decide

/-- A process maps one page; then the kernel maps the MMIO page of the IOAPIC at `virt`. -/
def mapIoapic (virt : U64) : Except Stop ((U64 × U64 × U64) × Pmm) := do
  let (spare,s) ← pmmAllocPage hhdmBoot (pmmInit hhdmBoot ⟨hhdmMem,0#64,0,0#64⟩)
  let (data,s) ← pmmAllocPage hhdmBoot s
  let (pml4,s) ← pagingCreateAddressSpace hhdmBoot s
  let s ← vmmMap hhdmBoot pml4 0x400000#64 data 0x7#64 s
  let s ← vmmMap hhdmBoot 0x9000#64 virt 0xFEC00000#64 0x13#64 s
  return ((spare,data,pml4),s)

theorem mapIoapic_run (virt : U64) (upper : upperHalf virt)
    (returns : mapIoapic virt = .ok ((0x205000#64,0x204000#64,0x203000#64),s)) :
    ∃ shared, SpacesRun hhdmBoot hhdmMem
      [.map 0x9000#64 virt 0xFEC00000#64 0x13#64,.map 0x203000#64 0x400000#64 0x204000#64 0x7#64,.create,.alloc,.alloc]
      s [⟨0x203000#64,shared⟩] [0x204000#64,0x205000#64] := by
  unfold mapIoapic at returns
  obtain ⟨⟨spare,s₁⟩,first,returns⟩ := ok_of_bind returns
  obtain ⟨⟨data,s₂⟩,second,returns⟩ := ok_of_bind returns
  obtain ⟨⟨pml4,s₃⟩,third,returns⟩ := ok_of_bind returns
  obtain ⟨s₄,fourth,returns⟩ := ok_of_bind returns
  obtain ⟨s₅,fifth,returns⟩ := ok_of_bind returns
  simp only [pure,Except.pure,Except.ok.injEq,Prod.mk.injEq] at returns
  obtain ⟨⟨rfl,rfl,rfl⟩,rfl⟩ := returns
  have created := ((SpacesRun.init.alloc first).alloc second).create third
  exact ⟨_,(created.map (.inr ⟨by simp,by decide⟩) fourth).map (.inl ⟨rfl,upper⟩) fifth⟩

/-- Inside the large page `get_next` takes RAM for a table: here the process's own. -/
theorem address_spaces_large_page : BootOk hhdmBoot ∧ BootTables hhdmBoot hhdmMem ∧
    ∃ events s spaces held, SpacesRun hhdmBoot hhdmMem events s spaces held ∧
      ¬Isolated hhdmBoot events s spaces := by
  refine ⟨hhdmBoot_ok,hhdmMem_tables,?_⟩
  have evaluated : (mapIoapic 0xFFFF800000200000#64).toOption.map
      (fun r => (r.1,mmuTranslate r.2.mem 0x203000#64 0x400000#64)) =
      some ((0x205000#64,0x204000#64,0x203000#64),some 0xFEC00000#64) := by decide +kernel
  cases result : mapIoapic 0xFFFF800000200000#64 with
  | error stop => rw [result] at evaluated; cases evaluated
  | ok r =>
    rw [result] at evaluated
    simp only [Except.toOption,Option.map_some,Option.some.injEq,Prod.mk.injEq] at evaluated
    obtain ⟨values,seen⟩ := evaluated
    obtain ⟨shared,run⟩ := mapIoapic_run 0xFFFF800000200000#64 (by decide) (result.trans (by rw [← values]))
    refine ⟨_,_,_,_,run,fun isolated => ?_⟩
    have replay := isolated _ List.mem_cons_self 0x400000#64 (by decide)
    rw [seen] at replay
    change _ = Option.map _ (ownEntry hhdmBoot 0x203000#64 _ _) at replay
    exact absurd replay (by decide +kernel)

theorem address_spaces_isolated_mapIoapic : ∃ events s spaces held,
    SpacesRun hhdmBoot hhdmMem events s spaces held ∧ spaces ≠ [] ∧
      Isolated hhdmBoot events s spaces ∧ KernelShared hhdmBoot s spaces := by
  have evaluated : (mapIoapic 0xFFFF800000400000#64).toOption.map Prod.fst =
      some (0x205000#64,0x204000#64,0x203000#64) := by decide +kernel
  obtain ⟨s,returns⟩ := returns_of_fst evaluated
  obtain ⟨shared,run⟩ := mapIoapic_run 0xFFFF800000400000#64 (by decide) returns
  exact ⟨_,_,_,_,run,by simp,address_spaces_isolated hhdmBoot_ok hhdmMem_tables run (by decide +kernel)⟩

end Reddyos
