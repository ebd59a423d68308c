import Reddyos.PagedMemory
import Reddyos.VmaFrames

/-! The memory of a process as the process sees it: what each of its calls means to its own
pages, and that it means nothing to the pages of others. -/
namespace Reddyos

open ByteMemory RadixForest OrderedTree LinkedChain PagedMemory

def userLoad (m : Machine) : Memory U64 (BitVec 8) := fun addr =>
  if lowerHalf addr then
    (mmuTranslate m.kernel.pmm.mem m.process.pml4 addr).map fun phys => m.kernel.pmm.mem phys.toNat
  else none

def onPage (page v : U64) : Bool := decide (v.toNat / 4096 = page.toNat / 4096)

def inRange (addr len v : U64) : Bool := decide (addr.toNat ≤ v.toNat ∧ v.toNat < addr.toNat + len.toNat)

instance (p : Process) (addr : U64) : Decidable (StackGrows p addr) := inferInstanceAs (Decidable (_ ∧ _))

def faultPage (p : Process) (addr : U64) : U64 :=
  if StackGrows p addr then p.userStackBottom - 4096#64 else addr

def callEvents (boot : Boot) (ft : Ftrees) (m : Machine) : VmaCall → List (Event U64 (BitVec 8))
  | .mmap _ _ _ => []
  | .munmap addr length =>
    match doSysMunmap boot ft addr length m with
    | .ok (.ok _,_) => [.go (inRange addr (alignUp length))]
    | _ => []
  | .fault addr =>
    match pageFaultHandler boot ft addr m with
    | .ok (true,_) => [.come (onPage (faultPage m.process addr)) fun _ => 0#8]
    | _ => []
  | .store addr byte => [.store addr byte]

variable {boot : Boot} {procs : List U64} {ft : Ftrees} {m next : Machine} {free rest : List U64}

def PrivatePages (m : Machine) : Prop := ∀ v w e e', lowerHalf v → lowerHalf w →
  leafOf m.kernel.pmm m.process.pml4 v = some e → leafOf m.kernel.pmm m.process.pml4 w = some e' →
  e &&& pageMask = e' &&& pageMask → v.toNat / 4096 = w.toNat / 4096

theorem freeList_unique (first : Spaces boot s free procs) (second : Spaces boot s rest procs) : free = rest :=
  Chain.unique (virt_injective boot) first.pmm.list second.pmm.list

/-- A page is read where its last-level entry points. -/
theorem userLoad_eq (res : m.Resident boot procs free) (lower : lowerHalf v) : userLoad m v =
    (leafOf m.kernel.pmm m.process.pml4 v).map fun e =>
      m.kernel.pmm.mem ((e &&& pageMask).toNat + v.toNat % 4096) := by
  unfold userLoad
  rw [if_pos lower,res.spaces.translate res.member (res.adm lower),Option.map_map]
  congr 1
  funext e
  exact congrArg _ (toNat_physical v e)

theorem userLoad_upper (upper : ¬lowerHalf v) : userLoad m v = none := if_neg upper

/-- The entry, or its absence, and the byte it points to are all that is read. -/
theorem userLoad_congr {procs' : List U64} (res : m.Resident boot procs free) (res' : next.Resident boot procs' rest)
    (lower : lowerHalf v)
    (leaf : leafOf next.kernel.pmm next.process.pml4 v = leafOf m.kernel.pmm m.process.pml4 v)
    (byte : ∀ e, leafOf m.kernel.pmm m.process.pml4 v = some e →
      next.kernel.pmm.mem ((e &&& pageMask).toNat + v.toNat % 4096) =
        m.kernel.pmm.mem ((e &&& pageMask).toNat + v.toNat % 4096)) : userLoad next v = userLoad m v := by
  rw [userLoad_eq res lower,userLoad_eq res' lower,leaf]
  cases found : leafOf m.kernel.pmm m.process.pml4 v with
  | none => rfl
  | some e => exact congrArg some (byte e found)

/-- What a call of a process leaves of the machine, as others see it, and what it makes of
the process's own memory. -/
structure Served (boot : Boot) (procs : List U64) (events : List (Event U64 (BitVec 8))) (m : Machine)
    (free : List U64) (next : Machine) (rest : List U64) : Prop where
  resident : next.Resident boot procs rest
  same : next.process.pml4 = m.process.pml4
  held : Held boot procs m.kernel.pmm free f → Held boot procs next.kernel.pmm rest f
  tables : Adm boot procs root path → walk (child m.kernel.pmm.mem) root path = some pt →
    walk (child next.kernel.pmm.mem) root path = some pt
  others : other ∈ procs → other ≠ m.process.pml4 → lowerHalf v →
    leafOf next.kernel.pmm other v = leafOf m.kernel.pmm other v
  bytes : Held boot procs m.kernel.pmm free f →
    (∀ v e, lowerHalf v → leafOf m.kernel.pmm m.process.pml4 v = some e → e &&& pageMask ≠ f) →
    f.toNat ≤ b → b < f.toNat + 4096 → next.kernel.pmm.mem b = m.kernel.pmm.mem b
  pages : ∀ v e, lowerHalf v → leafOf next.kernel.pmm m.process.pml4 v = some e →
    leafOf m.kernel.pmm m.process.pml4 v = some e ∨ e &&& pageMask ∈ avail boot m.kernel.pmm free ∧
      ∀ w e', lowerHalf w → leafOf next.kernel.pmm m.process.pml4 w = some e' →
        e' &&& pageMask = e &&& pageMask → w.toNat / 4096 = v.toNat / 4096
  loads : userLoad next = replay (userLoad m) events

def OwnSlots (pml4 : U64) (procs : List U64) (changed : Slots) : Prop :=
  ∀ root path i, changed root path i → root ∈ procs → root = pml4

theorem ownSlots_heap (sp : Spaces boot s free procs) : OwnSlots pml4 procs (heapSlots boot cursor) := by
  rintro root path i ⟨rfl,_⟩ member
  exact absurd member sp.kernel

theorem Served.shrink {events : List (Event U64 (BitVec 8))} (ok : BootOk boot) (res : m.Resident boot procs free)
    (res' : next.Resident boot procs rest) (root : next.process.pml4 = m.process.pml4)
    (evolves : Evolves boot procs changed m.kernel.pmm free next.kernel.pmm rest)
    (own : OwnSlots m.process.pml4 procs changed)
    (leaf : ∀ v, lowerHalf v → leafOf next.kernel.pmm m.process.pml4 v = leafOf m.kernel.pmm m.process.pml4 v ∧
        replay (userLoad m) events v = userLoad m v ∨
      leafOf next.kernel.pmm m.process.pml4 v = none ∧ replay (userLoad m) events v = none)
    (upper : ∀ v, ¬lowerHalf v → replay (userLoad m) events v = none) :
    Served boot procs events m free next rest where
  resident := res'
  same := root
  held := evolves.held
  tables := evolves.mono
  others := by
    intro other v member different lower
    refine evolves.leaves (adm_pathOf v (.inr ⟨member,lower⟩)) rfl (index_lt v).2.2.2 fun here => ?_
    exact different (own _ _ _ here member)
  bytes := fun held _ low high => evolves.bytes ok res.spaces held low high
  pages := by
    intro v e lower found
    rcases leaf v lower with ⟨same,_⟩ | ⟨gone,_⟩
    · exact .inl (same ▸ found)
    · rw [gone] at found
      cases found
  loads := by
    funext v
    by_cases lower : lowerHalf v
    · rcases leaf v lower with ⟨same,reads⟩ | ⟨gone,reads⟩
      · rw [reads]
        refine userLoad_congr res res' lower (root ▸ same) fun e found => ?_
        exact evolves.bytes ok res.spaces (res.frames v e lower found) (by omega) (by omega)
      · rw [reads,userLoad_eq res' lower,root,gone]
        rfl
    · rw [upper v lower,userLoad_upper lower]

theorem Served.refl (res : m.Resident boot procs free) : Served boot procs [] m free m free where
  resident := res
  same := rfl
  held := id
  tables := fun _ => id
  others := fun _ _ _ => rfl
  bytes := fun _ _ _ _ => rfl
  pages := fun _ _ _ => .inl
  loads := rfl

theorem doSysMmap_served (ok : BootOk boot) (lawful : Lawful ft.ops) (small : ft.nodeBytes.toNat ≤ 2^62)
    (res : m.Resident boot procs free) (allowed : ResidentStep ft m (.mmap file length offset))
    (returns : doSysMmap boot ft file length offset m = .ok (result,next)) :
    ∃ rest, Served boot procs [] m free next rest := by
  obtain ⟨left,res'⟩ := doSysMmap_resident ok lawful small res allowed returns
  have grown : ∀ {k : Kernel} {rest},
      Evolves boot procs (heapSlots boot m.kernel.heap.cursor) m.kernel.pmm free k.pmm rest →
      next.kernel.pmm = k.pmm → next.process.pml4 = m.process.pml4 → Served boot procs [] m free next left := by
    intro k rest evolves same root
    rw [← same] at evolves
    obtain rfl := freeList_unique res'.spaces evolves.spaces
    refine .shrink ok res res' root evolves (ownSlots_heap res.spaces) (fun v lower => .inl ⟨?_,rfl⟩)
      fun v upper => userLoad_upper upper
    exact evolves.leaves (res.adm lower) rfl (index_lt v).2.2.2 (not_heapSlots res.spaces res.member)
  rcases doSysMmap_cases returns with ⟨_,rfl⟩ | ⟨block,k,taken,_,_,outcome⟩
  · exact ⟨free,.refl res⟩
  obtain ⟨rest,taken',evolves⟩ := allocRecord_resident ok res (vmAreaBytes_bound small) taken
  rcases outcome with ⟨_,_,rfl⟩ | ⟨vma,_,_,_,rfl⟩
  · exact ⟨left,grown evolves (kfree_spec block taken'.heap).1 rfl⟩
  · exact ⟨left,grown evolves rfl rfl⟩

/-- What `munmap` changes besides the kernel's own half. -/
theorem doSysMunmap_changes (ok : BootOk boot) (lawful : Lawful ft.ops) (small : ft.nodeBytes.toNat ≤ 2^62)
    (res : m.Resident boot procs free) (allowed : TreeStep m (.munmap addr length))
    (returns : doSysMunmap boot ft addr length m = .ok (result,next)) :
    ∃ changed rest, Evolves boot procs changed m.kernel.pmm free next.kernel.pmm rest ∧
      OwnSlots m.process.pml4 procs changed ∧ ∀ v, lowerHalf v → changed m.process.pml4 (pathOf v) (ptIndex v) →
        result = .ok 0#64 ∧ addr.toNat ≤ v.toNat ∧ v.toNat < addr.toNat + (alignUp length).toNat := by
  unfold doSysMunmap at returns
  dsimp only at returns
  split at returns
  · obtain ⟨_,rfl⟩ := ok_pair returns
    exact ⟨nowhere,free,.refl _ res.spaces,fun _ _ _ here => here.elim,fun _ _ here => here.elim⟩
  rename_i nonzero
  obtain ⟨block,k,prepared,outcome⟩ := munmapRegion_cases returns
  obtain ⟨rest,res',evolves⟩ := tailRecord_resident ok small res prepared
  change Reddyos.Resident boot procs m.process.pml4 m.process.areas k rest at res'
  have kernel : ∀ v : U64, ¬heapSlots boot m.kernel.heap.cursor m.process.pml4 (pathOf v) (ptIndex v) :=
    fun _ => not_heapSlots res.spaces res.member
  rcases outcome with ⟨_,_,rfl⟩ | ⟨p,a,cutOff,done,rfl⟩ | ⟨p,a,_,_,_,rfl⟩
  · exact ⟨_,rest,evolves,ownSlots_heap res.spaces,fun v _ here => absurd here (kernel v)⟩
  · obtain ⟨sum,aligned,pages,before,after,split,cut⟩ := munmapAreas_cut lawful res.vma nonzero allowed cutOff
    have listed : p ∈ m.process.areas.list := by simp [split]
    obtain ⟨cleared,left,_⟩ := res'.cut_whole ok split aligned pages sum cut
    rw [cut.own,trimArea_physPages]
    have same := (kfree_spec (trimArea (m.process.areas.area p) addr (alignUp length)).block left.heap).1
    refine ⟨fun root path i => heapSlots boot m.kernel.heap.cursor root path i ∨
      recordSlots m.process.pml4 (m.process.areas.area p).physPages root path i,rest,?_,?_,?_⟩
    · dsimp only
      rw [same]
      exact (evolves.weaken fun _ _ _ => .inl).trans (cleared.weaken fun _ _ _ => .inr)
    · rintro root path i (heap | record) member
      · exact ownSlots_heap res.spaces root path i heap member
      · exact record.1
    · rintro v lower (heap | ⟨_,page,recorded,path,index⟩)
      · exact absurd heap (kernel v)
      · -- the area is the range, and made of whole pages
        have inside := res.inside p listed page recorded
        have number := (same_page lower (res.lowerHalf listed inside)).mp ⟨path,index⟩
        refine ⟨done,?_⟩
        cases cut with
        | whole first last _ _ _ =>
          unfold InArea at inside
          rw [← first,← last] at inside
          unfold Aligned at aligned pages
          omega
  · exact ⟨_,rest,evolves,ownSlots_heap res.spaces,fun v _ here => absurd here (kernel v)⟩

theorem doSysMunmap_served (ok : BootOk boot) (lawful : Lawful ft.ops) (small : ft.nodeBytes.toNat ≤ 2^62)
    (res : m.Resident boot procs free) (allowed : TreeStep m (.munmap addr length))
    (returns : doSysMunmap boot ft addr length m = .ok (result,next)) :
    ∃ rest, Served boot procs (callEvents boot ft m (.munmap addr length)) m free next rest := by
  obtain ⟨root,left,res',_,unmapped⟩ := doSysMunmap_resident ok lawful small res allowed returns
  obtain ⟨changed,rest,evolves,own,range⟩ := doSysMunmap_changes ok lawful small res allowed returns
  obtain rfl := freeList_unique res'.spaces evolves.spaces
  have kept : ∀ v, lowerHalf v → ¬changed m.process.pml4 (pathOf v) (ptIndex v) →
      leafOf next.kernel.pmm m.process.pml4 v = leafOf m.kernel.pmm m.process.pml4 v :=
    fun v lower apart => evolves.leaves (res.adm lower) rfl (index_lt v).2.2.2 apart
  refine ⟨left,?_⟩
  simp only [callEvents,returns]
  cases result with
  | error e =>
    refine .shrink ok res res' root evolves own (fun v lower => .inl ⟨kept v lower fun here => ?_,rfl⟩)
      fun v upper => userLoad_upper upper
    cases (range v lower here).1
  | ok x =>
    have zero : x = 0#64 := by
      unfold doSysMunmap at returns
      dsimp only at returns
      split at returns
      · cases (ok_pair returns).1
      · obtain ⟨_,_,_,⟨_,bad,_⟩ | ⟨_,_,_,done,_⟩ | ⟨_,_,_,done,_⟩⟩ := munmapRegion_cases returns
        · cases bad
        · exact Except.ok.inj done
        · exact Except.ok.inj done
    have unmapped := unmapped (zero ▸ rfl)
    refine .shrink ok res res' root evolves own (fun v lower => ?_) fun v upper => ?_
    · by_cases inside : addr.toNat ≤ v.toNat ∧ v.toNat < addr.toNat + (alignUp length).toNat
      · refine .inr ⟨(unmapped.gone v inside.1 inside.2).2,?_⟩
        simp [Event.apply,inRange,inside]
      · refine .inl ⟨kept v lower fun here => inside (range v lower here).2,?_⟩
        simp [Event.apply,inRange,inside]
    · simp [Event.apply,userLoad_upper upper]

theorem pageAdded_zero (ok : BootOk boot) (sp : Spaces boot s free procs) (member : pml4 ∈ procs)
    (lower : lowerHalf v) (taken : pmmAllocPage boot s = .ok (phys,middle))
    (maps : vmmMap boot pml4 v phys flags middle = .ok last) (low : phys.toNat ≤ b) (high : b < phys.toNat + 4096) :
    last.mem b = 0#8 := by
  obtain ⟨left,allocated⟩ := sp.alloc ok taken
  have selected : Adm boot procs pml4 (pathOf v) := adm_pathOf v (.inr ⟨member,lower⟩)
  obtain ⟨_,update⟩ := vmmMap_spec ok allocated.spaces selected (allocated.spaces.smallOn member selected) maps
  rw [update.toEvolves.bytes ok allocated.spaces allocated.held low high]
  exact allocated.fresh.zero b low high

/-- Writes into one held frame keep the tables. -/
theorem held_write (ok : BootOk boot) {s s' : Pmm} (sp : Spaces boot s free procs) (held : Held boot procs s free f)
    (outside : ∀ b, b < f.toNat ∨ f.toNat + 4096 ≤ b → s'.mem b = s.mem b) : TablesSame boot procs s.mem s'.mem := by
  have owned : ∀ g ∈ [f], Held boot procs s free g := by simpa using held
  exact (sp.write ok owned fun b apart => outside b (apart f (by simp))).2

theorem onPage_slot (lower : lowerHalf v) (lower' : lowerHalf w) :
    pageSlot pml4 v pml4 (pathOf w) (ptIndex w) ↔ onPage v w = true := by
  simp only [pageSlot,true_and,onPage,decide_eq_true_eq]
  exact same_page lower' lower

/-- A page comes, with a new frame of zeros behind it. -/
theorem Served.come {s : Pmm} (ok : BootOk boot) (res : m.Resident boot procs free)
    (res' : next.Resident boot procs rest) (root : next.process.pml4 = m.process.pml4) (lower : lowerHalf page)
    (evolves : Evolves boot procs changed m.kernel.pmm free s rest) (own : OwnSlots m.process.pml4 procs changed)
    (only : ∀ w, lowerHalf w → changed m.process.pml4 (pathOf w) (ptIndex w) → onPage page w = true)
    (source : phys ∈ avail boot m.kernel.pmm free) (held : Held boot procs s rest phys)
    (leaf : leafOf s m.process.pml4 page = some e) (frame : e &&& pageMask = phys)
    (outside : ∀ b, b < phys.toNat ∨ phys.toNat + 4096 ≤ b → next.kernel.pmm.mem b = s.mem b)
    (left : avail boot next.kernel.pmm rest = avail boot s rest)
    (zero : ∀ b, phys.toNat ≤ b → b < phys.toNat + 4096 → next.kernel.pmm.mem b = 0#8) :
    Served boot procs [.come (onPage page) fun _ => 0#8] m free next rest := by
  have same := held_write ok evolves.spaces held outside
  have other : ∀ {f}, Held boot procs m.kernel.pmm free f → f ≠ phys := fun owned equal => owned.2.1 (equal ▸ source)
  have bytes : ∀ {f b}, Held boot procs m.kernel.pmm free f → f.toNat ≤ b → b < f.toNat + 4096 →
      next.kernel.pmm.mem b = m.kernel.pmm.mem b := by
    intro f b owned low high
    have apart := frames_apart owned.1.1 held.1.1 (other owned)
    rw [outside b (by omega)]
    exact evolves.bytes ok res.spaces owned low high
  have entries : ∀ root v, root ∈ procs → lowerHalf v → leafOf next.kernel.pmm root v = leafOf s root v :=
    fun root v member below => same.leafAt (adm_pathOf v (.inr ⟨member,below⟩)) (index_lt v).2.2.2
  have there : ∀ v, lowerHalf v → onPage page v = true → leafOf next.kernel.pmm m.process.pml4 v = some e := by
    intro v below here
    have selected : pageSlot 0#64 page 0#64 (pathOf v) (ptIndex v) := (onPage_slot lower below).mpr here
    obtain ⟨_,path,index⟩ := selected
    rw [entries _ v res.member below,leafOf,path,index]
    exact leaf
  have old : ∀ v, lowerHalf v → onPage page v = false →
      leafOf next.kernel.pmm m.process.pml4 v = leafOf m.kernel.pmm m.process.pml4 v := by
    intro v below apart
    rw [entries _ v res.member below]
    refine evolves.leaves (res.adm below) rfl (index_lt v).2.2.2 fun here => ?_
    rw [only v below here] at apart
    cases apart
  refine ⟨res',root,?_,?_,?_,fun owned _ => bytes owned,?_,?_⟩
  · intro f owned
    obtain ⟨frame,free,unreached⟩ := evolves.held owned
    refine ⟨frame,left ▸ free,fun root path selected found => unreached root path selected ?_⟩
    rwa [same.walk selected] at found
  · intro root path pt selected found
    rw [same.walk selected]
    exact evolves.mono selected found
  · intro root v member different below
    rw [entries root v member below]
    exact evolves.leaves (adm_pathOf v (.inr ⟨member,below⟩)) rfl (index_lt v).2.2.2 fun here =>
      different (own _ _ _ here member)
  · intro v e' below found
    cases here : onPage page v with
    | false => exact .inl (old v below here ▸ found)
    | true =>
      obtain rfl : e' = e := Option.some.inj (found.symm.trans (there v below here))
      refine .inr ⟨frame ▸ source,fun w e'' below' found' equal => ?_⟩
      cases beside : onPage page w with
      | false =>
        rw [old w below' beside] at found'
        exact absurd (equal.trans frame) (other (res.frames w e'' below' found'))
      | true =>
        simp only [onPage,decide_eq_true_eq] at here beside
        omega
  · funext v
    by_cases below : lowerHalf v
    · cases here : onPage page v with
      | false =>
        simp only [replay_cons,replay_nil,Event.apply,here,Bool.false_eq_true,if_false]
        exact userLoad_congr res res' below (root ▸ old v below here) fun e' found =>
          bytes (res.frames v e' below found) (by omega) (by omega)
      | true =>
        simp only [replay_cons,replay_nil,Event.apply,here,if_true]
        rw [userLoad_eq res' below,root,there v below here,Option.map_some,frame,zero _ (by omega) (by omega)]
    · have apart : onPage page v = false := by
        unfold lowerHalf at below lower
        simp only [onPage,decide_eq_false_iff_not]
        omega
      simp [Event.apply,apart,userLoad_upper below]

theorem growUserStack_served (ok : BootOk boot) (cpu : CpuOk boot) (res : m.Resident boot procs free)
    (grows : StackGrows m.process addr) (lower : lowerHalf (m.process.userStackBottom - 4096#64))
    (res' : next.Resident boot procs left) (returns : growUserStack boot m = .ok (true,next)) :
    Served boot procs [.come (onPage (faultPage m.process addr)) fun _ => 0#8] m free next left := by
  rw [faultPage,if_pos grows]
  rcases growUserStack_cases returns with ⟨full,_⟩ | ⟨_,room,phys,s,s',taken,maps,rfl⟩
  · cases full
  obtain ⟨rest,added⟩ := pageAdded_spec ok cpu res.spaces res.heap res.member lower (by decide) taken maps
  obtain rfl : left = rest := freeList_unique res'.spaces added.evolves.spaces
  obtain ⟨e,leaf⟩ := added.there
  exact .come ok res res' rfl lower added.evolves (fun _ _ _ here _ => here.1)
    (fun w below here => (onPage_slot lower below).mp here) added.source added.held leaf (added.leaf e leaf)
    (fun _ _ => rfl) rfl fun b => pageAdded_zero ok res.spaces res.member lower taken maps

theorem vmaFaultHandler_served (ok : BootOk boot) (cpu : CpuOk boot) (res : m.Resident boot procs free)
    (stays : ¬StackGrows m.process addr) (listed : p ∈ m.process.areas.list)
    (inArea : InArea m.process.areas p addr) (recorded : FaultRecorded (m.process.areas.area p) addr)
    (res' : next.Resident boot procs left) (returns : vmaFaultHandler boot p addr m = .ok (handled,next)) :
    Served boot procs (if handled then [.come (onPage (faultPage m.process addr)) fun _ => 0#8] else []) m free
      next left := by
  rw [faultPage,if_neg stays]
  have below := res.lowerHalf listed inArea
  cases vmaFaultHandler_cases returns with
  | @given phys block s s' k' anon taken live maps grows =>
    obtain ⟨lower,_,path,index⟩ := alignDown_onPage below
    obtain ⟨rest,added⟩ := pageAdded_spec ok cpu res.spaces res.heap res.member lower (by decide) taken maps
    obtain ⟨rest',evolves,_,_⟩ := kmalloc_spec ok (k := (m.setPmm s').kernel) added.evolves.spaces
      added.heap (by decide) grows
    have owned := evolves.held added.held
    obtain ⟨e,leaf⟩ := added.there
    have kernel : ∀ w : U64, ¬heapSlots boot m.kernel.heap.cursor m.process.pml4 (pathOf w) (ptIndex w) :=
      fun _ => not_heapSlots res.spaces res.member
    have same : onPage addr = onPage (alignDown addr) := by
      funext w
      have := toNat_alignDown addr
      simp only [onPage,decide_eq_decide]
      omega
    have single : ∀ f ∈ [phys], Held boot procs k'.pmm rest' f := by simpa using owned
    have outside : ∀ b, Outside [phys] b → fill k'.pmm.mem phys.toNat 0#8 4096 b = k'.pmm.mem b := by
      intro b apart
      exact fill_outside (by have := apart phys (by simp); omega)
    obtain rfl : left = rest' := freeList_unique res'.spaces (evolves.spaces.write ok single outside).1
    have grown : Evolves boot procs (fun root path i => pageSlot m.process.pml4 (alignDown addr) root path i ∨
        heapSlots boot m.kernel.heap.cursor root path i) m.kernel.pmm free k'.pmm left :=
      (added.evolves.weaken fun _ _ _ => .inl).trans (evolves.weaken fun _ _ _ => .inr)
    rw [if_pos rfl,same]
    refine .come ok res res' rfl lower grown ?_ ?_ added.source owned
      ((evolves.leaves (res.adm lower) rfl (index_lt _).2.2.2 (kernel _)).trans leaf) (added.leaf e leaf)
      (fun b apart => fill_outside (by omega)) rfl fun b low high => fill_inside low high
    · rintro root slot i (page | heap) member
      · exact page.1
      · exact ownSlots_heap res.spaces root slot i heap member
    · rintro w lower' (page | heap)
      · exact (onPage_slot lower lower').mp page
      · exact absurd heap (kernel w)
  | noPage anon taken =>
    obtain ⟨_,allocated⟩ := res.spaces.alloc ok taken
    exact absurd rfl (allocated.nonNull ok res.spaces)
  | @framebuffer ops fb handled s fileType file served =>
    obtain ⟨refused,same⟩ : handled = false ∧ s = m.kernel.pmm := by
      unfold fbVmaFault at served
      cases fb with
      | none => exact ⟨(ok_pair served).1.symm,(ok_pair served).2.symm⟩
      | some fb =>
        have beyond := (recorded.resolve_left (by rw [fileType]; decide)) ops fb file
        dsimp only at served
        rw [if_pos beyond] at served
        exact ⟨(ok_pair served).1.symm,(ok_pair served).2.symm⟩
    subst same refused
    obtain rfl := freeList_unique res'.spaces res.spaces
    exact .refl res

theorem pageFaultHandler_served (ok : BootOk boot) (cpu : CpuOk boot) (lawful : Lawful ft.ops)
    (res : m.Resident boot procs free) (allowed : ResidentStep ft m (.fault addr))
    (returns : pageFaultHandler boot ft addr m = .ok (handled,next)) :
    ∃ rest, Served boot procs (callEvents boot ft m (.fault addr)) m free next rest := by
  obtain ⟨left,res'⟩ := pageFaultHandler_resident ok cpu lawful res allowed returns
  obtain ⟨stack,area⟩ := allowed
  refine ⟨left,?_⟩
  have meaning : callEvents boot ft m (.fault addr) =
      if handled then [.come (onPage (faultPage m.process addr)) fun _ => 0#8] else [] := by
    simp only [callEvents,returns]
    cases handled <;> rfl
  rw [meaning]
  rcases pageFaultHandler_cases returns with ⟨rfl,first⟩ | ⟨first,⟨p,found,handles⟩ | ⟨_,rfl,rfl⟩⟩
  · rcases stackFault_cases first with ⟨grown,_⟩ | ⟨_,grows,called⟩
    · cases grown
    · exact growUserStack_served ok cpu res grows (stack grows).1 res' called
  · rcases stackFault_cases first with ⟨_,_,stays⟩ | ⟨grown,_⟩
    · obtain ⟨before,after,split,low,high⟩ := vmaFind_some lawful.lookup res.vma.inOrder found
      have listed : p ∈ m.process.areas.list := by simp [split]
      exact vmaFaultHandler_served ok cpu res stays listed ⟨low,high⟩ (area stays p listed ⟨low,high⟩) res' handles
    · cases grown
  · obtain rfl := freeList_unique res'.spaces res.spaces
    exact .refl res

/-- A store reaches the one byte, as long as no other page of the process shares the frame. -/
theorem userStore_served (ok : BootOk boot) (res : m.Resident boot procs free) (alone : PrivatePages m) :
    Served boot procs [.store addr byte] m free (userStore addr byte m) free := by
  by_cases lower : lowerHalf addr
  swap
  · have nothing : userStore addr byte m = m := by
      unfold userStore
      split
      · rw [if_neg lower]
      · rfl
    rw [nothing]
    refine { Served.refl res with loads := ?_ }
    funext v
    by_cases here : v = addr <;> simp [Event.apply,here,userLoad_upper lower]
  have read := userLoad_eq res lower
  have translated := res.spaces.translate res.member (res.adm lower)
  change _ = (leafOf m.kernel.pmm m.process.pml4 addr).map _ at translated
  cases found : leafOf m.kernel.pmm m.process.pml4 addr with
  | none =>
    rw [found] at read translated
    have nothing : userStore addr byte m = m := by
      unfold userStore
      rw [translated]
      rfl
    rw [nothing]
    refine { Served.refl res with loads := ?_ }
    funext v
    by_cases here : v = addr <;> simp [Event.apply,here,read]
  | some e =>
    rw [found] at read translated
    have res' : (userStore addr byte m).Resident boot procs free := userStore_resident ok res
    have stored : userStore addr byte m = m.setPmm { m.kernel.pmm with
        mem := fill m.kernel.pmm.mem ((e &&& pageMask).toNat + addr.toNat % 4096) byte 1 } := by
      unfold userStore
      rw [translated]
      simp only [Option.map_some,if_pos lower,toNat_physical]
    rw [stored] at res' ⊢
    have owned := res.frames addr e lower found
    have offset := Nat.mod_lt addr.toNat (show 0 < 4096 by decide)
    have same : TablesSame boot procs m.kernel.pmm.mem (m.setPmm { m.kernel.pmm with
        mem := fill m.kernel.pmm.mem ((e &&& pageMask).toNat + addr.toNat % 4096) byte 1 }).kernel.pmm.mem :=
      held_write ok res.spaces owned fun b apart => fill_outside (by omega)
    have entries : ∀ root v, root ∈ procs → lowerHalf v → leafAt _ root (pathOf v) (ptIndex v) =
        leafOf m.kernel.pmm root v :=
      fun root v member below => same.leafAt (adm_pathOf v (.inr ⟨member,below⟩)) (index_lt v).2.2.2
    refine ⟨res',rfl,same.held,fun selected walks => (same.walk selected).trans walks,
      fun {other v} member _ below => entries other v member below,?_,fun v e' below there =>
        .inl ((entries _ v res.member below).symm.trans there),?_⟩
    · intro f b held others low high
      have apart := frames_apart owned.1.1 held.1.1 (others addr e lower found)
      exact fill_outside (by omega)
    · funext v
      by_cases here : v = addr
      · subst v
        simp only [replay_cons,replay_nil,Event.apply,if_true,read,Option.map_some]
        rw [userLoad_eq res' lower]
        exact (congrArg (Option.map _) ((entries _ addr res.member lower).trans found)).trans
          (congrArg some (fill_inside (Nat.le_refl _) (Nat.lt_succ_self _)))
      · simp only [replay_cons,replay_nil,Event.apply,here,if_false]
        by_cases below : lowerHalf v
        · refine userLoad_congr res res' below (entries _ v res.member below) fun e' there => fill_outside ?_
          -- another byte of the same frame, or another frame
          have different : v.toNat ≠ addr.toNat := fun equal => here (BitVec.eq_of_toNat_eq equal)
          by_cases equal : e' &&& pageMask = e &&& pageMask
          · have page := alone v addr e' e below lower there found equal
            rw [equal]
            omega
          · have apart := frames_apart owned.1.1 (res.frames v e' below there).1.1 (Ne.symm equal)
            omega
        · rw [userLoad_upper below,userLoad_upper below]

/-- Every call does to the memory of its process what it says, and nothing to the pages of others. -/
theorem runCall_served (ok : BootOk boot) (cpu : CpuOk boot) (lawful : Lawful ft.ops)
    (small : ft.nodeBytes.toNat ≤ 2^62) (res : m.Resident boot procs free) (alone : PrivatePages m)
    (allowed : ResidentStep ft m call) (returns : runCall boot ft call m = .ok next) :
    ∃ rest, Served boot procs (callEvents boot ft m call) m free next rest := by
  cases call with
  | mmap file length offset =>
    obtain ⟨⟨result,m'⟩,called,returns⟩ := ok_of_bind returns
    obtain rfl := Except.ok.inj returns
    exact doSysMmap_served ok lawful small res allowed called
  | munmap addr length =>
    obtain ⟨⟨result,m'⟩,called,returns⟩ := ok_of_bind returns
    obtain rfl := Except.ok.inj returns
    exact doSysMunmap_served ok lawful small res allowed called
  | fault addr =>
    obtain ⟨⟨handled,m'⟩,called,returns⟩ := ok_of_bind returns
    obtain rfl := Except.ok.inj returns
    exact pageFaultHandler_served ok cpu lawful res allowed called
  | store addr byte =>
    obtain rfl := Except.ok.inj returns
    exact ⟨free,userStore_served ok res alone⟩

end Reddyos
