import Reddyos.VmaCleanup
import Reddyos.VmaTree

/-! Resident pages: in a process whose faults are served from anonymous areas, the page
records of an area name every page of it that is translated. -/
namespace Reddyos

open ByteMemory RadixForest OrderedTree

def Recorded (pages : List VmaPhysPage) (v : U64) : Prop :=
  ∃ page ∈ pages, page.start.toNat / 4096 = v.toNat / 4096

structure Resident (boot : Boot) (procs : List U64) (pml4 : U64) (a : Areas) (k : Kernel)
    (free : List U64) : Prop where
  spaces : Spaces boot k.pmm free procs
  heap : HeapOk boot k.pmm free k.heap
  member : pml4 ∈ procs
  vma : VmaInv a
  lower : ∀ p ∈ a.list, (a.area p).stop.toNat ≤ 2^47
  inside : ∀ p ∈ a.list, ∀ page ∈ (a.area p).physPages, InArea a p page.start
  table : ∀ p ∈ a.list, ∀ page ∈ (a.area p).physPages,
    ∃ pt, walk (child k.pmm.mem) pml4 (pathOf page.start) = some pt
  complete : ∀ p ∈ a.list, ∀ v, InArea a p v → leafOf k.pmm pml4 v ≠ none →
    Recorded (a.area p).physPages v
  frames : ∀ v e, Reddyos.lowerHalf v → leafOf k.pmm pml4 v = some e →
    Held boot procs k.pmm free (e &&& pageMask)

section

variable {boot : Boot} {procs : List U64} {pml4 : U64} {a a' : Areas} {k k' : Kernel}
variable {free rest : List U64} {changed : Slots}

theorem Resident.lowerHalf (res : Resident boot procs pml4 a k free) (listed : p ∈ a.list)
    (inArea : InArea a p v) : Reddyos.lowerHalf v := by
  have := res.lower p listed
  have := inArea.2
  unfold Reddyos.lowerHalf
  omega

theorem Resident.adm (res : Resident boot procs pml4 a k free) (lower : Reddyos.lowerHalf v) :
    Adm boot procs pml4 (pathOf v) := adm_pathOf v (.inr ⟨res.member,lower⟩)

/-- The frames behind the pages of a process stay its own. -/
theorem frames_evolve {s next : Pmm} (member : pml4 ∈ procs) (evolves : Evolves boot procs changed s free next rest)
    (frames : ∀ v e, lowerHalf v → leafOf s pml4 v = some e → Held boot procs s free (e &&& pageMask))
    (new : ∀ v e, lowerHalf v → changed pml4 (pathOf v) (ptIndex v) → leafOf next pml4 v = some e →
      Held boot procs next rest (e &&& pageMask)) (v e : U64) (lower : lowerHalf v) (leaf : leafOf next pml4 v = some e) :
    Held boot procs next rest (e &&& pageMask) := by
  by_cases here : changed pml4 (pathOf v) (ptIndex v)
  · exact new v e lower here leaf
  · unfold leafOf at leaf
    rw [evolves.leaves (adm_pathOf v (.inr ⟨member,lower⟩)) rfl (index_lt v).2.2.2 here] at leaf
    exact evolves.held (frames v e lower leaf)

theorem kfree_evolves (ptr : U64) (sp : Spaces boot k.pmm free procs) (heap : HeapOk boot k.pmm free k.heap) :
    Evolves boot procs nowhere k.pmm free (kfree ptr k).pmm free ∧ HeapOk boot (kfree ptr k).pmm free (kfree ptr k).heap := by
  obtain ⟨same,heap⟩ := kfree_spec ptr heap
  rw [same]
  exact ⟨.refl _ sp,heap⟩

/-- Calls that set no entry of an area, and no entry of the process to a foreign frame. -/
theorem Resident.evolves (res : Resident boot procs pml4 a k free)
    (evolves : Evolves boot procs changed k.pmm free k'.pmm rest)
    (heap : HeapOk boot k'.pmm rest k'.heap)
    (other : ∀ p ∈ a.list, ∀ v, InArea a p v → ¬changed pml4 (pathOf v) (ptIndex v))
    (new : ∀ v e, Reddyos.lowerHalf v → changed pml4 (pathOf v) (ptIndex v) →
      leafOf k'.pmm pml4 v = some e → Held boot procs k'.pmm rest (e &&& pageMask)) :
    Resident boot procs pml4 a k' rest := by
  have same : ∀ p ∈ a.list, ∀ v, InArea a p v → leafOf k'.pmm pml4 v = leafOf k.pmm pml4 v := by
    intro p listed v inArea
    exact evolves.leaves (res.adm (res.lowerHalf listed inArea)) rfl (index_lt v).2.2.2
      (other p listed v inArea)
  refine ⟨evolves.spaces,heap,res.member,res.vma,res.lower,res.inside,?_,?_,
    frames_evolve res.member evolves res.frames new⟩
  · intro p listed page recorded
    obtain ⟨pt,found⟩ := res.table p listed page recorded
    exact ⟨pt,evolves.mono (res.adm (res.lowerHalf listed (res.inside p listed page recorded))) found⟩
  · intro p listed v inArea resident
    rw [same p listed v inArea] at resident
    exact res.complete p listed v inArea resident

theorem not_heapSlots (sp : Spaces boot s free procs) (member : pml4 ∈ procs) :
    ¬heapSlots boot cursor pml4 path i := fun slot => sp.kernel (slot.1 ▸ member)

theorem Resident.kmalloc (ok : BootOk boot) (res : Resident boot procs pml4 a k free)
    (bound : size.toNat ≤ 2^63) (returns : Reddyos.kmalloc boot size k = .ok (ptr,k')) :
    ∃ rest, Resident boot procs pml4 a k' rest ∧
      Evolves boot procs (heapSlots boot k.heap.cursor) k.pmm free k'.pmm rest := by
  obtain ⟨rest,evolves,heap,_⟩ := kmalloc_spec ok res.spaces res.heap bound returns
  have kernel : ∀ v : U64, ¬heapSlots boot k.heap.cursor pml4 (pathOf v) (ptIndex v) :=
    fun _ => not_heapSlots res.spaces res.member
  exact ⟨rest,res.evolves evolves heap (fun _ _ v _ => kernel v) (fun v _ _ here => absurd here (kernel v)),
    evolves⟩

theorem Resident.kfree (res : Resident boot procs pml4 a k free) :
    Resident boot procs pml4 a (Reddyos.kfree ptr k) free := by
  obtain ⟨evolves,heap⟩ := kfree_evolves ptr res.spaces res.heap
  exact res.evolves evolves heap (fun _ _ _ _ => id) (fun _ _ _ here => here.elim)

theorem Resident.write (ok : BootOk boot) (res : Resident boot procs pml4 a k free)
    (held : ∀ f ∈ pages, Held boot procs k.pmm free f)
    (outside : ∀ b, Outside pages b → mem b = k.pmm.mem b) :
    Resident boot procs pml4 a { k with pmm := { k.pmm with mem := mem } } free := by
  obtain ⟨spaces,same⟩ := res.spaces.write ok held outside
  have leaf : ∀ v, Reddyos.lowerHalf v →
      leafOf { k.pmm with mem := mem } pml4 v = leafOf k.pmm pml4 v :=
    fun v lower => same.leafAt (res.adm lower) (index_lt v).2.2.2
  refine ⟨spaces,res.heap.quiet same spaces.pmm.nodup (fun _ member => member),res.member,res.vma,res.lower,
    res.inside,?_,?_,?_⟩
  · intro p listed page recorded
    obtain ⟨pt,found⟩ := res.table p listed page recorded
    exact ⟨pt,(same.walk (res.adm (res.lowerHalf listed (res.inside p listed page recorded)))).trans found⟩
  · intro p listed v inArea resident
    rw [leaf v (res.lowerHalf listed inArea)] at resident
    exact res.complete p listed v inArea resident
  · intro v e lower found
    rw [leaf v lower] at found
    exact same.held (res.frames v e lower found)

/-- Fewer or smaller areas with the same records, as long as every record stays inside and
no translated page loses its record. -/
theorem Resident.shrink (res : Resident boot procs pml4 a k free) (vma : VmaInv a')
    (records : ∀ q ∈ a'.list, ∃ p ∈ a.list, (a'.area q).physPages ⊆ (a.area p).physPages)
    (lower : ∀ q ∈ a'.list, (a'.area q).stop.toNat ≤ 2^47)
    (inside : ∀ q ∈ a'.list, ∀ page ∈ (a'.area q).physPages, InArea a' q page.start)
    (complete : ∀ q ∈ a'.list, ∀ v, InArea a' q v → leafOf k.pmm pml4 v ≠ none →
      Recorded (a'.area q).physPages v) : Resident boot procs pml4 a' k free := by
  refine ⟨res.spaces,res.heap,res.member,vma,lower,inside,?_,complete,res.frames⟩
  intro q listed page recorded
  obtain ⟨p,old,subset⟩ := records q listed
  exact res.table p old page (subset recorded)

def recordSlots (pml4 : U64) (pages : List VmaPhysPage) : Slots := fun root path i =>
  root = pml4 ∧ ∃ page ∈ pages, path = pathOf page.start ∧ i = ptIndex page.start

/-- `vma_destroy` clears the entries of the recorded pages and no others. -/
theorem vmaDestroy_spec (ok : BootOk boot) (sp : Spaces boot k.pmm free procs)
    (heap : HeapOk boot k.pmm free k.heap) (pages : List VmaPhysPage)
    (selected : ∀ page ∈ pages, Adm boot procs pml4 (pathOf page.start))
    (table : ∀ page ∈ pages, ∃ pt, walk (child k.pmm.mem) pml4 (pathOf page.start) = some pt) :
    Evolves boot procs (recordSlots pml4 pages) k.pmm free (vmaDestroy pml4 pages k).pmm free ∧
      HeapOk boot (vmaDestroy pml4 pages k).pmm free (vmaDestroy pml4 pages k).heap ∧
      ∀ page ∈ pages, leafOf (vmaDestroy pml4 pages k).pmm pml4 page.start = none := by
  induction pages generalizing k with
  | nil => exact ⟨.refl _ sp,heap,by simp⟩
  | cons page rest ih =>
    have here := selected page (by simp)
    obtain ⟨pt,found⟩ := table page (by simp)
    have update := vmmUnmap_spec ok sp here found
    obtain ⟨same,heap'⟩ := kfree_spec (k := { k with pmm := vmmUnmap pml4 page.start k.pmm })
      page.block (heap.evolves update.toEvolves)
    have step : Evolves boot procs (recordSlots pml4 (page :: rest)) k.pmm free
        (vmmUnmap pml4 page.start k.pmm) free := by
      refine update.toEvolves.weaken ?_
      rintro root path i ⟨rfl,rfl,rfl⟩
      exact ⟨rfl,page,by simp,rfl,rfl⟩
    have first : vmaDestroy pml4 (page :: rest) k =
        vmaDestroy pml4 rest (Reddyos.kfree page.block { k with pmm := vmmUnmap pml4 page.start k.pmm }) := rfl
    rw [first]
    generalize Reddyos.kfree page.block { k with pmm := vmmUnmap pml4 page.start k.pmm } = k₁ at *
    dsimp only at same heap'
    rw [← same] at step heap' update
    obtain ⟨later,heap'',cleared⟩ := ih step.spaces heap'
      (fun other member => selected other (by simp [member])) (by
        intro other member
        obtain ⟨pt',found'⟩ := table other (by simp [member])
        exact ⟨pt',step.mono (selected other (by simp [member])) found'⟩)
    refine ⟨step.trans (later.weaken ?_),heap'',?_⟩
    · rintro root path i ⟨rfl,other,member,rfl,rfl⟩
      exact ⟨rfl,other,by simp [member],rfl,rfl⟩
    · intro other member
      by_cases again : ∃ twin ∈ rest, pathOf other.start = pathOf twin.start ∧
          ptIndex other.start = ptIndex twin.start
      -- a page recorded twice is cleared again by the later record
      · obtain ⟨twin,inRest,path,index⟩ := again
        have := cleared twin inRest
        unfold leafOf at this ⊢
        rw [path,index]
        exact this
      · rcases List.mem_cons.mp member with rfl | inRest
        · unfold leafOf
          rw [later.leaves here rfl (index_lt _).2.2.2 ?_]
          · have gone := update.new
            rw [if_neg not_present_zero] at gone
            exact gone
          · rintro ⟨_,twin,inRest,path,index⟩
            exact again ⟨twin,inRest,path,index⟩
        · exact cleared other inRest

/-- `vma_cleanup` returns only when there is nothing to clean up. -/
theorem cleanupLoop_ok (returns : cleanupLoop vma prev pages = .ok ()) :
    ∀ page ∈ pages, vma.start.toNat ≤ page.start.toNat ∧ page.start.toNat < vma.stop.toNat := by
  intro page member
  obtain ⟨low,high⟩ := cleanupLoop_iff.mp returns page member
  exact ⟨BitVec.le_def.mp low,BitVec.lt_def.mp high⟩

theorem VmaInv.page_unique (inv : VmaInv a) (first : p ∈ a.list) (second : q ∈ a.list)
    (inP : InArea a p v) (inQ : InArea a q w) (page : v.toNat / 4096 = w.toNat / 4096) : p = q := by
  by_contra different
  have okP := inv.ok p first
  have okQ := inv.ok q second
  obtain ⟨startP,stopP⟩ := And.intro okP.start okP.stop
  obtain ⟨startQ,stopQ⟩ := And.intro okQ.start okQ.stop
  unfold Aligned at startP stopP startQ stopQ
  unfold InArea at inP inQ
  rcases inv.treeOk.disjoint p first q second different with before | after <;> omega

section

variable {addr len block : U64} {before after : List Nat} {p : Nat}

/-- A page of the range that goes has no record left once `vma_cleanup` returned. -/
theorem Resident.cut_clear (res : Resident boot procs pml4 a k free)
    (split : a.list = before ++ p :: after) (aligned : Aligned addr) (pages : Aligned len)
    (sum : (addr + len).toNat = addr.toNat + len.toNat)
    (cut : Cut a p addr len block before after false a')
    (cleaned : vmaCleanup (trimArea (a.area p) addr len) = .ok ())
    (inArea : InArea a p v)
    (beside : ¬((trimArea (a.area p) addr len).start.toNat ≤ v.toNat ∧
      v.toNat < (trimArea (a.area p) addr len).stop.toNat)) : leafOf k.pmm pml4 v = none := by
  by_contra resident
  obtain ⟨page,recorded,number⟩ := res.complete p (by simp [split]) v inArea resident
  have kept := cleanupLoop_ok cleaned page (by rw [trimArea_physPages]; exact recorded)
  have ok := res.vma.ok p (by simp [split])
  have start := ok.start
  have stop := ok.stop
  unfold InArea at inArea
  unfold Aligned at *
  rcases cut.trimmed sum with ⟨low,same,high⟩ | ⟨above,low,high⟩
  · rw [low,high] at kept beside
    rw [same] at start
    omega
  · rw [low,high] at kept beside
    omega

theorem Resident.cut_part (res : Resident boot procs pml4 a k free)
    (split : a.list = before ++ p :: after) (aligned : Aligned addr) (pages : Aligned len)
    (sum : (addr + len).toNat = addr.toNat + len.toNat)
    (cut : Cut a p addr len block before after false a')
    (cleaned : vmaCleanup (trimArea (a.area p) addr len) = .ok ()) :
    Resident boot procs pml4 a' k free := by
  have listed : p ∈ a.list := by simp [split]
  have low := res.lower p listed
  have within := trimArea_within sum ⟨cut.low,cut.inside⟩
  have narrow : ∀ v : U64, (trimArea (a.area p) addr len).start.toNat ≤ v.toNat →
      v.toNat < (trimArea (a.area p) addr len).stop.toNat → InArea a p v := by
    intro v above below
    unfold InArea
    omega
  refine res.shrink (res.vma.cut split aligned pages sum cut) ?_ ?_ ?_ ?_
  · intro q member
    rcases cut.listed res.vma.inOrder res.vma.fresh split q member with ⟨old,_,area⟩ | ⟨rfl,_,area⟩ | ⟨rfl,above,short,area,_⟩
    · exact ⟨q,old,by simp [area]⟩
    · exact ⟨q,listed,by rw [area,trimArea_physPages]; simp⟩
    · exact ⟨p,listed,by rw [area]; simp [tailArea,Area.zero]⟩
  · intro q member
    rcases cut.listed res.vma.inOrder res.vma.fresh split q member with ⟨old,_,area⟩ | ⟨rfl,_,area⟩ | ⟨rfl,above,short,area,_⟩
    · rw [area]; exact res.lower q old
    · rw [area]
      omega
    · rw [area]; exact low
  · intro q member page recorded
    rcases cut.listed res.vma.inOrder res.vma.fresh split q member with ⟨old,_,area⟩ | ⟨rfl,_,area⟩ | ⟨rfl,above,short,area,_⟩
    · rw [area] at recorded
      unfold InArea
      rw [area]
      exact res.inside q old page recorded
    · rw [area] at recorded
      unfold InArea
      rw [area]
      exact cleanupLoop_ok cleaned page recorded
    · rw [area] at recorded
      simp [tailArea,Area.zero] at recorded
  · intro q member v inArea resident
    rcases cut.listed res.vma.inOrder res.vma.fresh split q member with ⟨old,_,area⟩ | ⟨rfl,_,area⟩ | ⟨rfl,above,short,area,_⟩
    · unfold InArea at inArea
      rw [area] at inArea ⊢
      exact res.complete q old v inArea resident
    · unfold InArea at inArea
      rw [area] at inArea ⊢
      rw [trimArea_physPages]
      exact res.complete q listed v (narrow v inArea.1 inArea.2) resident
    · -- nothing of the tail is resident, or `vma_cleanup` would not have returned
      unfold InArea at inArea
      rw [area] at inArea
      simp only [tailArea,sum] at inArea
      refine absurd (res.cut_clear split aligned pages sum cut cleaned ?_ ?_) resident
      · unfold InArea
        omega
      · rcases cut.trimmed sum with ⟨_,same,_⟩ | ⟨_,_,stop⟩
        · rw [same] at above; omega
        · rw [stop]; omega

/-- An area that goes as a whole takes its pages with it. -/
theorem Resident.cut_whole (ok : BootOk boot) (res : Resident boot procs pml4 a k free)
    (split : a.list = before ++ p :: after) (aligned : Aligned addr) (pages : Aligned len)
    (sum : (addr + len).toNat = addr.toNat + len.toNat)
    (cut : Cut a p addr len block before after true a') :
    Evolves boot procs (recordSlots pml4 (a.area p).physPages) k.pmm free
        (vmaDestroy pml4 (a.area p).physPages k).pmm free ∧
      Resident boot procs pml4 a' (vmaDestroy pml4 (a.area p).physPages k) free ∧
      ∀ v, InArea a p v → leafOf (vmaDestroy pml4 (a.area p).physPages k).pmm pml4 v = none := by
  have listed : p ∈ a.list := by simp [split]
  have others : ∀ q ∈ a'.list, q ∈ a.list ∧ q ≠ p ∧ a'.area q = a.area q := by
    intro q member
    rcases cut.listed res.vma.inOrder res.vma.fresh split q member with other | ⟨_,live,_⟩ | ⟨_,_,_,_,live⟩
    · exact other
    · cases live
    · cases live
  have before : Resident boot procs pml4 a' k free := by
    refine res.shrink (res.vma.cut split aligned pages sum cut) ?_ ?_ ?_ ?_
    · intro q member
      obtain ⟨old,_,area⟩ := others q member
      exact ⟨q,old,by simp [area]⟩
    · intro q member
      obtain ⟨old,_,area⟩ := others q member
      rw [area]
      exact res.lower q old
    · intro q member
      obtain ⟨old,_,area⟩ := others q member
      unfold InArea
      rw [area]
      exact res.inside q old
    · intro q member
      obtain ⟨old,_,area⟩ := others q member
      unfold InArea
      rw [area]
      exact res.complete q old
  have lower : ∀ page ∈ (a.area p).physPages, Reddyos.lowerHalf page.start :=
    fun page recorded => res.lowerHalf listed (res.inside p listed page recorded)
  obtain ⟨evolves,heap,cleared⟩ := vmaDestroy_spec ok res.spaces res.heap (a.area p).physPages
    (fun page recorded => res.adm (lower page recorded)) (res.table p listed)
  generalize vmaDestroy pml4 (a.area p).physPages k = k' at *
  have gone : ∀ v, recordSlots pml4 (a.area p).physPages pml4 (pathOf v) (ptIndex v) →
      leafOf k'.pmm pml4 v = none := by
    rintro v ⟨_,page,recorded,path,index⟩
    unfold leafOf
    rw [path,index]
    exact cleared page recorded
  refine ⟨evolves,before.evolves evolves heap ?_ ?_,?_⟩
  · rintro q member v inArea ⟨_,page,recorded,path,index⟩
    obtain ⟨old,different,area⟩ := others q member
    have inOld : InArea a q v := by simpa [InArea,area] using inArea
    have number := (same_page (res.lowerHalf old inOld) (lower page recorded)).mp ⟨path,index⟩
    exact different (res.vma.page_unique old listed inOld (res.inside p listed page recorded) number)
  · intro v e _ here leaf
    rw [gone v here] at leaf
    cases leaf
  · intro v inArea
    by_cases resident : leafOf k.pmm pml4 v = none
    · by_cases here : recordSlots pml4 (a.area p).physPages pml4 (pathOf v) (ptIndex v)
      · exact gone v here
      · exact (evolves.leaves (res.adm (res.lowerHalf listed inArea)) rfl (index_lt v).2.2.2 here).trans resident
    · obtain ⟨page,recorded,number⟩ := res.complete p listed v inArea resident
      obtain ⟨path,index⟩ := (same_page (res.lowerHalf listed inArea) (lower page recorded)).mpr number.symm
      exact gone v ⟨rfl,page,recorded,path,index⟩

end

end

end Reddyos
