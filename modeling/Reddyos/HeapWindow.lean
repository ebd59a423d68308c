import Reddyos.HeapPages

/-! The kernel's pages from `HEAP_START` on: which of them are mapped, and to which frames. -/
namespace Reddyos

open ByteMemory RadixForest

def heapFrame (boot : Boot) (s : Pmm) (v : U64) : Option U64 :=
  (leafOf s boot.kernelPml4 v).map (· &&& pageMask)

def aboveHeap (v : U64) : Prop := heapStart.toNat ≤ v.toNat

/-- The pages `inside` have frames of their own; the others below `limit` are not mapped. -/
structure Window (boot : Boot) (procs : List U64) (s : Pmm) (free : List U64) (limit : Nat)
    (inside : Nat → Prop) : Prop where
  backed : ∀ v, aboveHeap v → inside (v.toNat / 4096) →
    ∃ f, heapFrame boot s v = some f ∧ Held boot procs s free f
  own : ∀ v w f, aboveHeap v → aboveHeap w → inside (v.toNat / 4096) → inside (w.toNat / 4096) →
    heapFrame boot s v = some f → heapFrame boot s w = some f → v.toNat / 4096 = w.toNat / 4096
  unmapped : ∀ v, aboveHeap v → v.toNat < limit → ¬inside (v.toNat / 4096) → heapFrame boot s v = none

variable {boot : Boot} {procs : List U64} {s next : Pmm} {free rest : List U64} {changed : Slots}
variable {inside : Nat → Prop} {limit : Nat} {heap : Heap}

theorem heapStart_toNat : heapStart.toNat = 2^64 - 2^46 := by decide

theorem nonNull_of_above (above : aboveHeap v) : v ≠ 0#64 := by
  rintro rfl
  unfold aboveHeap at above
  rw [heapStart_toNat] at above
  exact absurd above (by decide)

/-- Addresses of the upper half with the same indices lie on the same page. -/
theorem same_upper_page (upper : upperHalf v) (upper' : upperHalf w) :
    (pathOf v = pathOf w ∧ ptIndex v = ptIndex w) ↔ v.toNat / 4096 = w.toNat / 4096 := by
  unfold upperHalf at upper upper'
  have := v.isLt
  have := w.isLt
  simp only [pathOf,List.cons.injEq,and_true,pml4Index_eq,pdptIndex_eq,pdIndex_eq,ptIndex_eq]
  constructor <;> intro same <;> omega

theorem aboveHeap_upper (above : aboveHeap v) : upperHalf v := by
  unfold aboveHeap at above
  rw [heapStart_toNat] at above
  unfold upperHalf
  omega

theorem same_heap_page (above : aboveHeap v) (above' : aboveHeap w) :
    (pathOf v = pathOf w ∧ ptIndex v = ptIndex w) ↔ v.toNat / 4096 = w.toNat / 4096 :=
  same_upper_page (aboveHeap_upper above) (aboveHeap_upper above')

theorem heapFrame_page (above : aboveHeap v) (above' : aboveHeap w)
    (page : v.toNat / 4096 = w.toNat / 4096) : heapFrame boot s v = heapFrame boot s w := by
  obtain ⟨path,index⟩ := (same_heap_page above above').mpr page
  unfold heapFrame leafOf
  rw [path,index]

theorem HeapOk.translate (heapOk : HeapOk boot s free heap) (above : aboveHeap v)
    (found : heapFrame boot s v = some f) :
    ∃ phys, mmuTranslate s.mem boot.kernelPml4 v = some phys ∧ phys.toNat = f.toNat + v.toNat % 4096 := by
  obtain ⟨e,leaf,rfl⟩ := Option.map_eq_some_iff.mp found
  unfold leafOf at leaf
  refine ⟨physical v e,?_,toNat_physical v e⟩
  rw [mmuTranslate_leafAt (heapOk.small v above),leaf]
  rfl

theorem HeapOk.translate_none (heapOk : HeapOk boot s free heap) (above : aboveHeap v)
    (found : heapFrame boot s v = none) : mmuTranslate s.mem boot.kernelPml4 v = none := by
  have leaf := Option.map_eq_none_iff.mp found
  unfold leafOf at leaf
  rw [mmuTranslate_leafAt (heapOk.small v above),leaf]
  rfl

theorem Evolves.heapFrame (evolves : Evolves boot procs changed s free next rest)
    (other : ¬changed boot.kernelPml4 (pathOf v) (ptIndex v)) :
    Reddyos.heapFrame boot next v = Reddyos.heapFrame boot s v := by
  unfold Reddyos.heapFrame leafOf
  rw [evolves.leaves (adm_pathOf v (.inl rfl)) rfl (index_lt v).2.2.2 other]

theorem Window.evolves (window : Window boot procs s free limit inside)
    (evolves : Evolves boot procs changed s free next rest)
    (other : ∀ v, aboveHeap v → ¬changed boot.kernelPml4 (pathOf v) (ptIndex v)) :
    Window boot procs next rest limit inside where
  backed := by
    intro v above here
    obtain ⟨f,found,held⟩ := window.backed v above here
    exact ⟨f,(evolves.heapFrame (other v above)).trans found,evolves.held held⟩
  own := by
    intro v w f above above' here here' found found'
    rw [evolves.heapFrame (other v above)] at found
    rw [evolves.heapFrame (other w above')] at found'
    exact window.own v w f above above' here here' found found'
  unmapped := by
    intro v above below here
    rw [evolves.heapFrame (other v above)]
    exact window.unmapped v above below here

theorem TablesSame.heapFrame {mem : Mem} (same : TablesSame boot procs s.mem mem) (v : U64) :
    Reddyos.heapFrame boot { s with mem := mem } v = Reddyos.heapFrame boot s v := by
  unfold Reddyos.heapFrame leafOf
  rw [same.leafAt (adm_pathOf v (.inl rfl)) (index_lt v).2.2.2]

theorem Window.write {mem : Mem} (window : Window boot procs s free limit inside)
    (same : TablesSame boot procs s.mem mem) : Window boot procs { s with mem := mem } free limit inside where
  backed := by
    intro v above here
    obtain ⟨f,found,held⟩ := window.backed v above here
    exact ⟨f,(same.heapFrame v).trans found,same.held held⟩
  own := by
    intro v w f above above' here here' found found'
    rw [same.heapFrame] at found found'
    exact window.own v w f above above' here here' found found'
  unmapped := by
    intro v above below here
    rw [same.heapFrame]
    exact window.unmapped v above below here

/-- A fresh frame mapped at a page outside the window's. -/
theorem Window.map (ok : BootOk boot) (cpu : CpuOk boot) (window : Window boot procs s free limit inside)
    (allocated : Allocated boot s free procs page middle left)
    (small : SmallOn s.mem boot.kernelPml4 v) (above : aboveHeap v)
    (maps : vmmMap boot boot.kernelPml4 v page (pageWritable ||| pageNx) middle = .ok next) :
    ∃ rest, Updated boot procs middle left boot.kernelPml4 (pathOf v) (ptIndex v)
        (leafEntry boot page (pageWritable ||| pageNx)) next rest ∧
      Window boot procs next rest limit fun n => inside n ∨ n = v.toNat / 4096 := by
  have grown := allocated.evolves nowhere
  have selected : Adm boot procs boot.kernelPml4 (pathOf v) := adm_pathOf v (.inl rfl)
  obtain ⟨rest,update⟩ := vmmMap_spec ok grown.spaces selected (grown.smallOn selected small) maps
  have before := window.evolves grown fun _ _ => id
  have entry : leafEntry boot page (pageWritable ||| pageNx) &&& pageMask = page :=
    leafEntry_frame cpu (vmmMap_reach maps) allocated.fresh.frame (by decide)
  have here : ∀ w, aboveHeap w → w.toNat / 4096 = v.toNat / 4096 → heapFrame boot next w = some page := by
    intro w above' same
    rw [heapFrame_page above' above same]
    unfold heapFrame leafOf
    rw [update.new,if_pos (leafEntry_present _ _ _),Option.map_some,entry]
  have others : ∀ w, aboveHeap w → w.toNat / 4096 ≠ v.toNat / 4096 →
      heapFrame boot next w = heapFrame boot middle w := by
    intro w above' different
    refine update.toEvolves.heapFrame ?_
    rintro ⟨_,path,index⟩
    exact different ((same_heap_page above' above).mp ⟨path,index⟩)
  -- the frames that were in the window before were not available
  have unused : ∀ w, aboveHeap w → inside (w.toNat / 4096) → heapFrame boot middle w ≠ some page := by
    intro w above' old found
    obtain ⟨f,found',held⟩ := window.backed w above' old
    rw [grown.heapFrame id,found',Option.some.injEq] at found
    exact held.2.1 (found ▸ allocated.source)
  refine ⟨rest,update,⟨?_,?_,?_⟩⟩
  · intro w above' member
    by_cases same : w.toNat / 4096 = v.toNat / 4096
    · exact ⟨page,here w above' same,update.toEvolves.held allocated.held⟩
    · obtain ⟨f,found,held⟩ := before.backed w above' (member.resolve_right same)
      exact ⟨f,(others w above' same).trans found,update.toEvolves.held held⟩
  · intro w u f above₁ above₂ member₁ member₂ found₁ found₂
    by_cases same₁ : w.toNat / 4096 = v.toNat / 4096 <;> by_cases same₂ : u.toNat / 4096 = v.toNat / 4096
    · rw [same₁,same₂]
    · rw [here w above₁ same₁,Option.some.injEq] at found₁
      rw [others u above₂ same₂,← found₁] at found₂
      exact absurd found₂ (unused u above₂ (member₂.resolve_right same₂))
    · rw [here u above₂ same₂,Option.some.injEq] at found₂
      rw [others w above₁ same₁,← found₂] at found₁
      exact absurd found₁ (unused w above₁ (member₁.resolve_right same₁))
    · rw [others w above₁ same₁] at found₁
      rw [others u above₂ same₂] at found₂
      exact before.own w u f above₁ above₂ (member₁.resolve_right same₁) (member₂.resolve_right same₂)
        found₁ found₂
  · intro w above' below member
    rw [not_or] at member
    rw [others w above' member.2]
    exact before.unmapped w above' below member.1

theorem Window.congr {inside' : Nat → Prop} (window : Window boot procs s free limit inside)
    (same : ∀ n, inside n ↔ inside' n) : Window boot procs s free limit inside' := by
  have equal : inside = inside' := funext fun n => propext (same n)
  exact equal ▸ window

/-- The loop of `request_pages` maps the pages from the cursor on and no others. -/
theorem requestLoop_window (ok : BootOk boot) (cpu : CpuOk boot) {k : Kernel} (sp : Spaces boot k.pmm free procs)
    (heapOk : HeapOk boot k.pmm free k.heap) (window : Window boot procs k.pmm free limit inside)
    (returns : requestLoop boot pages k = .ok (served,after)) :
    served = true ∧ ∃ rest, Requested boot procs k free pages after rest ∧
      HeapOk boot after.pmm rest after.heap ∧ after.heap.blocks = k.heap.blocks ∧
      Window boot procs after.pmm rest limit fun n =>
        inside n ∨ k.heap.cursor.toNat / 4096 ≤ n ∧ n < k.heap.cursor.toNat / 4096 + pages := by
  induction pages generalizing k free inside with
  | zero =>
    obtain ⟨rfl,rfl⟩ := ok_pair returns
    refine ⟨rfl,free,⟨.refl _ sp,by simp,by simp⟩,heapOk,rfl,window.congr fun n => ?_⟩
    constructor
    · exact .inl
    · rintro (old | new)
      · exact old
      · omega
  | succ pages ih =>
    obtain ⟨⟨phys,pmm⟩,taken,returns⟩ := ok_of_bind returns
    obtain ⟨left,allocated⟩ := sp.alloc ok taken
    dsimp only at returns
    rw [if_neg (allocated.nonNull ok sp)] at returns
    obtain ⟨mapped,maps,returns⟩ := ok_of_bind returns
    obtain ⟨rest,update,window'⟩ := window.map ok cpu allocated (heapOk.small _ heapOk.low) heapOk.low maps
    obtain ⟨step,heapOk',moved,fewer⟩ := heapOk.page allocated update
    obtain ⟨served,rest',later,heapOk'',blocks,window''⟩ :=
      ih (k := ⟨mapped,{ k.heap with cursor := k.heap.cursor + 4096#64 }⟩) step.spaces heapOk' window' returns
    have cursor : after.heap.cursor.toNat = k.heap.cursor.toNat + 4096 * (pages + 1) := by
      rw [later.cursor,moved]
      omega
    refine ⟨served,rest',⟨(step.weaken ?_).trans (later.evolves.weaken ?_),cursor,?_⟩,heapOk'',blocks,
      window''.congr fun n => ?_⟩
    · exact fun _ _ _ slot => windowSlots_mono (Nat.le_refl _) (by omega) slot
    · exact fun _ _ _ slot => windowSlots_mono (by dsimp only; omega) (Nat.le_refl _) slot
    · have := later.taken
      dsimp only at this
      omega
    · dsimp only
      rw [moved,or_assoc]
      apply or_congr Iff.rfl
      omega

end Reddyos
