import Reddyos.VmmMap

/-! Translations read off the last-level entries, fresh address spaces, and the tables
the boot loader leaves behind. -/
namespace Reddyos

open ByteMemory RadixForest

def lowerHalf (v : U64) : Prop := v.toNat < 2^47
def upperHalf (v : U64) : Prop := 2^64 - 2^47 ≤ v.toNat

instance (v : U64) : Decidable (lowerHalf v) := inferInstanceAs (Decidable (_ < _))
instance (v : U64) : Decidable (upperHalf v) := inferInstanceAs (Decidable (_ ≤ _))

def physical (v e : U64) : U64 := (e &&& pageMask) ||| (v &&& 0xFFF#64)

theorem toNat_physical (v e : U64) : (physical v e).toNat = (e &&& pageMask).toNat + v.toNat % 4096 := by
  have apart : (e &&& pageMask) &&& (v &&& 0xFFF#64) = 0#64 := by
    rw [BitVec.and_comm v,← BitVec.and_assoc,BitVec.and_assoc e,
      show pageMask &&& 0xFFF#64 = 0#64 by decide]
    simp
  have offset := Words.toNat_and_low v 12 (by decide)
  rw [show BitVec.ofNat 64 (2^12 - 1) = 0xFFF#64 from rfl] at offset
  have frame := (and_pageMask_ok e).2
  rw [physical,← BitVec.add_eq_or_of_and_eq_zero _ _ apart,BitVec.toNat_add,offset]
  exact Nat.mod_eq_of_lt (by omega)

variable {boot : Boot} {s next : Pmm} {free rest procs : List U64}

def pml4Entry (m : Mem) (root v : U64) : U64 := entry m root (pml4Index v)
def pdptEntry (m : Mem) (root v : U64) : U64 := entry m (pml4Entry m root v &&& pageMask) (pdptIndex v)
def pdEntry (m : Mem) (root v : U64) : U64 := entry m (pdptEntry m root v &&& pageMask) (pdIndex v)
def ptEntry (m : Mem) (root v : U64) : U64 := entry m (pdEntry m root v &&& pageMask) (ptIndex v)

theorem pathOf_stems (short : stem ++ [i] <+: pathOf v) :
    (stem = [] ∧ i = pml4Index v) ∨ (stem = [pml4Index v] ∧ i = pdptIndex v) ∨
      (stem = [pml4Index v,pdptIndex v] ∧ i = pdIndex v) := by
  obtain ⟨tail,joined⟩ := short
  rw [List.append_assoc] at joined
  match stem with
  | [] => simp_all [pathOf]
  | [a] => simp_all [pathOf]
  | [a,b] => simp_all [pathOf]
  | a :: b :: c :: rest => simp [pathOf] at joined

theorem SmallOn.child (small : SmallOn m root v) (short : stem ++ [i] <+: pathOf v)
    (found : walk (Reddyos.child m) root stem = some f) :
    Reddyos.child m f i = if entry m f i &&& pagePresent = 0#64 then none
      else some (entry m f i &&& pageMask) := by
  unfold Reddyos.child
  by_cases present : Present (entry m f i)
  · rw [if_pos ⟨present,small stem i f short found present⟩,if_neg present]
  · rw [if_neg (fun h => present h.1),if_pos (by simpa [Present] using present)]

/-- Off large pages the processor's walk ends in the last-level entry. -/
theorem mmuTranslate_leafAt (small : SmallOn m root v) :
    mmuTranslate m root v = (leafAt m root (pathOf v) (ptIndex v)).map (physical v) := by
  unfold mmuTranslate leafAt
  dsimp only
  have first := small.child (i := pml4Index v) ⟨_,rfl⟩ (walk_nil _ root)
  by_cases absent : entry m root (pml4Index v) &&& pagePresent = 0#64
  · simp [pathOf,first,absent]
  rw [if_neg absent] at first
  have found : walk (child m) root [pml4Index v] = some (entry m root (pml4Index v) &&& pageMask) := by
    simp [first]
  have second := small.child (i := pdptIndex v) ⟨_,rfl⟩ found
  have flat := small [pml4Index v] (pdptIndex v) _ ⟨_,rfl⟩ found
  generalize entry m root (pml4Index v) &&& pageMask = pdpt at *
  by_cases absent₂ : entry m pdpt (pdptIndex v) &&& pagePresent = 0#64
  · simp [pathOf,first,second,absent,absent₂]
  rw [if_neg absent₂] at second
  have small₂ : ¬(entry m pdpt (pdptIndex v) &&& pageLarge ≠ 0#64) := flat absent₂
  have found : walk (child m) root [pml4Index v,pdptIndex v] =
      some (entry m pdpt (pdptIndex v) &&& pageMask) := by simp [first,second]
  have third := small.child (i := pdIndex v) ⟨_,rfl⟩ found
  have flat := small [pml4Index v,pdptIndex v] (pdIndex v) _ ⟨_,rfl⟩ found
  generalize entry m pdpt (pdptIndex v) &&& pageMask = pd at *
  by_cases absent₃ : entry m pd (pdIndex v) &&& pagePresent = 0#64
  · simp only [pathOf,walk_cons,first,second,third,if_neg absent,if_neg absent₂,if_neg small₂,if_pos absent₃,
      Option.bind_some,Option.bind_none,Option.map_none]
  rw [if_neg absent₃] at third
  have small₃ : ¬(entry m pd (pdIndex v) &&& pageLarge ≠ 0#64) := flat absent₃
  simp only [pathOf,walk_cons,walk_nil,first,second,third,if_neg absent,if_neg absent₂,if_neg small₂,
    if_neg absent₃,if_neg small₃,Option.bind_some,Present]
  split <;> simp_all [physical]

theorem leafTable_of_mapped (small : SmallOn m root v) (mapped : (mmuTranslate m root v).isSome) :
    ∃ pt, walk (child m) root (pathOf v) = some pt := by
  rw [mmuTranslate_leafAt small,Option.isSome_map,leafAt] at mapped
  cases found : walk (child m) root (pathOf v) with
  | none => rw [found] at mapped; cases mapped
  | some pt => exact ⟨pt,rfl⟩

theorem mmuTranslate_congr (same : entry m root (pml4Index v) = entry m root' (pml4Index v)) :
    mmuTranslate m root v = mmuTranslate m root' v := by
  simp only [mmuTranslate,same]

theorem Spaces.translate (sp : Spaces boot s free procs) (member : root ∈ procs)
    (selected : Adm boot procs root (pathOf v)) :
    mmuTranslate s.mem root v = (leafAt s.mem root (pathOf v) (ptIndex v)).map (physical v) :=
  mmuTranslate_leafAt (sp.smallOn member selected)

theorem lower_index (lower : lowerHalf v) : pml4Index v < 256 := by
  unfold lowerHalf at lower
  rw [pml4Index_eq]
  omega

theorem upper_index (upper : upperHalf v) : 256 ≤ pml4Index v := by
  unfold upperHalf at upper
  have := v.isLt
  rw [pml4Index_eq]
  omega

/-- Lower-half addresses with the same indices lie on the same page. -/
theorem same_page (lower : lowerHalf v) (lower' : lowerHalf w) :
    (pathOf v = pathOf w ∧ ptIndex v = ptIndex w) ↔ v.toNat / 4096 = w.toNat / 4096 := by
  unfold lowerHalf at lower lower'
  simp only [pathOf,List.cons.injEq,and_true,pml4Index_eq,pdptIndex_eq,pdIndex_eq,ptIndex_eq]
  constructor <;> intro same <;> omega

theorem adm_pathOf (v : U64) (half : root = boot.kernelPml4 ∨ root ∈ procs ∧ lowerHalf v) :
    Adm boot procs root (pathOf v) := by
  obtain ⟨first,second,third,_⟩ := index_lt v
  refine ⟨by simp [pathOf],by simp [pathOf,first,second,third],half.imp_right ?_⟩
  rintro ⟨member,lower⟩
  exact ⟨member,by simpa [pathOf] using lower_index lower⟩

/-- A frame outside all tables whose lower half is zero may be one more root. -/
theorem Spaces.insert (sp : Spaces boot s free procs) (frame : FrameOk page)
    (unavailable : page ∉ avail boot s free)
    (unreached : ∀ {root path}, Adm boot procs root path → walk (child s.mem) root path ≠ some page)
    (zero : ∀ i < 256, entry s.mem page i = 0#64) (foreign : page ≠ boot.kernelPml4) :
    Spaces boot s free (page :: procs) ∧
      ∀ path, Adm boot (page :: procs) page path → path ≠ [] → walk (child s.mem) page path = none := by
  have empty : ∀ path, Adm boot (page :: procs) page path → path ≠ [] →
      walk (child s.mem) page path = none := by
    rintro path ⟨_,_,half⟩ nonempty
    cases path with
    | nil => contradiction
    | cons i path =>
      have lower := (half.resolve_left foreign).2 i (by simp)
      simp [child,zero i lower,not_present_zero]
  have here : ∀ {path f}, Adm boot (page :: procs) page path → walk (child s.mem) page path = some f →
      path = [] ∧ f = page := by
    intro path f selected found
    by_cases nonempty : path = []
    · subst path; exact ⟨rfl,(Option.some.inj found).symm⟩
    · rw [empty path selected nonempty] at found; cases found
  refine ⟨⟨sp.pmm,⟨adm_closed,?_⟩,?_,?_,?_,?_⟩,empty⟩
  · intro root path root' path' f selected selected' found found'
    by_cases same : root = page <;> by_cases same' : root' = page
    · subst root root'
      exact ⟨rfl,(here selected found).1.trans (here selected' found').1.symm⟩
    · subst root
      rw [(here selected found).2] at found'
      exact absurd found' (unreached (selected'.older same'))
    · subst root'
      rw [(here selected' found').2] at found
      exact absurd found (unreached (selected.older same))
    · exact sp.forest.unique (selected.older same) (selected'.older same') found found'
  · intro root path f selected found
    by_cases same : root = page
    · subst root; rw [(here selected found).2]; exact unavailable
    · exact sp.apart (selected.older same) found
  · rintro root (kernel | member)
    · exact sp.roots (.inl kernel)
    · rcases List.mem_cons.mp member with rfl | member
      · exact frame
      · exact sp.roots (.inr member)
  · intro root path i f member selected found present
    by_cases same : root = page
    · subst root
      obtain ⟨rfl,rfl⟩ := here (adm_closed selected) found
      rw [zero i ((selected.2.2.resolve_left foreign).2 i (by simp))] at present
      exact absurd present not_present_zero
    · exact sp.small ((List.mem_cons.mp member).resolve_left same) (selected.older same) found present
  · intro member
    rcases List.mem_cons.mp member with same | member
    · exact foreign same.symm
    · exact sp.kernel member

structure Created (boot : Boot) (s : Pmm) (free procs : List U64) (pml4 : U64) (next : Pmm)
    (rest : List U64) : Prop where
  spaces : Spaces boot next rest (pml4 :: procs)
  source : pml4 ∈ avail boot s free
  new : pml4 ∉ procs
  less : ∀ f ∈ avail boot next rest, f ∈ avail boot s free
  same : TablesSame boot procs s.mem next.mem
  empty : Adm boot (pml4 :: procs) pml4 path → path ≠ [] → walk (child next.mem) pml4 path = none
  upper : 256 ≤ i → i < 512 → entry next.mem pml4 i = entry s.mem boot.kernelPml4 i
  frame : ∀ b, Outside (avail boot s free) b → next.mem b = s.mem b

theorem pagingCreateAddressSpace_eq (zero : ∀ b, pml4.toNat ≤ b → b < pml4.toNat + 4096 → middle.mem b = 0#8)
    (taken : pmmAllocPage boot s = .ok (pml4,middle)) :
    pagingCreateAddressSpace boot s = .ok (pml4,pagingCopyKernelHalf boot pml4 middle) := by
  unfold pagingCreateAddressSpace
  rw [taken]
  change Except.ok (pml4,pagingCopyKernelHalf boot pml4 { middle with mem := fill middle.mem pml4.toNat 0#8 4096 }) = _
  rw [fill_of_zero zero]

theorem copyKernelHalf_outside (apart : Clear pml4 b) :
    (pagingCopyKernelHalf boot pml4 s).mem b = s.mem b := by
  simp only [Clear,pagingCopyKernelHalf,entryAddr] at apart ⊢
  rw [copy_outside]
  omega

theorem copyKernelHalf_lower (bound : i < 256) :
    entry (pagingCopyKernelHalf boot pml4 s).mem pml4 i = entry s.mem pml4 i := by
  simp only [entry,pagingCopyKernelHalf,entryAddr]
  rw [load64_copy_apart]
  omega

theorem copyKernelHalf_upper (low : 256 ≤ i) (high : i < 512) :
    entry (pagingCopyKernelHalf boot pml4 s).mem pml4 i = entry s.mem boot.kernelPml4 i := by
  simp only [entry,pagingCopyKernelHalf,entryAddr]
  refine load64_congr fun j bound => ?_
  rw [copy_inside (by omega) (by omega)]
  exact congrArg s.mem (by omega)

theorem Allocated.copied_apart (allocated : Allocated boot s free procs page middle rest) (frame : FrameOk f)
    (different : f ≠ page) (b : Nat) (low : f.toNat ≤ b) (high : b < f.toNat + 4096) :
    (pagingCopyKernelHalf boot page middle).mem b = middle.mem b := by
  apply copyKernelHalf_outside
  have := frames_apart frame.1 allocated.fresh.frame.1 different
  unfold Clear
  omega

theorem Allocated.copied (ok : BootOk boot) (allocated : Allocated boot s free procs page middle rest) :
    PmmInv boot (pagingCopyKernelHalf boot page middle) rest := by
  apply allocated.spaces.pmm.write
  intro f member
  have inAvail : f ∈ avail boot middle rest := by simp [avail,member]
  apply allocated.copied_apart (avail_ok ok allocated.spaces.pmm inAvail)
  exact fun same => allocated.fresh.unavailable (same ▸ inAvail)

theorem pagingCreateAddressSpace_spec (ok : BootOk boot) (sp : Spaces boot s free procs)
    (returns : pagingCreateAddressSpace boot s = .ok (pml4,next)) :
    ∃ rest, Created boot s free procs pml4 next rest := by
  obtain ⟨⟨page,middle⟩,taken,_⟩ := ok_of_bind returns
  obtain ⟨rest,allocated⟩ := sp.alloc ok taken
  have fresh := allocated.fresh
  rw [pagingCreateAddressSpace_eq fresh.zero taken] at returns
  obtain ⟨rfl,rfl⟩ := ok_pair returns
  have same : TablesSame boot procs middle.mem (pagingCopyKernelHalf boot page middle).mem := by
    intro root path f i selected found bound
    refine entry_congr bound (allocated.copied_apart (allocated.spaces.table_ok selected found) ?_)
    rintro rfl
    exact fresh.unreached selected found
  have middleSpaces := allocated.spaces.quiet (allocated.copied ok) same (fun f member => member)
  have kernel : Adm boot procs boot.kernelPml4 [] := adm_nil (.inl rfl)
  have foreign : page ≠ boot.kernelPml4 := fun same => fresh.unreached kernel (by simp [same])
  obtain ⟨spaces,empty⟩ := middleSpaces.insert fresh.frame fresh.unavailable
    (fun selected found => fresh.unreached selected ((same.walk selected).symm.trans found))
    (fun i bound => (copyKernelHalf_lower bound).trans (fresh.entry (by omega))) foreign
  refine ⟨rest,spaces,allocated.source,?_,allocated.less,?_,fun selected => empty _ selected,?_,?_⟩
  · exact fun member => fresh.unreached (adm_nil (.inr member)) rfl
  · intro root path f i selected found bound
    rw [same root path f i selected ((allocated.same.walk selected).trans found) bound,
      allocated.same root path f i selected found bound]
  · intro i low high
    rw [copyKernelHalf_upper low high,allocated.same _ [] _ i kernel rfl high]
  · intro b outside
    rw [copyKernelHalf_outside (outside page allocated.source),allocated.frame b outside]

/-- The tables the boot loader leaves: a tree whose frames are never handed out. -/
structure BootTables (boot : Boot) (m : Mem) : Prop where
  frame : FrameOk boot.kernelPml4
  forest : Forest (child m) (Adm boot [])
  apart : Adm boot [] root path → walk (child m) root path = some f → f ∉ frames boot

theorem Spaces.fill (ok : BootOk boot) (sp : Spaces boot s free procs) (pages : Nat) :
    ∃ rest, Spaces boot (pmmFill boot pages s) rest procs ∧
      TablesSame boot procs s.mem (pmmFill boot pages s).mem := by
  obtain ⟨inv,left,frame⟩ := pmmFill_spec ok sp.pmm pages
  have same : TablesSame boot procs s.mem (pmmFill boot pages s).mem :=
    sp.tables_same ok (fun b outside => frame b (fun f member => outside f (by simp [avail,member])))
  refine ⟨_,sp.quiet inv same ?_,same⟩
  intro f member
  simp only [avail,List.mem_append,List.mem_reverse,left] at member ⊢
  rcases member with (taken | old) | later
  · exact .inr (List.mem_of_mem_take taken)
  · exact .inl old
  · exact .inr (List.mem_of_mem_drop later)

theorem boot_spaces (ok : BootOk boot) (tables : BootTables boot m) :
    ∃ free, Spaces boot (pmmInit boot ⟨m,0#64,0,0#64⟩) free [] ∧
      TablesSame boot [] m (pmmInit boot ⟨m,0#64,0,0#64⟩).mem := by
  have before : Spaces boot ⟨m,0#64,0,0#64⟩ [] [] := by
    refine ⟨boot_inv ok m,tables.forest,?_,?_,?_,by simp⟩
    · intro root path f selected found
      simpa [avail,boot_untaken] using tables.apart selected found
    · intro root member
      simpa [show root = boot.kernelPml4 by simpa using member] using tables.frame
    · intro root path i f member
      simp at member
  exact before.fill ok 512

end Reddyos
