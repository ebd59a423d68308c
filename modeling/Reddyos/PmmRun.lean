import Reddyos.PmmFill

/-! The allocator's invariant, what one call does to it, and whole runs of
allocations and releases. -/
namespace Reddyos

open ByteMemory LinkedChain

/-- The frames met by following the links from `freelist_pmm_head`. -/
def FreeList (boot : Boot) (s : Pmm) (free : List U64) : Prop :=
  Chain boot.virt (fun page => load64 s.mem page.toNat) 0#64 s.freelistHead free

def Aligned (f : U64) : Prop := f.toNat % 4096 = 0

def Outside (pages : List U64) (b : Nat) : Prop :=
  ∀ f ∈ pages, b < f.toNat ∨ f.toNat + 4096 ≤ b

structure PmmInv (boot : Boot) (s : Pmm) (free : List U64) : Prop where
  list : FreeList boot s free
  cursor : CursorOk (boot.memmap.drop s.fillEntry) s.fillOffset
  suffix : ∃ n, untaken boot s = (frames boot).drop n
  nodup : (free ++ untaken boot s).Nodup
  subset : ∀ f ∈ free, f ∈ frames boot

theorem frame_aligned (ok : BootOk boot) (member : f ∈ frames boot) : Aligned f := by
  obtain ⟨_,_,_,aligned,_⟩ := (mem_frames ok).mp member
  exact aligned

theorem frame_bounds (ok : BootOk boot) (member : f ∈ frames boot) :
    0x100000 ≤ f.toNat ∧ f.toNat + 4096 ≤ 2^52 := by
  obtain ⟨e,inMap,usable,_,low,_,high⟩ := (mem_frames ok).mp member
  exact ⟨low,Nat.le_trans high (ok.fits e inMap usable)⟩

theorem frames_apart (af : Aligned f) (ag : Aligned g) (ne : f ≠ g) :
    f.toNat + 4096 ≤ g.toNat ∨ g.toNat + 4096 ≤ f.toNat := by
  have different : f.toNat ≠ g.toNat := fun same => ne (BitVec.eq_of_toNat_eq same)
  simp only [Aligned] at af ag
  omega

theorem PmmInv.untaken_subset (inv : PmmInv boot s free) (member : f ∈ untaken boot s) :
    f ∈ frames boot := by
  obtain ⟨n,h⟩ := inv.suffix
  exact List.mem_of_mem_drop (h ▸ member)

theorem pushNode_outside (apart : b < page.toNat ∨ page.toNat + 4096 ≤ b) :
    (pushNode boot page s).mem b = s.mem b :=
  store64_outside (by omega)

theorem pushAll_outside (apart : Outside pages b) : (pushAll boot pages s).mem b = s.mem b := by
  induction pages generalizing s with
  | nil => rfl
  | cons page rest ih =>
    rw [pushAll,ih (fun f member => apart f (by simp [member]))]
    exact pushNode_outside (apart page (by simp))

theorem freeList_pushAll (list : FreeList boot s free) (nodup : (pages ++ free).Nodup)
    (aligned : ∀ f ∈ pages ++ free, Aligned f) (live : ∀ f ∈ pages, boot.virt f ≠ 0#64) :
    FreeList boot (pushAll boot pages s) (pages.reverse ++ free) := by
  induction pages generalizing s free with
  | nil => exact list
  | cons page rest ih =>
    have fresh : ∀ other ∈ free, other ≠ page := by
      intro other member same
      have := (List.nodup_append.mp nodup).2.2 page (by simp) other member
      exact this same.symm
    have pushed : FreeList boot (pushNode boot page s) (page :: free) := by
      refine Chain.push list (live page (by simp)) load64_store64_same ?_
      intro other member
      have apart := frames_apart (aligned other (by simp [member])) (aligned page (by simp))
        (fresh other member)
      exact load64_store64_apart (by omega)
    rw [List.reverse_cons,List.append_assoc]
    refine ih pushed ?_ ?_ (fun f member => live f (by simp [member]))
    · exact (List.Perm.nodup_iff List.perm_middle).mpr nodup
    · intro f member
      apply aligned
      simp only [List.mem_append,List.mem_cons] at member ⊢
      tauto

/-- A refill moves the first `pages` untaken frames onto the list. -/
theorem pmmFill_spec (ok : BootOk boot) (inv : PmmInv boot s free) (pages : Nat) :
    PmmInv boot (pmmFill boot pages s) (((untaken boot s).take pages).reverse ++ free) ∧
      untaken boot (pmmFill boot pages s) = (untaken boot s).drop pages ∧
      (∀ b, Outside (untaken boot s) b → (pmmFill boot pages s).mem b = s.mem b) := by
  have refill : Refill boot (boot.memmap.drop s.fillEntry) pages s (pmmFill boot pages s) :=
    fillEntries_spec boot _ pages s (fun e member => ok.fits e (List.mem_of_mem_drop member)) inv.cursor
  generalize pmmFill boot pages s = next at refill ⊢
  have index : s.fillEntry + (next.fillEntry - s.fillEntry) = next.fillEntry := by
    have := refill.forward; omega
  have left := refill.left
  have cursor := refill.cursor
  rw [List.drop_drop,index] at left cursor
  change untaken boot next = (untaken boot s).drop pages at left
  have taken : ∀ f ∈ (untaken boot s).take pages, f ∈ frames boot :=
    fun f member => inv.untaken_subset (List.mem_of_mem_take member)
  have split : ((untaken boot s).take pages ++ free ++ (untaken boot s).drop pages).Perm
      (free ++ untaken boot s) := by
    conv => rhs; rw [← List.take_append_drop pages (untaken boot s)]
    rw [← List.append_assoc]
    exact List.perm_append_comm.append_right _
  have nodup := split.nodup_iff.mpr inv.nodup
  refine ⟨⟨?_,cursor,?_,?_,?_⟩,left,?_⟩
  · have pushed := freeList_pushAll inv.list (List.nodup_append.mp nodup).1
      (fun f member => frame_aligned ok ((List.mem_append.mp member).elim (taken f) (inv.subset f)))
      (fun f member => ok.nonNull f (taken f member))
    unfold FreeList
    rw [refill.pushed.mem,refill.pushed.head]
    exact pushed
  · obtain ⟨n,h⟩ := inv.suffix
    exact ⟨n + pages,by rw [left,h,List.drop_drop]⟩
  · rw [left]
    refine (List.Perm.nodup_iff ?_).mp nodup
    exact ((List.reverse_perm _).symm.append_right _).append_right _
  · intro f member
    rcases List.mem_append.mp member with new | old
    · exact taken f (List.mem_reverse.mp new)
    · exact inv.subset f old
  · intro b apart
    rw [refill.pushed.mem]
    exact pushAll_outside (fun f member => apart f (List.mem_of_mem_take member))

/-- A page taken from the list: zeroed, and every other frame left alone. -/
structure Taken (boot : Boot) (s : Pmm) (free : List U64) (page : U64) (next : Pmm)
    (rest : List U64) : Prop where
  inv : PmmInv boot next rest
  moved : ∃ n, untaken boot next = (untaken boot s).drop n ∧
    (page :: rest).Perm (free ++ (untaken boot s).take n)
  zero : ∀ b, page.toNat ≤ b → b < page.toNat + 4096 → next.mem b = 0#8
  frame : ∀ b, Outside (free ++ untaken boot s) b → next.mem b = s.mem b

theorem popPage_spec (ok : BootOk boot) (inv : PmmInv boot s (page :: rest)) :
    ∃ next, popPage boot s = .ok (page,next) ∧ PmmInv boot next rest ∧
      untaken boot next = untaken boot s ∧
      (∀ b, page.toNat ≤ b → b < page.toNat + 4096 → next.mem b = 0#8) ∧
      (∀ b, Outside [page] b → next.mem b = s.mem b) := by
  obtain ⟨head,live,tail⟩ := inv.list
  refine ⟨{ s with
      freelistHead := load64 s.mem page.toNat
      mem := fill s.mem page.toNat 0#8 4096 },?_,⟨?_,inv.cursor,inv.suffix,?_,?_⟩,rfl,?_,?_⟩
  · simp [popPage,head,live]
  · refine Chain.frame tail ?_
    intro other member
    have different : other ≠ page := by
      intro same
      have := (List.nodup_cons.mp (List.nodup_append.mp inv.nodup).1).1
      exact this (same ▸ member)
    have apart := frames_apart (frame_aligned ok (inv.subset other (by simp [member])))
      (frame_aligned ok (inv.subset page (by simp))) different
    exact load64_copy_apart (by omega)
  · exact (List.nodup_cons.mp inv.nodup).2
  · exact fun f member => inv.subset f (by simp [member])
  · exact fun b low high => fill_inside low high
  · exact fun b apart => fill_outside (apart page (by simp))

theorem popPage_empty (inv : PmmInv boot s []) :
    popPage boot s = .error (.panic "PMM: out of memory") := by
  have dry : s.freelistHead = 0#64 := inv.list
  simp [popPage,dry]

/-- `pmm_alloc_page` panics when no frame is left and hands out a zeroed frame otherwise. -/
theorem pmmAllocPage_spec (ok : BootOk boot) (inv : PmmInv boot s free) :
    (free ++ untaken boot s = [] ∧
      pmmAllocPage boot s = .error (.panic "PMM: out of memory")) ∨
    ∃ page next rest, pmmAllocPage boot s = .ok (page,next) ∧ Taken boot s free page next rest := by
  unfold pmmAllocPage
  cases free with
  | cons page rest =>
    right
    have live : s.freelistHead ≠ 0#64 := fun dry => by simpa using inv.list.stop_iff.mp dry
    obtain ⟨next,pop,inv',same,zero,frame⟩ := popPage_spec ok inv
    rw [if_neg live]
    refine ⟨page,next,rest,pop,inv',⟨0,same,by simp⟩,zero,?_⟩
    intro b apart
    exact frame b (fun f member => apart f (by simp_all))
  | nil =>
    have dry : s.freelistHead = 0#64 := inv.list
    rw [if_pos dry]
    obtain ⟨filled,left,frame⟩ := pmmFill_spec ok inv 512
    rw [List.append_nil] at filled
    cases list : ((untaken boot s).take 512).reverse with
    | nil =>
      left
      have none : untaken boot s = [] := by simpa using list
      rw [list] at filled
      exact ⟨by simpa using none,popPage_empty filled⟩
    | cons page rest =>
      right
      rw [list] at filled
      obtain ⟨next,pop,inv',same,zero,frame'⟩ := popPage_spec ok filled
      have perm : (page :: rest).Perm ((untaken boot s).take 512) := list ▸ List.reverse_perm _
      have member : page ∈ untaken boot s :=
        List.mem_of_mem_take (perm.mem_iff.mp (by simp))
      refine ⟨page,next,rest,pop,inv',⟨512,same.trans left,perm⟩,zero,?_⟩
      intro b apart
      rw [frame' b (fun f here => by simp at here; exact here ▸ apart page (by simp [member]))]
      exact frame b (fun f here => apart f (by simp [here]))

/-- Releasing a frame of the map that is neither free nor still to come. -/
theorem pmmFreePage_spec (ok : BootOk boot) (inv : PmmInv boot s free)
    (member : page ∈ frames boot) (fresh : page ∉ free ++ untaken boot s) :
    PmmInv boot (pmmFreePage boot page s) (page :: free) := by
  have nodup : (page :: free).Nodup :=
    List.nodup_cons.mpr ⟨fun h => fresh (by simp [h]),(List.nodup_append.mp inv.nodup).1⟩
  have all : ∀ f ∈ [page] ++ free, f ∈ frames boot := by
    intro f h
    rcases List.mem_append.mp h with h | h
    · rw [List.mem_singleton.mp h]; exact member
    · exact inv.subset f h
  refine ⟨?_,inv.cursor,inv.suffix,?_,fun f h => all f h⟩
  · have live : ∀ f ∈ [page], boot.virt f ≠ 0#64 := by
      intro f h
      rw [List.mem_singleton.mp h]
      exact ok.nonNull page member
    have pushed := freeList_pushAll inv.list nodup (fun f h => frame_aligned ok (all f h)) live
    exact pushed
  · exact List.nodup_cons.mpr ⟨fresh,inv.nodup⟩

/-- Writes outside the free and untaken frames leave the allocator alone. -/
theorem PmmInv.write (inv : PmmInv boot s free)
    (same : ∀ f ∈ free, ∀ b, f.toNat ≤ b → b < f.toNat + 4096 → mem b = s.mem b) :
    PmmInv boot { s with mem := mem } free := by
  refine ⟨Chain.frame inv.list ?_,inv.cursor,inv.suffix,inv.nodup,inv.subset⟩
  intro f member
  apply load64_congr
  intro i bound
  exact same f member _ (by omega) (by omega)

/-- States reached from `pmm_init` with the frames held by callers. Callers write
only to frames they hold and to memory that is no frame of the map. -/
inductive PmmReach (boot : Boot) : Pmm → List U64 → Prop where
  | init (mem : Mem) : PmmReach boot (pmmInit boot ⟨mem,0#64,0,0#64⟩) []
  | alloc : PmmReach boot s allocated → pmmAllocPage boot s = .ok (page,next) →
      PmmReach boot next (page :: allocated)
  | free : PmmReach boot s allocated → page ∈ allocated →
      PmmReach boot (pmmFreePage boot page s) (allocated.erase page)
  | write : PmmReach boot s allocated →
      (∀ f ∈ frames boot, f ∉ allocated →
        ∀ b, f.toNat ≤ b → b < f.toNat + 4096 → mem b = s.mem b) →
      PmmReach boot { s with mem := mem } allocated

/-- Every frame of the map is free, held or still to come, exactly once. -/
def Partitioned (boot : Boot) (s : Pmm) (allocated : List U64) : Prop :=
  ∃ free, PmmInv boot s free ∧ (free ++ allocated ++ untaken boot s).Perm (frames boot)

theorem boot_untaken (boot : Boot) (mem : Mem) : untaken boot ⟨mem,0#64,0,0#64⟩ = frames boot := by
  simp [untaken,remaining_zero,frames]

/-- Before `pmm_init` nothing is free and every frame is still to come. -/
theorem boot_inv (ok : BootOk boot) (mem : Mem) : PmmInv boot ⟨mem,0#64,0,0#64⟩ [] :=
  ⟨rfl,cursor_zero,⟨0,by simpa using boot_untaken boot mem⟩,
    by simpa [boot_untaken] using frames_nodup ok,by simp⟩

theorem pmmInit_partitioned (ok : BootOk boot) (mem : Mem) :
    Partitioned boot (pmmInit boot ⟨mem,0#64,0,0#64⟩) [] := by
  obtain ⟨inv,left,_⟩ := pmmFill_spec ok (boot_inv ok mem) 512
  refine ⟨_,inv,?_⟩
  change (_ ++ [] ++ untaken boot (pmmFill boot 512 _)).Perm _
  rw [left,boot_untaken,List.append_nil,List.append_nil]
  conv => rhs; rw [← List.take_append_drop 512 (frames boot)]
  exact (List.reverse_perm _).append_right _

theorem alloc_partitioned (ok : BootOk boot) (part : Partitioned boot s allocated)
    (result : pmmAllocPage boot s = .ok (page,next)) :
    Partitioned boot next (page :: allocated) := by
  obtain ⟨free,inv,perm⟩ := part
  rcases pmmAllocPage_spec ok inv with ⟨_,panics⟩ | ⟨page',next',rest,returns,taken⟩
  · rw [panics] at result; cases result
  rw [returns] at result
  obtain ⟨rfl,rfl⟩ := ok_pair result
  obtain ⟨n,left,moved⟩ := taken.moved
  refine ⟨rest,taken.inv,?_⟩
  calc (rest ++ page' :: allocated ++ untaken boot next').Perm
        (page' :: rest ++ allocated ++ untaken boot next') := by
          exact List.perm_middle.append_right _
    _ |>.Perm (free ++ (untaken boot s).take n ++ allocated ++ (untaken boot s).drop n) := by
          rw [left]; exact (moved.append_right _).append_right _
    _ |>.Perm (free ++ allocated ++ ((untaken boot s).take n ++ (untaken boot s).drop n)) := by
          simp only [List.append_assoc]
          refine List.Perm.append_left _ ?_
          rw [← List.append_assoc,← List.append_assoc]
          exact List.perm_append_comm.append_right _
    _ |>.Perm (frames boot) := by rw [List.take_append_drop]; exact perm

theorem free_partitioned (ok : BootOk boot) (part : Partitioned boot s allocated)
    (held : page ∈ allocated) :
    Partitioned boot (pmmFreePage boot page s) (allocated.erase page) := by
  obtain ⟨free,inv,perm⟩ := part
  have moved : (page :: free ++ allocated.erase page ++ untaken boot s).Perm
      (free ++ allocated ++ untaken boot s) := by
    refine List.Perm.append_right _ ?_
    exact List.perm_middle.symm.trans ((List.perm_cons_erase held).symm.append_left _)
  have nodup : (page :: free ++ allocated.erase page ++ untaken boot s).Nodup :=
    (moved.trans perm).nodup_iff.mpr (frames_nodup ok)
  have fresh : page ∉ free ++ untaken boot s := by
    intro member
    rw [List.cons_append,List.cons_append] at nodup
    have := (List.nodup_cons.mp nodup).1
    simp only [List.mem_append] at this member
    tauto
  have inMap : page ∈ frames boot := (moved.trans perm).mem_iff.mp (by simp)
  exact ⟨page :: free,pmmFreePage_spec ok inv inMap fresh,moved.trans perm⟩

theorem reach_partitioned (ok : BootOk boot) (reach : PmmReach boot s allocated) :
    Partitioned boot s allocated := by
  induction reach with
  | init mem => exact pmmInit_partitioned ok mem
  | alloc _ result ih => exact alloc_partitioned ok ih result
  | free _ held ih => exact free_partitioned ok ih held
  | write _ same ih =>
    obtain ⟨free,inv,perm⟩ := ih
    have nodup := perm.nodup_iff.mpr (frames_nodup ok)
    refine ⟨free,inv.write ?_,perm⟩
    intro f member
    refine same f (inv.subset f member) (fun held => ?_)
    exact (List.nodup_append.mp (List.nodup_append.mp nodup).1).2.2 f member f held rfl

def takenCount (boot : Boot) (s : Pmm) : Nat := (frames boot).length - (untaken boot s).length

theorem partitioned_taken (inv : PmmInv boot s free)
    (perm : (free ++ allocated ++ untaken boot s).Perm (frames boot)) :
    (free ++ allocated).Perm ((frames boot).take (takenCount boot s)) := by
  obtain ⟨n,suffix⟩ := inv.suffix
  have count : (frames boot).take (takenCount boot s) = (frames boot).take n := by
    rw [List.take_eq_take_iff,takenCount,suffix,List.length_drop]
    omega
  rw [count]
  apply (List.perm_append_right_iff (untaken boot s)).mp
  rw [suffix] at perm ⊢
  rwa [List.take_append_drop]

/-- Frame exclusivity and exactness of the allocator over every run. -/
theorem pmm_frames_exact (ok : BootOk boot) (reach : PmmReach boot s allocated) :
    (frames boot).Nodup ∧
    (∀ f, f ∈ frames boot ↔ ∃ e ∈ boot.memmap, Usable e ∧ f.toNat % 4096 = 0 ∧
      0x100000 ≤ f.toNat ∧ e.base.toNat ≤ f.toNat ∧ f.toNat + 4096 ≤ e.limit) ∧
    (∃ free, FreeList boot s free ∧ free.Nodup ∧ allocated.Nodup ∧ free.Disjoint allocated ∧
      (free ++ allocated).Perm ((frames boot).take (takenCount boot s))) ∧
    (pmmAllocPage boot s = .error (.panic "PMM: out of memory") ↔
      ∀ f ∈ frames boot, f ∈ allocated) ∧
    (∀ page next, pmmAllocPage boot s = .ok (page,next) → page ≠ 0#64) := by
  obtain ⟨free,inv,perm⟩ := reach_partitioned ok reach
  have nodup := List.nodup_append.mp (perm.nodup_iff.mpr (frames_nodup ok))
  have parts := List.nodup_append.mp nodup.1
  refine ⟨frames_nodup ok,fun f => mem_frames ok,
    ⟨free,inv.list,parts.1,parts.2.1,fun f inFree held => parts.2.2 f inFree f held rfl,
      partitioned_taken inv perm⟩,?_,?_⟩
  · rcases pmmAllocPage_spec ok inv with ⟨none,panics⟩ | ⟨page,next,rest,returns,taken⟩
    · refine ⟨fun _ f member => ?_,fun _ => panics⟩
      have := perm.mem_iff.mpr member
      obtain ⟨rfl,dry⟩ := List.append_eq_nil_iff.mp none
      simpa [dry] using this
    · refine ⟨fun panics => (by rw [returns] at panics; cases panics),fun all => ?_⟩
      obtain ⟨n,_,moved⟩ := taken.moved
      have source := moved.mem_iff.mp (List.mem_cons_self (a := page))
      rcases List.mem_append.mp source with inFree | later
      · exact absurd rfl (parts.2.2 page inFree page (all page (inv.subset page inFree)))
      · have later := List.mem_of_mem_take later
        have held := all page (inv.untaken_subset later)
        exact absurd rfl (nodup.2.2 page (by simp [held]) page later)
  · intro page next result zero
    obtain ⟨_,inv',perm'⟩ := alloc_partitioned ok ⟨free,inv,perm⟩ result
    have inMap : page ∈ frames boot := perm'.mem_iff.mp (by simp)
    have := (frame_bounds ok inMap).1
    rw [zero] at this
    simp at this

def smallBoot : Boot :=
  ⟨[⟨0x0#64,0x100000#64,1#64⟩,⟨0x100800#64,0x2900#64,0#64⟩],
    0xFFFF800000000000#64,0xFFFFFFFFFF#64,0x9000#64⟩

theorem smallBoot_frames : frames smallBoot = [0x101000#64,0x102000#64] := by decide +kernel

theorem smallBoot_ok : BootOk smallBoot where
  fits := by simp [smallBoot,Usable,limineMemmapUsable,MemmapEntry.limit]
  disjoint := by simp [smallBoot,Usable,limineMemmapUsable]
  nonNull := by rw [smallBoot_frames]; simp [Boot.virt,smallBoot]

theorem pmm_frames_exact_smallBoot : ∃ s, PmmReach smallBoot s [0x102000#64] ∧
    (pmmAllocPage smallBoot s = .error (.panic "PMM: out of memory") ↔
      ∀ f ∈ frames smallBoot, f ∈ [0x102000#64]) := by
  have evaluated : (pmmAllocPage smallBoot (pmmInit smallBoot ⟨fun _ => 0#8,0#64,0,0#64⟩)).toOption.map
      Prod.fst = some 0x102000#64 := by decide +kernel
  obtain ⟨s,returns⟩ := returns_of_fst evaluated
  have reach : PmmReach smallBoot s [0x102000#64] := .alloc (.init fun _ => 0#8) returns
  exact ⟨s,reach,(pmm_frames_exact smallBoot_ok reach).2.2.2.1⟩

end Reddyos
