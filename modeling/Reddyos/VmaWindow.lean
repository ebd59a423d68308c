import Reddyos.VmaMembers

/-! Where `mmap` places areas relative to the user stack, which the search knows nothing of. -/
namespace Reddyos

open OrderedTree

variable {boot : Boot} {ft : Ftrees} {a a' : Areas} {m next : Machine}

def userStackTop : U64 := 0xF0000000#64

def stackReserve : U64 := userStackTop - 32#64 * 4096#64 - 4096#64 * 128#64

def NewProcess (m : Machine) : Prop := NoAreas m ∧ m.process.userStackBottomMax = stackReserve

/-- `[x,x + len)` lies between `VMA_BASE` and `limit` and meets no area. -/
def FreeBelow (a : Areas) (limit x len : Nat) : Prop :=
  vmaBase.toNat ≤ x ∧ x + len ≤ limit ∧
    ∀ p ∈ a.list, x + len ≤ (a.area p).start.toNat ∨ (a.area p).stop.toNat ≤ x

/-- Areas lie between `VMA_BASE` and `limit`. -/
def Within (a : Areas) (limit : Nat) : Prop :=
  ∀ p ∈ a.list, vmaBase.toNat ≤ (a.area p).start.toNat ∧
    (a.area p).start.toNat ≤ (a.area p).stop.toNat ∧ (a.area p).stop.toNat ≤ limit

theorem scan_ge (t : OrderedTree.Tree Nat) {lastEnd result length : U64}
    (stops : ∀ p ∈ inorder t, base ≤ (a.area p).stop.toNat) (before : base ≤ lastEnd.toNat)
    (found : result ≠ 0#64 → base ≤ result.toNat) :
    base ≤ (scan a length t (lastEnd,result)).1.toNat ∧
      ((scan a length t (lastEnd,result)).2 ≠ 0#64 → base ≤ (scan a length t (lastEnd,result)).2.toNat) := by
  induction t generalizing lastEnd result with
  | nil => exact ⟨before,found⟩
  | node left p right leftIh rightIh =>
    simp only [inorder,List.mem_append,List.mem_cons] at stops
    rw [scan]
    split
    · exact ⟨before,found⟩
    obtain ⟨low,known⟩ := leftIh (fun q member => stops q (.inl member)) before found
    dsimp only
    split
    · exact ⟨low,fun _ => low⟩
    · exact rightIh (fun q member => stops q (.inr (.inr member))) (stops p (.inr (.inl rfl))) known

/-- The place returned is not below `VMA_BASE`. -/
theorem vmaFindFreeRegion_ge (ft : Ftrees) (within : Within a limit)
    (found : vmaFindFreeRegion ft a length ≠ 0#64) : vmaBase.toNat ≤ (vmaFindFreeRegion ft a length).toNat := by
  have stops : ∀ p ∈ inorder a.tree, vmaBase.toNat ≤ (a.area p).stop.toNat := by
    intro p member
    obtain ⟨low,order,_⟩ := within p member
    omega
  have scanned := @scan_ge a _ a.tree vmaBase 0#64 length stops (Nat.le_refl _) (fun h => absurd rfl h)
  unfold vmaFindFreeRegion at found ⊢
  dsimp only at found ⊢
  split at found
  · exact absurd rfl found
  rename_i clear
  rw [if_neg clear]
  split
  · rename_i gap
    exact scanned.2 gap
  · exact scanned.1

/-- What is promised of one `mmap`: an area in the window or, when there is no room in it,
an error. -/
structure MmapInWindow (boot : Boot) (ft : Ftrees) (m : Machine) (file : Option VmaFile)
    (length offset : U64) : Prop where
  inside : ∀ start next, doSysMmap boot ft file length offset m = .ok (.ok start,next) →
    vmaBase.toNat ≤ start.toNat ∧
      start.toNat + (alignUp length).toNat ≤ m.process.userStackBottomMax.toNat
  full : alignUp length ≠ 0#64 →
    (¬∃ x, FreeBelow m.process.areas m.process.userStackBottomMax.toNat x (alignUp length).toNat) →
    ∀ result next, doSysMmap boot ft file length offset m = .ok (result,next) →
      result = .error .enomem ∧ next.process.areas = m.process.areas

/-- There is room in the window for what is mapped, and what is unmapped does not run past
the end of the address space. -/
def WindowStep (m : Machine) : VmaCall → Prop
  | .mmap _ length _ => alignUp length = 0#64 ∨
      ∃ x, FreeBelow m.process.areas m.process.userStackBottomMax.toNat x (alignUp length).toNat
  | .munmap addr length => ∀ p ∈ m.process.areas.list,
      (m.process.areas.area p).start.toNat ≤ addr.toNat →
      addr.toNat < (m.process.areas.area p).stop.toNat → addr.toNat + (alignUp length).toNat < 2^64
  | .fault _ => True
  | .store _ _ => True

structure WindowInv (m : Machine) : Prop where
  numbered : Numbered m.process.areas
  within : Within m.process.areas m.process.userStackBottomMax.toNat
  limit : m.process.userStackBottomMax = stackReserve

theorem doSysMmap_inside (conservative : Conservative ft.ops) (inv : WindowInv m)
    (allowed : WindowStep m (.mmap file length offset))
    (returns : doSysMmap boot ft file length offset m = .ok (.ok start,next)) :
    vmaBase.toNat ≤ start.toNat ∧
      start.toNat + (alignUp length).toNat ≤ m.process.userStackBottomMax.toNat := by
  rcases doSysMmap_members conservative inv.numbered returns with
    ⟨⟨_,impossible⟩,_⟩ | ⟨_,same,nonzero,found,rfl,_,_⟩
  · cases impossible
  obtain rfl := Except.ok.inj same
  obtain ⟨x,base,top,free⟩ := allowed.resolve_left nonzero
  have lowest := vmaFindFreeRegion_le ft m.process.areas nonzero base free
  exact ⟨vmaFindFreeRegion_ge ft inv.within found,by omega⟩

theorem doSysMmap_window (conservative : Conservative ft.ops) (inv : WindowInv m)
    (allowed : WindowStep m (.mmap file length offset))
    (returns : doSysMmap boot ft file length offset m = .ok (result,next)) : WindowInv next := by
  rcases doSysMmap_members conservative inv.numbered returns with
    ⟨_,same⟩ | ⟨start,rfl,_,_,_,same,members⟩
  · exact ⟨same ▸ inv.numbered,same ▸ inv.within,same ▸ inv.limit⟩
  obtain ⟨low,high⟩ := doSysMmap_inside conservative inv allowed returns
  have limit : next.process.userStackBottomMax = m.process.userStackBottomMax := by rw [same]
  have top := m.process.userStackBottomMax.isLt
  refine ⟨members.numbered,fun q member => ?_,limit.trans inv.limit⟩
  rw [limit]
  rcases members.members q member with ⟨listed,old⟩ | ⟨_,new⟩
  · rw [old]
    exact inv.within q listed
  · rw [new.start,new.stop,BitVec.toNat_add,Nat.mod_eq_of_lt (by omega)]
    omega

theorem doSysMunmap_window (conservative : Conservative ft.ops) (inv : WindowInv m)
    (allowed : WindowStep m (.munmap addr length))
    (returns : doSysMunmap boot ft addr length m = .ok (result,next)) : WindowInv next := by
  rcases doSysMunmap_members conservative inv.numbered returns with
    same | ⟨p,block,found,inside,same,members⟩
  · exact ⟨same ▸ inv.numbered,same ▸ inv.within,same ▸ inv.limit⟩
  obtain ⟨listed,low,high⟩ := vmaFind_mem conservative found
  rw [BitVec.le_def] at low
  rw [BitVec.lt_def] at high
  have top := allowed p listed low high
  have sum : (addr + alignUp length).toNat = addr.toNat + (alignUp length).toNat := by
    rw [BitVec.toNat_add]
    exact Nat.mod_eq_of_lt top
  rw [BitVec.lt_def,sum,Nat.not_lt] at inside
  obtain ⟨base,order,stop⟩ := inv.within p listed
  have limit : next.process.userStackBottomMax = m.process.userStackBottomMax := by rw [same]
  refine ⟨members.numbered,fun q member => ?_,limit.trans inv.limit⟩
  rw [limit]
  rcases members.members q member with ⟨old,kept⟩ | ⟨_,⟨_,less⟩,tail⟩
  · rw [kept]
    split
    · have := trimArea_within sum ⟨low,inside⟩
      omega
    · exact inv.within q old
  · rw [BitVec.lt_def,sum] at less
    rw [tail]
    simp only [tailArea,sum]
    omega

theorem vmaFaultHandler_limit (returns : vmaFaultHandler boot p addr m = .ok (handled,next)) :
    next.process.userStackBottomMax = m.process.userStackBottomMax := by
  cases vmaFaultHandler_cases returns <;> rfl

theorem pageFaultHandler_limit (returns : pageFaultHandler boot ft addr m = .ok (handled,next)) :
    next.process.userStackBottomMax = m.process.userStackBottomMax := by
  rcases pageFaultHandler_cases returns with ⟨_,stack⟩ | ⟨_,⟨p,_,handles⟩ | ⟨_,_,rfl⟩⟩
  · rw [stackFault_process stack]
  · exact vmaFaultHandler_limit handles
  · rfl

theorem pageFaultHandler_window (inv : WindowInv m) (returns : pageFaultHandler boot ft addr m = .ok (handled,next)) :
    WindowInv next := by
  have same := pageFaultHandler_areas returns
  have list : next.process.areas.list = m.process.areas.list := congrArg inorder same.tree
  have limit := pageFaultHandler_limit returns
  refine ⟨fun q member => ?_,fun q member => ?_,limit.trans inv.limit⟩
  · rw [same.fresh]
    exact inv.numbered q (list ▸ member)
  · rw [same.start,same.stop,limit]
    exact inv.within q (list ▸ member)

theorem runCall_window (conservative : Conservative ft.ops) (inv : WindowInv m) (allowed : WindowStep m call)
    (returns : runCall boot ft call m = .ok next) : WindowInv next := by
  cases call with
  | mmap file length offset =>
    obtain ⟨⟨result,m'⟩,called,returns⟩ := ok_of_bind returns
    obtain rfl := Except.ok.inj returns
    exact doSysMmap_window conservative inv allowed called
  | munmap addr length =>
    obtain ⟨⟨result,m'⟩,called,returns⟩ := ok_of_bind returns
    obtain rfl := Except.ok.inj returns
    exact doSysMunmap_window conservative inv allowed called
  | fault addr =>
    obtain ⟨⟨handled,m'⟩,called,returns⟩ := ok_of_bind returns
    obtain rfl := Except.ok.inj returns
    exact pageFaultHandler_window inv called
  | store addr byte =>
    obtain rfl := Except.ok.inj returns
    have same := userStore_process addr byte m
    exact ⟨same ▸ inv.numbered,same ▸ inv.within,same ▸ inv.limit⟩

/-- While there is room in the window, every area lies in it, clear of the stack and its
reserve and of the kernel half, and so does whatever `mmap` returns. -/
theorem mmap_in_window (conservative : Conservative ft.ops)
    (reach : VmaReach boot ft NewProcess WindowStep m) :
    m.process.userStackBottomMax.toNat < 2^47 ∧
    Within m.process.areas m.process.userStackBottomMax.toNat ∧
    ∀ file length offset, WindowStep m (.mmap file length offset) →
      MmapInWindow boot ft m file length offset := by
  have inv : WindowInv m := by
    induction reach with
    | init new =>
      obtain ⟨empty,limit⟩ := new
      unfold NoAreas at empty
      refine ⟨fun q member => ?_,fun q member => ?_,limit⟩ <;>
      · rw [empty] at member
        cases member
    | step _ allowed returns ih => exact runCall_window conservative ih allowed returns
  refine ⟨?_,inv.within,?_⟩
  · rw [inv.limit]
    decide
  · intro file length offset allowed
    refine ⟨fun start next returns => doSysMmap_inside conservative inv allowed returns,?_⟩
    intro nonzero none
    exact absurd (allowed.resolve_left nonzero) none

/-- The mapping of 3.5 GiB reaches over the whole stack. -/
theorem mmap_over_stack : Conservative spineTrees.ops ∧
    ∃ m, VmaReach fbBoot spineTrees NewProcess (fun _ _ => True) m ∧
      ¬MmapInWindow fbBoot spineTrees m none 0xE0000000#64 0#64 := by
  refine ⟨spineOps_conservative,vmaStart,.init ⟨vmaStart_empty,rfl⟩,fun ok => ?_⟩
  have evaluated : (doSysMmap fbBoot spineTrees none 0xE0000000#64 0#64 vmaStart).toOption.map
      (fun r => r.1.toOption) = some (some 0x10000000#64) := by decide +kernel
  match result : doSysMmap fbBoot spineTrees none 0xE0000000#64 0#64 vmaStart with
  | .error stop => rw [result] at evaluated; cases evaluated
  | .ok (.error e,next) => rw [result] at evaluated; cases evaluated
  | .ok (.ok start,next) =>
    rw [result] at evaluated
    simp only [Except.toOption,Option.map_some,Option.some.injEq] at evaluated
    obtain ⟨_,high⟩ := ok.inside start next result
    rw [evaluated] at high
    exact absurd high (by decide)

theorem mmap_in_window_once : ∃ m, VmaReach fbBoot spineTrees NewProcess WindowStep m ∧
    m.process.areas.list = [0] ∧ Within m.process.areas m.process.userStackBottomMax.toNat := by
  have evaluated : (runCall fbBoot spineTrees (.mmap none 8192#64 0#64) vmaStart).toOption.map
      (fun m => m.process.areas.list) = some [0] := by decide +kernel
  match result : runCall fbBoot spineTrees (.mmap none 8192#64 0#64) vmaStart with
  | .error stop => rw [result] at evaluated; cases evaluated
  | .ok m =>
    rw [result] at evaluated
    simp only [Except.toOption,Option.map_some,Option.some.injEq] at evaluated
    have room : WindowStep vmaStart (.mmap none 8192#64 0#64) := by
      refine .inr ⟨0x10000000,by decide,by decide,?_⟩
      intro p member
      cases member
    have reach : VmaReach fbBoot spineTrees NewProcess WindowStep m :=
      .step (.init ⟨vmaStart_empty,rfl⟩) room result
    exact ⟨m,reach,evaluated,(mmap_in_window spineOps_conservative reach).2.1⟩

end Reddyos
