import Reddyos.VmaTree

/-! `munmap_region` makes a hole: the addresses it is given are in no area any more, and all others stay
where they were, with the same place in the same file. -/
namespace Reddyos

open OrderedTree

def WithinArea (a : Areas) (addr len : U64) (p : Nat) : Prop :=
  (a.area p).start.toNat ≤ addr.toNat ∧ addr.toNat + len.toNat ≤ (a.area p).stop.toNat

def InSomeArea (a : Areas) (v : U64) : Prop := ∃ p ∈ a.list, InArea a p v

structure SameAt (vma vma' : Area) (v : U64) : Prop where
  type : vma'.type = vma.type
  vmFlags : vma'.vmFlags = vma.vmFlags
  file : vma.type = .file → vma'.file = vma.file
  offset : vma.type = .file → (v - vma'.start) + vma'.pgoff = (v - vma.start) + vma.pgoff

/-- `a'` is `a` with a hole at `[addr,addr + len)`. -/
structure Hole (a : Areas) (addr len : U64) (a' : Areas) : Prop where
  inOrder : InOrder a'
  numbered : Numbered a'
  covered : ∀ v, InSomeArea a' v ↔
    InSomeArea a v ∧ ¬(addr.toNat ≤ v.toNat ∧ v.toNat < addr.toNat + len.toNat)
  kept : ∀ v, ∀ p ∈ a.list, ∀ q ∈ a'.list, InArea a p v → InArea a' q v → SameAt (a.area p) (a'.area q) v

section

variable {ft : Ftrees} {a a' : Areas} {addr len block : U64} {before after : List Nat} {p : Nat}

theorem InOrder.unique (inOrder : InOrder a) (first : p ∈ a.list) (second : q ∈ a.list) (inP : InArea a p v)
    (inQ : InArea a q v) : p = q := by
  obtain ⟨before,after,split⟩ := List.append_of_mem first
  obtain ⟨early,late⟩ := inOrder.member split
  obtain ⟨lowP,highP⟩ := inP
  obtain ⟨lowQ,highQ⟩ := inQ
  rw [split,List.mem_append,List.mem_cons] at second
  rcases second with h | rfl | h
  · have := (early q h).2
    omega
  · rfl
  · have := (late q h).2
    omega

theorem Piece.inArea (piece : Piece (a.area p) addr len (a'.area q)) (within : WithinArea a addr len p)
    (sum : (addr + len).toNat = addr.toNat + len.toNat) (here : InArea a' q v) :
    InArea a p v ∧ ¬(addr.toNat ≤ v.toNat ∧ v.toNat < addr.toNat + len.toNat) := by
  obtain ⟨low,high⟩ := here
  obtain ⟨start,stop⟩ := within
  unfold InArea
  rcases piece.bounds with ⟨first,last,_⟩ | ⟨first,last,_⟩
  · rw [first] at low
    rw [last] at high
    omega
  · rw [first,sum] at low
    rw [last] at high
    omega

theorem Piece.sameAt (piece : Piece vma addr len vma') (v : U64) : SameAt vma vma' v :=
  ⟨piece.source.type,piece.source.vmFlags,piece.source.file,fun file => piece.source.offset file v⟩

theorem Cut.hole (inOrder : InOrder a) (numbered : Numbered a) (split : a.list = before ++ p :: after)
    (sum : (addr + len).toNat = addr.toNat + len.toNat)
    (cut : Cut a p addr len block before after removed a') : Hole a addr len a' := by
  obtain ⟨ordered,given⟩ := inOrder.cut numbered split sum cut
  obtain ⟨pieces,list,same,each,_⟩ := cut.pieces inOrder numbered split
  have within : WithinArea a addr len p := ⟨cut.low,cut.inside⟩
  have mine : p ∈ a.list := by simp [split]
  have outside : ∀ q ∈ before ++ after, q ∈ a.list ∧ ∀ v, InArea a' q v → InArea a q v ∧ ¬InArea a p v := by
    intro q member
    obtain ⟨listed,different,area⟩ := cut.untouched inOrder numbered split q member
    refine ⟨listed,fun v here => ?_⟩
    unfold InArea at here
    rw [area] at here
    exact ⟨here,fun other => different (inOrder.unique listed mine here other)⟩
  have origin : ∀ q ∈ a'.list, q ∈ before ++ after ∨ q ∈ pieces := by
    intro q member
    rw [list,List.mem_append,List.mem_append] at member
    rcases member with early | piece | late
    · exact .inl (List.mem_append_left _ early)
    · exact .inr piece
    · exact .inl (List.mem_append_right _ late)
  refine ⟨ordered,given,fun v => ⟨?_,?_⟩,?_⟩
  · rintro ⟨q,member,here⟩
    rcases origin q member with old | piece
    · obtain ⟨listed,apart⟩ := outside q old
      obtain ⟨inQ,notP⟩ := apart v here
      refine ⟨⟨q,listed,inQ⟩,fun hole => notP ?_⟩
      obtain ⟨start,stop⟩ := within
      unfold InArea
      omega
    · obtain ⟨inP,missed⟩ := (each q piece).inArea within sum here
      exact ⟨⟨p,mine,inP⟩,missed⟩
  · rintro ⟨⟨q,member,here⟩,missed⟩
    exact cut.covers inOrder numbered split sum member here missed
  · intro v q member r member' here here'
    rcases origin r member' with old | piece
    · obtain ⟨listed,apart⟩ := outside r old
      rw [inOrder.unique member listed here (apart v here').1,same r old]
      exact ⟨rfl,rfl,fun _ => rfl,fun _ => rfl⟩
    · rw [inOrder.unique member mine here ((each r piece).inArea within sum here').1]
      exact (each r piece).sameAt v

theorem munmapAreas_isSome (found : vmaFind ft a addr = some p)
    (inside : ¬(addr < (a.area p).start ∨ (a.area p).stop < addr + len)) :
    ∃ removed a', munmapAreas ft addr len block a = some (p,removed,a') := by
  have either : ∀ (c : Prop) [Decidable c] (x y : Areas),
      ∃ removed a', (if c then some (p,true,x) else some (p,false,y)) = some (p,removed,a') := by
    intro c _ x y
    split
    · exact ⟨_,_,rfl⟩
    · exact ⟨_,_,rfl⟩
  unfold munmapAreas
  rw [found]
  dsimp only
  rw [if_neg inside]
  exact either _ _ _

/-- Addresses that are not inside one area are refused. -/
theorem munmapRegion_refuses (lookup : Lookup ft.ops) {m : Machine} (inOrder : InOrder m.process.areas)
    (sum : (addr + len).toNat = addr.toNat + len.toNat)
    (none' : ∀ p ∈ m.process.areas.list, ¬WithinArea m.process.areas addr len p) :
    munmapRegion boot ft addr len m = .ok (.error .einval,m) := by
  have refused : munmapSplits ft addr len m.process.areas = false ∧
      ∀ block, munmapAreas ft addr len block m.process.areas = none := by
    unfold munmapSplits munmapAreas
    cases found : vmaFind ft m.process.areas addr with
    | none => exact ⟨rfl,fun _ => rfl⟩
    | some p =>
      obtain ⟨before,after,split,low,_⟩ := vmaFind_some lookup inOrder found
      have beyond := none' p (by simp [split])
      unfold WithinArea at beyond
      have long : (m.process.areas.area p).stop.toNat < (addr + len).toNat := by omega
      refine ⟨decide_eq_false fun middle => ?_,fun _ => if_pos (.inr (BitVec.lt_def.mpr long))⟩
      have := BitVec.lt_def.mp middle.2
      omega
  unfold munmapRegion tailRecord
  rw [refused.1]
  simp only [Bool.false_eq_true,if_false,pure_bind,refused.2]
  rfl

theorem munmapAreas_hole (lawful : Lawful ft.ops) (inOrder : InOrder a) (numbered : Numbered a)
    (member : p ∈ a.list) (within : WithinArea a addr len p) (positive : 0 < len.toNat)
    (sum : (addr + len).toNat = addr.toNat + len.toNat) :
    ∃ removed a', munmapAreas ft addr len block a = some (p,removed,a') ∧ Hole a addr len a' := by
  obtain ⟨start,stop⟩ := within
  have found := vmaFind_inArea lawful.lookup inOrder member ⟨start,by omega⟩
  have inside : ¬(addr < (a.area p).start ∨ (a.area p).stop < addr + len) := by
    rw [BitVec.lt_def,BitVec.lt_def,sum]
    omega
  obtain ⟨removed,a',returns⟩ := munmapAreas_isSome found inside
  obtain ⟨before,after,split,cut⟩ := munmapAreas_cases lawful inOrder numbered sum returns
  exact ⟨removed,a',returns,cut.hole inOrder numbered split sum⟩

end

/-- `munmap_region` refuses addresses that are not inside one area and changes nothing then; otherwise its
update of the tree leaves a hole there, which is what a call that returns has done. -/
theorem munmap_makes_hole (boot : Boot) {ft : Ftrees} (lawful : Lawful ft.ops) (m : Machine)
    (inOrder : InOrder m.process.areas) (numbered : Numbered m.process.areas) (addr len : U64) (positive : 0#64 < len)
    (top : addr.toNat + len.toNat < 2^64) :
    ((∀ p ∈ m.process.areas.list, ¬WithinArea m.process.areas addr len p) →
      munmapRegion boot ft addr len m = .ok (.error .einval,m)) ∧
    ∀ p ∈ m.process.areas.list, WithinArea m.process.areas addr len p →
      (∀ block, ∃ removed a, munmapAreas ft addr len block m.process.areas = some (p,removed,a) ∧
        Hole m.process.areas addr len a) ∧
      ∀ result next, munmapRegion boot ft addr len m = .ok (result,next) →
        result = .ok 0#64 ∧ Hole m.process.areas addr len next.process.areas := by
  have sum : (addr + len).toNat = addr.toNat + len.toNat := by
    rw [BitVec.toNat_add]
    exact Nat.mod_eq_of_lt top
  refine ⟨munmapRegion_refuses lawful.lookup inOrder sum,fun p member within => ?_⟩
  have holes : ∀ block, ∃ removed a, munmapAreas ft addr len block m.process.areas = some (p,removed,a) ∧
      Hole m.process.areas addr len a := fun block =>
    munmapAreas_hole lawful inOrder numbered member within (BitVec.lt_def.mp positive) sum
  refine ⟨holes,fun result next returns => ?_⟩
  obtain ⟨block,k,_,outcome⟩ := munmapRegion_cases returns
  obtain ⟨removed,a,updated,hole⟩ := holes block
  rcases outcome with ⟨refused,_,_⟩ | ⟨q,b,whole,rfl,rfl⟩ | ⟨q,b,part,rfl,_,rfl⟩
  · rw [updated] at refused
    cases refused
  · rw [updated] at whole
    obtain ⟨_,_,rfl⟩ := whole
    exact ⟨rfl,hole⟩
  · rw [updated] at part
    obtain ⟨_,_,rfl⟩ := part
    exact ⟨rfl,hole⟩

/-- The head, the middle, the tail and all of the first area; the page between the two is refused. -/
theorem munmap_makes_hole_pieces : ∃ m : Machine, m.process.areas = twoAreas ∧
    (∀ piece ∈ [(0x10000000#64,0x1000#64),(0x10000800#64,0x1000#64),(0x10001000#64,0x1000#64),(0x10000000#64,0x2000#64)],
      ∃ removed a, munmapAreas spineTrees piece.1 piece.2 0x5000#64 twoAreas = some (0,removed,a) ∧
        Hole twoAreas piece.1 piece.2 a) ∧
    munmapRegion fbBoot spineTrees 0x10002000#64 0x1000#64 m = .ok (.error .einval,m) := by
  let m : Machine := { vmaStart with process := { vmaStart.process with areas := twoAreas } }
  have numbered : Numbered m.process.areas := by unfold Numbered; decide
  refine ⟨m,rfl,fun piece listed => ?_,?_⟩
  · have inside : WithinArea twoAreas piece.1 piece.2 0 ∧ 0#64 < piece.2 ∧ piece.1.toNat + piece.2.toNat < 2^64 := by
      simp only [List.mem_cons,List.not_mem_nil,or_false] at listed
      rcases listed with rfl | rfl | rfl | rfl
      · exact ⟨⟨by decide,by decide⟩,by decide,by decide⟩
      · exact ⟨⟨by decide,by decide⟩,by decide,by decide⟩
      · exact ⟨⟨by decide,by decide⟩,by decide,by decide⟩
      · exact ⟨⟨by decide,by decide⟩,by decide,by decide⟩
    obtain ⟨within,positive,top⟩ := inside
    obtain ⟨_,holes⟩ := @munmap_makes_hole fbBoot spineTrees spineOps_lawful m twoAreas_inOrder numbered piece.1 piece.2
      positive top
    exact (holes 0 (by decide) within).1 0x5000#64
  · refine (@munmap_makes_hole fbBoot spineTrees spineOps_lawful m twoAreas_inOrder numbered _ _ (by decide)
      (by decide)).1 ?_
    intro p listed within
    revert p
    unfold WithinArea
    decide

end Reddyos
