import Reddyos.PageFault

/-! The invariant of the area tree and the place where `mmap` puts an area. Sums are taken
without wrap-around where the statements speak of numbers. -/
namespace Reddyos

open OrderedTree

def Areas.list (a : Areas) : List Nat := inorder a.tree

structure AreaOk (vma : Area) : Prop where
  low : vmaBase.toNat ≤ vma.start.toNat
  nonempty : vma.start.toNat < vma.stop.toNat
  start : Aligned vma.start
  stop : Aligned vma.stop

structure VmaInv (a : Areas) : Prop where
  ok : ∀ p ∈ a.list, AreaOk (a.area p)
  apart : a.list.Pairwise fun p q => (a.area p).stop.toNat ≤ (a.area q).start.toNat
  fresh : ∀ p ∈ a.list, p < a.fresh

/-- Areas in order, apart and not empty, whatever their bounds. -/
structure InOrder (a : Areas) : Prop where
  nonempty : ∀ p ∈ a.list, (a.area p).start.toNat < (a.area p).stop.toNat
  apart : a.list.Pairwise fun p q => (a.area p).stop.toNat ≤ (a.area q).start.toNat

def Numbered (a : Areas) : Prop := ∀ p ∈ a.list, p < a.fresh

theorem VmaInv.inOrder (inv : VmaInv a) : InOrder a := ⟨fun p member => (inv.ok p member).nonempty,inv.apart⟩

theorem InOrder.sorted (inOrder : InOrder a) : Sorted a.key (inorder a.tree) := by
  refine List.Pairwise.imp_of_mem ?_ inOrder.apart
  intro p q first _ before
  exact Nat.lt_of_lt_of_le (inOrder.nonempty p first) before

theorem InOrder.nodup (inOrder : InOrder a) : a.list.Nodup := inOrder.sorted.nodup

theorem VmaInv.sorted (inv : VmaInv a) : Sorted a.key (inorder a.tree) := inv.inOrder.sorted

def endOf (a : Areas) (lastEnd : U64) (l : List Nat) : U64 :=
  l.foldl (fun _ p => (a.area p).stop) lastEnd

theorem endOf_append (a : Areas) (lastEnd : U64) (l m : List Nat) :
    endOf a lastEnd (l ++ m) = endOf a (endOf a lastEnd l) m := List.foldl_append

structure Behind (a : Areas) (lastEnd : U64) (l : List Nat) : Prop where
  nonempty : ∀ p ∈ l, (a.area p).start.toNat < (a.area p).stop.toNat
  apart : l.Pairwise fun p q => (a.area p).stop.toNat ≤ (a.area q).start.toNat
  after : ∀ p ∈ l, lastEnd.toNat ≤ (a.area p).start.toNat
  base : vmaBase.toNat ≤ lastEnd.toNat

theorem Behind.left (behind : Behind a lastEnd (l ++ m)) : Behind a lastEnd l where
  nonempty := fun p member => behind.nonempty p (by simp [member])
  apart := (List.pairwise_append.mp behind.apart).1
  after := fun p member => behind.after p (by simp [member])
  base := behind.base

theorem Behind.tail (behind : Behind a lastEnd (p :: l)) : Behind a (a.area p).stop l where
  nonempty := fun q member => behind.nonempty q (by simp [member])
  apart := (List.pairwise_cons.mp behind.apart).2
  after := (List.pairwise_cons.mp behind.apart).1
  base := by
    have := behind.base
    have := behind.after p (by simp)
    have := behind.nonempty p (by simp)
    omega

theorem Behind.end_le (behind : Behind a lastEnd (l ++ p :: m)) :
    (endOf a lastEnd l).toNat ≤ (a.area p).start.toNat := by
  induction l generalizing lastEnd with
  | nil => exact behind.after p (by simp)
  | cons q l ih => exact ih behind.tail

theorem Behind.end_base (behind : Behind a lastEnd l) :
    vmaBase.toNat ≤ (endOf a lastEnd l).toNat := by
  induction l generalizing lastEnd with
  | nil => exact behind.base
  | cons q l ih => exact ih behind.tail

theorem Behind.right (behind : Behind a lastEnd (l ++ m)) : Behind a (endOf a lastEnd l) m := by
  induction l generalizing lastEnd with
  | nil => exact behind
  | cons q l ih => exact ih behind.tail

theorem Behind.end_ge (behind : Behind a lastEnd l) : lastEnd.toNat ≤ (endOf a lastEnd l).toNat := by
  induction l generalizing lastEnd with
  | nil => exact Nat.le_refl _
  | cons p l ih =>
    have := behind.after p (by simp)
    have := behind.nonempty p (by simp)
    have := ih behind.tail
    change _ ≤ (endOf a (a.area p).stop l).toNat
    omega

theorem Behind.stop_le (behind : Behind a lastEnd l) (member : p ∈ l) :
    (a.area p).stop.toNat ≤ (endOf a lastEnd l).toNat := by
  induction l generalizing lastEnd with
  | nil => cases member
  | cons q l ih =>
    rcases List.mem_cons.mp member with rfl | later
    · exact behind.tail.end_ge
    · exact ih behind.tail later

def Fits (a : Areas) (lastEnd length : U64) (before : List Nat) (p : Nat) : Prop :=
  length.toNat + (endOf a lastEnd before).toNat ≤ (a.area p).start.toNat

theorem gap_iff {start lastEnd : U64} (length : U64) (order : lastEnd.toNat ≤ start.toNat) :
    length ≤ start - lastEnd ↔ length.toNat + lastEnd.toNat ≤ start.toNat := by
  rw [BitVec.le_def,BitVec.toNat_sub_of_le (BitVec.le_def.mpr order)]
  omega

/-- The scan ends at a gap that fits or, when it finds none, behind the last area. -/
theorem scan_spec (t : OrderedTree.Tree Nat) (length : U64) (behind : Behind a lastEnd (inorder t)) :
    scan a length t (lastEnd,0#64) = (endOf a lastEnd (inorder t),0#64) ∨
    ∃ before p after, inorder t = before ++ p :: after ∧ Fits a lastEnd length before p ∧
      scan a length t (lastEnd,0#64) = (endOf a lastEnd before,endOf a lastEnd before) := by
  induction t generalizing lastEnd with
  | nil => exact .inl rfl
  | node left p right leftIh rightIh =>
    rw [inorder] at behind ⊢
    have order := behind.end_le
    have here := gap_iff length order
    rw [scan,if_neg (by simp)]
    rcases leftIh behind.left with ended | ⟨before,q,after,split,fits,found⟩
    · simp only [ended]
      by_cases fits : Fits a lastEnd length (inorder left) p
      · rw [if_pos (here.mpr fits)]
        exact .inr ⟨inorder left,p,inorder right,rfl,fits,rfl⟩
      · rw [if_neg (fun h => fits (here.mp h))]
        have beyond : Behind a (a.area p).stop (inorder right) := behind.right.tail
        have shift : ∀ middle, endOf a lastEnd (inorder left ++ p :: middle) =
            endOf a (a.area p).stop middle := fun middle => endOf_append a lastEnd _ _
        rcases rightIh beyond with ended | ⟨before,q,after,split,fits',found⟩
        · exact .inl (by rw [ended,shift])
        · right
          refine ⟨inorder left ++ p :: before,q,after,by simp [split],?_,by rw [found,shift]⟩
          unfold Fits
          rw [shift]
          exact fits'
    · -- the gap found on the left also lies in front of `p`
      right
      refine ⟨before,q,after ++ p :: inorder right,by simp [split],fits,?_⟩
      simp only [found]
      rw [if_pos]
      have later : (a.area q).stop.toNat ≤ (a.area p).start.toNat :=
        (List.pairwise_append.mp behind.apart).2.2 q (by simp [split]) p (by simp)
      have nonempty := behind.nonempty q (by simp [split])
      unfold Fits at fits
      exact (gap_iff length (by omega)).mpr (by omega)

/-- Whatever the tree, the scan stays below every place that is free. -/
theorem scan_le (t : OrderedTree.Tree Nat) {lastEnd result length : U64} (enough : length.toNat ≤ len)
    (free : ∀ p ∈ inorder t, x + len ≤ (a.area p).start.toNat ∨ (a.area p).stop.toNat ≤ x)
    (before : lastEnd.toNat ≤ x) (found : result.toNat ≤ x) :
    (scan a length t (lastEnd,result)).1.toNat ≤ x ∧ (scan a length t (lastEnd,result)).2.toNat ≤ x := by
  induction t generalizing lastEnd result with
  | nil => exact ⟨before,found⟩
  | node left p right leftIh rightIh =>
    simp only [inorder,List.mem_append,List.mem_cons] at free
    rw [scan]
    split
    · exact ⟨before,found⟩
    obtain ⟨low,known⟩ := leftIh (fun q member => free q (.inl member)) before found
    dsimp only
    split
    · exact ⟨low,low⟩
    · rename_i tight
      refine rightIh (fun q member => free q (.inr (.inr member))) ?_ known
      rcases free p (.inr (.inl rfl)) with above | below
      · exact absurd ((gap_iff length (by omega)).mpr (by omega)) tight
      · exact below

/-- `[x,x + len)` lies above `VMA_BASE`, below the end of the address space, and in no area. -/
def FreeAt (a : Areas) (x len : Nat) : Prop :=
  vmaBase.toNat ≤ x ∧ x + len < 2^64 ∧
    ∀ p ∈ a.list, x + len ≤ (a.area p).start.toNat ∨ (a.area p).stop.toNat ≤ x

theorem endOf_aligned (stops : ∀ p ∈ l, Aligned (a.area p).stop) (aligned : Aligned lastEnd) :
    Aligned (endOf a lastEnd l) := by
  induction l generalizing lastEnd with
  | nil => exact aligned
  | cons p l ih => exact ih (fun q member => stops q (by simp [member])) (stops p (by simp))

theorem toNat_roundUp (nonzero : alignUp length ≠ 0#64) :
    length.toNat + 4095 < 2^64 ∧ (alignUp length).toNat = (length.toNat + 4095) / 4096 * 4096 := by
  have fits : length.toNat + 4095 < 2^64 := by
    by_contra wraps
    apply nonzero
    apply BitVec.eq_of_toNat_eq
    have masked := Words.toNat_and_not_low (length + 0xFFF#64) 12
    have sum : (length + 0xFFF#64).toNat = (length.toNat + 4095) % 2^64 := BitVec.toNat_add ..
    have bound := length.isLt
    change (alignUp length).toNat = _ at masked
    rw [masked,sum]
    simp only [BitVec.toNat_ofNat]
    omega
  exact ⟨fits,toNat_alignUp length fits⟩

theorem InOrder.behind (inOrder : InOrder a) (low : ∀ p ∈ a.list, vmaBase.toNat ≤ (a.area p).start.toNat) :
    Behind a vmaBase (inorder a.tree) := ⟨inOrder.nonempty,inOrder.apart,low,Nat.le_refl _⟩

theorem VmaInv.behind (inv : VmaInv a) : Behind a vmaBase (inorder a.tree) :=
  inv.inOrder.behind fun p member => (inv.ok p member).low

/-- Where the scan ends, in front of a gap that fits or behind all areas; the result that it passes on is
the same place, or 0. -/
theorem scan_end (length : U64) (behind : Behind a vmaBase (inorder a.tree)) :
    ∃ before rest, inorder a.tree = before ++ rest ∧ (∀ p ∈ rest.head?, Fits a vmaBase length before p) ∧
      (scan a length a.tree (vmaBase,0#64)).1 = endOf a vmaBase before ∧
      (if (scan a length a.tree (vmaBase,0#64)).2 ≠ 0#64 then (scan a length a.tree (vmaBase,0#64)).2
        else (scan a length a.tree (vmaBase,0#64)).1) = endOf a vmaBase before := by
  rcases scan_spec a.tree length behind with ended | ⟨before,p,after,split,fits,gap⟩
  · rw [ended]
    exact ⟨inorder a.tree,[],by simp,by simp,rfl,if_neg (by simp)⟩
  · refine ⟨before,p :: after,split,by simpa using fits,by rw [gap],?_⟩
    rw [gap]
    rw [split] at behind
    have base := behind.left.end_base
    have nonzero : endOf a vmaBase before ≠ 0#64 := by
      intro zero
      rw [zero] at base
      exact absurd base (by decide)
    exact if_pos nonzero

/-- What `vma_find_free_region` returns when it returns a place: the end of the areas in
front of a gap that fits, or of all areas. -/
theorem vmaFindFreeRegion_end (ft : Ftrees) (inv : VmaInv a) (found : vmaFindFreeRegion ft a length ≠ 0#64) :
    ∃ before rest, inorder a.tree = before ++ rest ∧ (∀ p ∈ rest.head?, Fits a vmaBase length before p) ∧
      vmaFindFreeRegion ft a length = endOf a vmaBase before := by
  obtain ⟨before,rest,split,fits,_,result⟩ := scan_end length inv.behind
  refine ⟨before,rest,split,fits,?_⟩
  unfold vmaFindFreeRegion at found ⊢
  dsimp only at found ⊢
  by_cases overlaps : vmaOverlaps ft a (scan a length a.tree (vmaBase,0#64)).1
      ((scan a length a.tree (vmaBase,0#64)).1 + length)
  · rw [if_pos overlaps] at found
    exact absurd rfl found
  · rw [if_neg overlaps]
    exact result

theorem vmaBase_aligned : Aligned vmaBase := by simp [Aligned,vmaBase]

/-- The place returned is free for the rounded length when that length does not wrap. -/
theorem vmaFindFreeRegion_free (ft : Ftrees) (inv : VmaInv a) (nonzero : alignUp length ≠ 0#64)
    (found : vmaFindFreeRegion ft a length ≠ 0#64)
    (top : (vmaFindFreeRegion ft a length).toNat + (alignUp length).toNat < 2^64) :
    FreeAt a (vmaFindFreeRegion ft a length).toNat (alignUp length).toNat ∧
      Aligned (vmaFindFreeRegion ft a length) := by
  obtain ⟨_,rounded⟩ := toNat_roundUp nonzero
  have behind := inv.behind
  obtain ⟨before,rest,split,fits,same⟩ := vmaFindFreeRegion_end ft inv found
  rw [same] at top ⊢
  rw [split] at behind
  have ok : ∀ p ∈ before ++ rest, AreaOk (a.area p) := split ▸ inv.ok
  have stops : ∀ p ∈ before, Aligned (a.area p).stop := fun p member => (ok p (by simp [member])).stop
  have aligned := endOf_aligned stops vmaBase_aligned
  refine ⟨⟨behind.left.end_base,top,?_⟩,aligned⟩
  intro q member
  have here : q ∈ before ++ rest := split ▸ member
  rcases List.mem_append.mp here with early | late
  · exact .inr (behind.left.stop_le early)
  · left
    cases rest with
    | nil => cases late
    | cons p after =>
      -- the gap fits in whole pages
      have area := ok p (by simp)
      have start := area.start
      have fits := fits p rfl
      unfold Fits at fits
      unfold Aligned at start aligned
      rcases List.mem_cons.mp late with rfl | later
      · omega
      · have := behind.right.tail.after q later
        have := area.nonempty
        omega

/-- Whatever the tree, no place is free below the one returned. -/
theorem vmaFindFreeRegion_le (ft : Ftrees) (a : Areas) (nonzero : alignUp length ≠ 0#64)
    (base : vmaBase.toNat ≤ x) (free : ∀ p ∈ a.list, x + (alignUp length).toNat ≤ (a.area p).start.toNat ∨
      (a.area p).stop.toNat ≤ x) :
    (vmaFindFreeRegion ft a length).toNat ≤ x := by
  obtain ⟨_,rounded⟩ := toNat_roundUp nonzero
  have zero : (0#64).toNat ≤ x := Nat.zero_le x
  obtain ⟨high,gap⟩ := scan_le a.tree (show length.toNat ≤ (alignUp length).toNat by omega) free base zero
  unfold vmaFindFreeRegion
  dsimp only
  split
  · exact zero
  split
  · exact gap
  · exact high

/-- If some place is free for the rounded length, the one returned does not wrap. -/
theorem vmaFindFreeRegion_top (ft : Ftrees) (nonzero : alignUp length ≠ 0#64)
    (room : ∃ x, FreeAt a x (alignUp length).toNat) :
    (vmaFindFreeRegion ft a length).toNat + (alignUp length).toNat < 2^64 := by
  obtain ⟨x,base,top,free⟩ := room
  have lowest := vmaFindFreeRegion_le ft a nonzero base free
  omega

end Reddyos
