import Reddyos.VmaPlace

/-! Looking up areas by address: `vma_find` and `vma_overlaps` agree with a search over all areas, and
`vma_find_free_region` finds the first place behind an area where the length fits. -/
namespace Reddyos

open OrderedTree

def InArea (a : Areas) (p : Nat) (v : U64) : Prop :=
  (a.area p).start.toNat ≤ v.toNat ∧ v.toNat < (a.area p).stop.toNat

def Meets (a : Areas) (p : Nat) (start stop : U64) : Prop :=
  ∃ v, InArea a p v ∧ start.toNat ≤ v.toNat ∧ v.toNat < stop.toNat

variable {ft : Ftrees} {a : Areas} {start stop : U64}

theorem meets_iff (nonempty : (a.area p).start.toNat < (a.area p).stop.toNat)
    (range : start.toNat < stop.toNat) : Meets a p start stop ↔
      start.toNat < (a.area p).stop.toNat ∧ (a.area p).start.toNat < stop.toNat := by
  constructor
  · rintro ⟨v,⟨low,high⟩,first,last⟩
    omega
  · rintro ⟨below,above⟩
    rcases Nat.le_total start.toNat (a.area p).start.toNat with early | late
    · exact ⟨(a.area p).start,⟨Nat.le_refl _,nonempty⟩,early,above⟩
    · exact ⟨start,⟨late,below⟩,Nat.le_refl _,range⟩

theorem vmaFind_some (lookup : Lookup ft.ops) (inOrder : InOrder a) (found : vmaFind ft a addr = some p) :
    ∃ before after, a.list = before ++ p :: after ∧ (a.area p).start.toNat ≤ addr.toNat ∧
      addr.toNat < (a.area p).stop.toNat := by
  unfold vmaFind at found
  split at found
  · cases found
  · rename_i q searched
    split at found
    · rename_i inside
      obtain rfl := Option.some.inj found
      obtain ⟨before,after,split,_,_⟩ := lookup.searchLe_some inOrder.sorted searched
      exact ⟨before,after,split,BitVec.le_def.mp inside.1,BitVec.lt_def.mp inside.2⟩
    · cases found

theorem vmaFind_inArea (lookup : Lookup ft.ops) (inOrder : InOrder a) (member : p ∈ a.list)
    (inside : InArea a p addr) : vmaFind ft a addr = some p := by
  obtain ⟨low,high⟩ := inside
  unfold vmaFind
  split
  · rename_i missing
    have := lookup.searchLe_none inOrder.sorted missing p member
    exact absurd low (Nat.not_le.mpr this)
  · rename_i q searched
    obtain ⟨before,after,split,below,later⟩ := lookup.searchLe_some inOrder.sorted searched
    change a.list = _ at split
    have apart := inOrder.apart
    rw [split] at member apart
    obtain ⟨_,_,across⟩ := List.pairwise_append.mp apart
    rcases List.mem_append.mp member with early | here
    · -- areas in front of the nearest one end before it starts
      have := across p early q (by simp)
      change (a.area q).start.toNat ≤ addr.toNat at below
      omega
    · rcases List.mem_cons.mp here with rfl | late
      · exact if_pos ⟨BitVec.le_def.mpr low,BitVec.lt_def.mpr high⟩
      · exact absurd low (Nat.not_le.mpr (later p late))

theorem overlapsFrom_iff (lookup : Lookup ft.ops) (inOrder : InOrder a) (range : start.toNat < stop.toNat)
    (before : List Nat) (split : a.list = before ++ rest) (enough : rest.length < fuel) :
    overlapsFrom ft a start stop fuel rest.head? = true ↔ ∃ p ∈ rest, Meets a p start stop := by
  induction rest generalizing before fuel with
  | nil => cases fuel <;> simp [overlapsFrom]
  | cons p rest ih =>
    obtain ⟨fuel,rfl⟩ := Nat.exists_eq_add_of_lt (Nat.zero_lt_of_lt enough)
    have nonempty : ∀ q ∈ p :: rest, (a.area q).start.toNat < (a.area q).stop.toNat :=
      fun q member => inOrder.nonempty q (by rw [split]; exact List.mem_append_right _ member)
    have apart := inOrder.apart
    rw [split] at apart
    have later := (List.pairwise_cons.mp (List.pairwise_append.mp apart).2.1).1
    have next : ft.ops.successor a.tree p = rest.head? :=
      lookup.successor a.tree p before rest inOrder.nodup split
    have here := meets_iff (nonempty p (by simp)) range
    rw [Nat.zero_add] at enough ⊢
    simp only [List.head?_cons,overlapsFrom,BitVec.le_def,BitVec.lt_def,next]
    split_ifs with above meets
    · -- all that follow start at or above `stop`
      simp only [false_iff]
      rintro ⟨q,member,meets⟩
      have starts := ((meets_iff (nonempty q member) range).mp meets).2
      rcases List.mem_cons.mp member with rfl | late
      · omega
      · have := later q late
        have := nonempty p (by simp)
        omega
    · exact ⟨fun _ => ⟨p,by simp,here.mpr meets⟩,fun _ => rfl⟩
    · rw [ih (before ++ [p]) (by simp [split]) (by simpa using enough)]
      simp only [List.exists_mem_cons_iff,here,meets,false_or]

theorem vmaOverlaps_iff (lookup : Lookup ft.ops) (inOrder : InOrder a) (range : start.toNat < stop.toNat) :
    vmaOverlaps ft a start stop = true ↔ ∃ p ∈ a.list, Meets a p start stop := by
  unfold vmaOverlaps
  dsimp only
  split
  · rw [lookup.minimum]
    exact overlapsFrom_iff lookup inOrder range [] rfl (Nat.lt_succ_self _)
  · rename_i p searched
    obtain ⟨before,after,split,below,_⟩ := lookup.searchLe_some inOrder.sorted searched
    have listed : a.list = before ++ p :: after := split
    have short : (p :: after).length < (inorder a.tree).length + 1 := by
      rw [split,List.length_append]
      omega
    rw [show some p = (p :: after).head? from rfl,overlapsFrom_iff lookup inOrder range before listed short,
      listed]
    constructor
    · rintro ⟨q,member,meets⟩
      exact ⟨q,List.mem_append_right _ member,meets⟩
    · rintro ⟨q,member,meets⟩
      rcases List.mem_append.mp member with early | late
      · have apart := inOrder.apart
        rw [listed] at apart
        have := (List.pairwise_append.mp apart).2.2 q early p (by simp)
        obtain ⟨v,inside,first,_⟩ := meets
        change (a.area p).start.toNat ≤ start.toNat at below
        have := inside.2
        omega
      · exact ⟨q,late,meets⟩

/-- Looking up an address and a range is exact. -/
theorem area_lookup (lookup : Lookup ft.ops) (inOrder : InOrder a) :
    (∀ addr p, vmaFind ft a addr = some p ↔ p ∈ a.list ∧ InArea a p addr) ∧
    ∀ start stop : U64, start < stop →
      (vmaOverlaps ft a start stop = true ↔ ∃ p ∈ a.list, Meets a p start stop) := by
  refine ⟨?_,fun start stop range => vmaOverlaps_iff lookup inOrder (BitVec.lt_def.mp range)⟩
  intro addr p
  constructor
  · intro found
    obtain ⟨before,after,split,inside⟩ := vmaFind_some lookup inOrder found
    exact ⟨by simp [split],inside⟩
  · exact fun ⟨member,inside⟩ => vmaFind_inArea lookup inOrder member inside

def spineTrees : Ftrees := ⟨spineOps,32#64⟩

def twoAreas : Areas where
  area p := if p = 0 then { Area.zero with start := 0x10000000#64, stop := 0x10002000#64 }
    else { Area.zero with start := 0x10003000#64, stop := 0x10005000#64 }
  tree := .node (.node .nil 0 .nil) 1 .nil
  fresh := 2

theorem twoAreas_inOrder : InOrder twoAreas := ⟨by decide,by decide⟩

theorem area_lookup_two : Lookup spineTrees.ops ∧ InOrder twoAreas ∧
    (∀ addr p, vmaFind spineTrees twoAreas addr = some p ↔ p ∈ twoAreas.list ∧ InArea twoAreas p addr) ∧
    ∀ start stop : U64, start < stop →
      (vmaOverlaps spineTrees twoAreas start stop = true ↔ ∃ p ∈ twoAreas.list, Meets twoAreas p start stop) :=
  ⟨spineOps_lawful.lookup,twoAreas_inOrder,area_lookup spineOps_lawful.lookup twoAreas_inOrder⟩

/-- `VMA_BASE` or the end of an area, with `[x,x + length)` in no area. -/
structure Room (a : Areas) (length x : U64) : Prop where
  candidate : x = vmaBase ∨ ∃ p ∈ a.list, (a.area p).stop = x
  apart : ∀ p ∈ a.list, ¬Meets a p x (x + length)

theorem endOf_candidate (a : Areas) (lastEnd : U64) (l : List Nat) :
    endOf a lastEnd l = lastEnd ∨ ∃ p ∈ l, (a.area p).stop = endOf a lastEnd l := by
  induction l generalizing lastEnd with
  | nil => exact .inl rfl
  | cons p l ih =>
    right
    rcases ih (a.area p).stop with same | ⟨q,member,same⟩
    · exact ⟨p,by simp,same.symm⟩
    · exact ⟨q,by simp [member],same⟩

/-- The place in front of a gap that fits, or behind all areas, has room. -/
theorem Behind.room (behind : Behind a vmaBase (before ++ rest)) (split : a.list = before ++ rest)
    (fits : ∀ p ∈ rest.head?, Fits a vmaBase length before p)
    (sum : (endOf a vmaBase before + length).toNat = (endOf a vmaBase before).toNat + length.toNat) :
    Room a length (endOf a vmaBase before) := by
  constructor
  · rw [split]
    exact (endOf_candidate a vmaBase before).imp_right fun ⟨p,member,same⟩ => ⟨p,by simp [member],same⟩
  · rintro p member ⟨v,⟨low,high⟩,first,last⟩
    rw [sum] at last
    rw [split] at member
    rcases List.mem_append.mp member with early | late
    · have := behind.left.stop_le early
      omega
    · cases rest with
      | nil => cases late
      | cons q after =>
        have fits := fits q rfl
        unfold Fits at fits
        rcases List.mem_cons.mp late with rfl | later
        · omega
        · have := behind.right.tail.after p later
          have := behind.nonempty q (by simp)
          omega

/-- The areas leave `length` bytes behind the last of them. -/
theorem Behind.sum_eq (behind : Behind a vmaBase (before ++ rest))
    (top : (endOf a vmaBase (before ++ rest)).toNat + length.toNat < 2^64) :
    (endOf a vmaBase before + length).toNat = (endOf a vmaBase before).toNat + length.toNat := by
  have last := behind.right.end_ge
  rw [← endOf_append] at last
  rw [BitVec.toNat_add]
  exact Nat.mod_eq_of_lt (by omega)

/-- No place below the end of the scan has room. -/
theorem Room.scan_le (inOrder : InOrder a) (room : Room a length x) (positive : 0 < length.toNat)
    (low : ∀ p ∈ a.list, vmaBase.toNat ≤ (a.area p).start.toNat) (sum : (x + length).toNat = x.toNat + length.toNat) :
    (scan a length a.tree (vmaBase,0#64)).1.toNat ≤ x.toNat := by
  refine (Reddyos.scan_le a.tree (Nat.le_refl _) ?_ ?_ (Nat.zero_le _)).1
  · intro p member
    have apart := room.apart p member
    rw [meets_iff (inOrder.nonempty p member) (by omega),sum] at apart
    omega
  · rcases room.candidate with rfl | ⟨p,member,rfl⟩
    · exact Nat.le_refl _
    · have := low p member
      have := inOrder.nonempty p member
      omega

/-- First fit: the smallest place with room is found, and it is not 0. -/
theorem first_fit (lookup : Lookup ft.ops) (inOrder : InOrder a)
    (low : ∀ p ∈ a.list, vmaBase ≤ (a.area p).start) (positive : 0#64 < length)
    (top : (endOf a vmaBase a.list).toNat + length.toNat < 2^64) :
    Room a length (vmaFindFreeRegion ft a length) ∧
      (∀ x, Room a length x → vmaFindFreeRegion ft a length ≤ x) ∧ vmaFindFreeRegion ft a length ≠ 0#64 := by
  have behind := inOrder.behind fun p member => BitVec.le_def.mp (low p member)
  obtain ⟨before,rest,split,fits,ended,result⟩ := scan_end length behind
  change a.list = _ at split
  rw [show inorder a.tree = before ++ rest from split] at behind
  rw [split] at top
  have sum := behind.sum_eq top
  have room := behind.room split fits sum
  have length_pos : 0 < length.toNat := BitVec.lt_def.mp positive
  have missed : ¬vmaOverlaps ft a (endOf a vmaBase before) (endOf a vmaBase before + length) = true := by
    rw [vmaOverlaps_iff lookup inOrder (by omega)]
    rintro ⟨p,member,meets⟩
    exact room.apart p member meets
  have found : vmaFindFreeRegion ft a length = endOf a vmaBase before := by
    unfold vmaFindFreeRegion
    dsimp only
    rw [ended,if_neg missed,← ended]
    rw [ended] at result ⊢
    exact result
  rw [found]
  refine ⟨room,?_,?_⟩
  · intro x candidate
    rw [BitVec.le_def,← ended]
    refine candidate.scan_le inOrder length_pos (fun p member => BitVec.le_def.mp (low p member)) ?_
    rw [BitVec.toNat_add]
    refine Nat.mod_eq_of_lt ?_
    rcases candidate.candidate with rfl | ⟨p,member,rfl⟩
    · have := behind.end_ge
      omega
    · rw [split] at member
      have := behind.stop_le member
      omega
  · intro zero
    have base := behind.left.end_base
    rw [zero] at base
    exact absurd base (by decide)

theorem first_fit_two : ∃ x, x = 0x10002000#64 ∧ vmaFindFreeRegion spineTrees twoAreas 0x1000#64 = x ∧
    Room twoAreas 0x1000#64 x ∧ (∀ y, Room twoAreas 0x1000#64 y → x ≤ y) ∧ x ≠ 0#64 :=
  ⟨_,by decide,rfl,first_fit spineOps_lawful.lookup twoAreas_inOrder (by decide) (by decide) (by decide)⟩

end Reddyos
