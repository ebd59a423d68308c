import Mathlib.Data.List.Nodup
import Mathlib.Order.Lattice

/-! Binary trees whose nodes are ordered by a key that lives outside the tree, and what an
implementation of an ordered map has to do to the in-order sequence of such a tree. -/
namespace OrderedTree

inductive Tree (α : Type) where
  | nil
  | node (left : Tree α) (value : α) (right : Tree α)

variable {α K : Type}

def inorder : Tree α → List α
  | .nil => []
  | .node left value right => inorder left ++ value :: inorder right

/-- The operations. Removal is by node and looks at no key. -/
structure Ops (α K : Type) where
  insert : (α → K) → Tree α → α → Tree α
  remove : Tree α → α → Tree α
  searchLe : (α → K) → Tree α → K → Option α
  minimum : Tree α → Option α
  successor : Tree α → α → Option α

variable [LinearOrder K]

def Sorted (key : α → K) (l : List α) : Prop := l.Pairwise fun x y => key x < key y

structure Lawful [DecidableEq α] (ops : Ops α K) : Prop where
  insert : ∀ key t x, Sorted key (inorder t) → (∀ y ∈ inorder t, key y ≠ key x) →
    inorder (ops.insert key t x) =
      (inorder t).filter (fun y => key y < key x) ++ x :: (inorder t).filter (fun y => key x < key y)
  remove : ∀ t x, (inorder t).Nodup → inorder (ops.remove t x) = (inorder t).erase x
  searchLe : ∀ key t k, Sorted key (inorder t) →
    ops.searchLe key t k = ((inorder t).filter (fun y => key y ≤ k)).getLast?
  minimum : ∀ t, ops.minimum t = (inorder t).head?
  successor : ∀ t x before after, (inorder t).Nodup → inorder t = before ++ x :: after →
    ops.successor t x = after.head?

/-- The part of the laws that looking up rests on. -/
structure Lookup [DecidableEq α] (ops : Ops α K) : Prop where
  searchLe : ∀ key t k, Sorted key (inorder t) →
    ops.searchLe key t k = ((inorder t).filter (fun y => key y ≤ k)).getLast?
  minimum : ∀ t, ops.minimum t = (inorder t).head?
  successor : ∀ t x before after, (inorder t).Nodup → inorder t = before ++ x :: after →
    ops.successor t x = after.head?

/-- What holds on any tree, ordered or not: no node appears from nowhere. -/
structure Conservative (ops : Ops α K) : Prop where
  insert : ∀ key t x y, y ∈ inorder (ops.insert key t x) → y = x ∨ y ∈ inorder t
  remove : ∀ t x y, y ∈ inorder (ops.remove t x) → y ∈ inorder t
  searchLe : ∀ key t k y, ops.searchLe key t k = some y → y ∈ inorder t

theorem Sorted.nodup {key : α → K} {l : List α} (sorted : Sorted key l) : l.Nodup :=
  List.Pairwise.imp (fun less => ne_of_apply_ne key (ne_of_lt less)) sorted

/-- In a sorted sequence the keys split around each element. -/
theorem Sorted.split {key : α → K} (sorted : Sorted key (before ++ x :: after)) :
    (∀ y ∈ before, key y < key x) ∧ (∀ y ∈ after, key x < key y) := by
  obtain ⟨_,tail,across⟩ := List.pairwise_append.mp sorted
  exact ⟨fun y member => across y member x (by simp),(List.pairwise_cons.mp tail).1⟩

section

variable [DecidableEq α] {ops : Ops α K} {key : α → K} {t : Tree α}

theorem Lawful.lookup (lawful : Lawful ops) : Lookup ops :=
  ⟨lawful.searchLe,lawful.minimum,lawful.successor⟩

/-- The node found is the last one not above the argument. -/
theorem Lookup.searchLe_some (lookup : Lookup ops) (sorted : Sorted key (inorder t))
    (found : ops.searchLe key t k = some x) :
    ∃ before after, inorder t = before ++ x :: after ∧ key x ≤ k ∧ ∀ y ∈ after, k < key y := by
  rw [lookup.searchLe key t k sorted] at found
  have listed := List.mem_of_getLast? found
  obtain ⟨member,below⟩ := List.mem_filter.mp listed
  obtain ⟨before,after,split⟩ := List.append_of_mem member
  refine ⟨before,after,split,by simpa using below,?_⟩
  intro y later
  by_contra above
  rw [not_lt] at above
  rw [split] at found sorted
  have nodup := sorted.nodup
  -- otherwise `x` would not be the last of the filtered sequence
  rcases (after.filter fun y => key y ≤ k).eq_nil_or_concat with empty | ⟨rest,z,concat⟩
  · have := List.filter_eq_nil_iff.mp empty y later
    simp [above] at this
  · rw [List.concat_eq_append] at concat
    have inFilter : z ∈ after.filter fun y => key y ≤ k := by simp [concat]
    have inAfter := (List.mem_filter.mp inFilter).1
    rw [List.filter_append,List.filter_cons,if_pos below,concat,← List.cons_append,← List.append_assoc,
      List.getLast?_concat] at found
    rw [Option.some.inj found] at inAfter
    exact (List.nodup_cons.mp (List.nodup_append.mp nodup).2.1).1 inAfter

theorem Lookup.searchLe_none (lookup : Lookup ops) (sorted : Sorted key (inorder t))
    (missing : ops.searchLe key t k = none) : ∀ y ∈ inorder t, k < key y := by
  rw [lookup.searchLe key t k sorted,List.getLast?_eq_none_iff,List.filter_eq_nil_iff] at missing
  intro y member
  simpa using missing y member

theorem Lawful.mem_insert (lawful : Lawful ops) (sorted : Sorted key (inorder t))
    (different : ∀ y ∈ inorder t, key y ≠ key new) :
    x ∈ inorder (ops.insert key t new) ↔ x = new ∨ x ∈ inorder t := by
  rw [lawful.insert key t new sorted different]
  simp only [List.mem_append,List.mem_filter,List.mem_cons,decide_eq_true_eq]
  constructor
  · tauto
  · rintro (rfl | member)
    · exact .inr (.inl rfl)
    · rcases lt_or_gt_of_ne (different x member) with less | more
      · exact .inl ⟨member,less⟩
      · exact .inr (.inr ⟨member,more⟩)

/-- A relation along the tree is kept when the new node has it with every other, on its side, and passes it on. -/
theorem Lawful.pairwise_insert {R : α → α → Prop} (lawful : Lawful ops) (sorted : Sorted key (inorder t))
    (different : ∀ y ∈ inorder t, key y ≠ key new) (kept : (inorder t).Pairwise R)
    (below : ∀ y ∈ inorder t, key y < key new → R y new) (above : ∀ y ∈ inorder t, key new < key y → R new y)
    (through : ∀ y ∈ inorder t, ∀ z ∈ inorder t, R y new → R new z → R y z) :
    (inorder (ops.insert key t new)).Pairwise R := by
  rw [lawful.insert key t new sorted different]
  refine List.pairwise_append.mpr ⟨kept.filter _,List.pairwise_cons.mpr ⟨?_,kept.filter _⟩,?_⟩
  · intro y late
    obtain ⟨member,more⟩ := List.mem_filter.mp late
    exact above y member (of_decide_eq_true more)
  · intro y early z late
    obtain ⟨first,less⟩ := List.mem_filter.mp early
    have start := below y first (of_decide_eq_true less)
    rcases List.mem_cons.mp late with rfl | late
    · exact start
    · obtain ⟨second,more⟩ := List.mem_filter.mp late
      exact through y first z second start (above z second (of_decide_eq_true more))

theorem Lawful.insert_after (lawful : Lawful ops) (split : inorder t = before ++ x :: after)
    (sorted : Sorted key (inorder t)) (above : key x < key new) (below : ∀ y ∈ after, key new < key y) :
    inorder (ops.insert key t new) = before ++ x :: new :: after := by
  have order := sorted
  rw [split] at order
  obtain ⟨lower,_⟩ := order.split
  have low : ∀ y ∈ before, key y < key new := fun y member => lt_trans (lower y member) above
  rw [lawful.insert key t new sorted,split]
  · rw [List.filter_append,List.filter_append,List.filter_cons_of_pos (by simpa using above),
      List.filter_cons_of_neg (by simpa using le_of_lt above),
      List.filter_eq_self.mpr (by simpa using low),
      List.filter_eq_nil_iff.mpr (by simpa using fun y member => le_of_lt (below y member)),
      List.filter_eq_nil_iff.mpr (by simpa using fun y member => le_of_lt (low y member)),
      List.filter_eq_self.mpr (by simpa using below)]
    simp
  · intro y member same
    rw [split] at member
    simp only [List.mem_append,List.mem_cons] at member
    rcases member with early | rfl | late
    · exact absurd (low y early) (same ▸ lt_irrefl _)
    · exact absurd above (same ▸ lt_irrefl _)
    · exact absurd (below y late) (same ▸ lt_irrefl _)

theorem Lawful.remove_at (lawful : Lawful ops) (split : inorder t = before ++ x :: after)
    (nodup : (inorder t).Nodup) : inorder (ops.remove t x) = before ++ after := by
  rw [lawful.remove t x nodup,split]
  rw [split] at nodup
  have early : x ∉ before := fun member =>
    (List.nodup_append.mp nodup).2.2 x member x (by simp) rfl
  rw [List.erase_append_right _ early,List.erase_cons_head]

end

def spine : List α → Tree α
  | [] => .nil
  | x :: rest => .node .nil x (spine rest)

@[simp] theorem inorder_spine (l : List α) : inorder (spine l) = l := by
  induction l with
  | nil => rfl
  | cons x rest ih => simp [spine,inorder,ih]

def listNext [DecidableEq α] (x : α) : List α → Option α
  | [] => none
  | y :: rest => if y = x then rest.head? else listNext x rest

theorem listNext_split [DecidableEq α] {x : α} (nodup : (before ++ x :: after).Nodup) :
    listNext x (before ++ x :: after) = after.head? := by
  induction before with
  | nil => simp [listNext]
  | cons y rest ih =>
    obtain ⟨different,tail⟩ := List.nodup_cons.mp nodup
    have other : y ≠ x := fun same => different (by simp [same])
    simp only [List.cons_append,listNext,if_neg other]
    exact ih tail

def spineOps [DecidableEq α] : Ops α K where
  insert key t x := spine ((inorder t).filter (fun y => key y < key x) ++
    x :: (inorder t).filter (fun y => key x < key y))
  remove t x := spine ((inorder t).erase x)
  searchLe key t k := ((inorder t).filter (fun y => key y ≤ k)).getLast?
  minimum t := (inorder t).head?
  successor t x := listNext x (inorder t)

theorem spineOps_lawful [DecidableEq α] : Lawful (spineOps : Ops α K) where
  insert := fun _ _ _ _ _ => inorder_spine _
  remove := fun _ _ _ => inorder_spine _
  searchLe := fun _ _ _ _ => rfl
  minimum := fun _ => rfl
  successor := by
    intro t x before after nodup split
    rw [split] at nodup
    change listNext x (inorder t) = _
    rw [split]
    exact listNext_split nodup

theorem spineOps_conservative [DecidableEq α] : Conservative (spineOps : Ops α K) where
  insert := by
    intro key t x y member
    simp only [spineOps,inorder_spine,List.mem_append,List.mem_cons,List.mem_filter] at member
    rcases member with ⟨old,_⟩ | new | ⟨old,_⟩
    · exact .inr old
    · exact .inl new
    · exact .inr old
  remove := by
    intro t x y member
    simp only [spineOps,inorder_spine] at member
    exact List.mem_of_mem_erase member
  searchLe := fun key t k y found => (List.mem_filter.mp (List.mem_of_getLast? found)).1

end OrderedTree
