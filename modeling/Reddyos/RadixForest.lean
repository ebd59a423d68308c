import Mathlib.Data.List.Induction

/-! Forests of radix tables. `child f i` is the table behind slot `i` of table `f`,
and a table is found by walking a path of slots from a root. `adm root path` selects
the walks that count; two of them never end in the same table. -/
namespace RadixForest

variable {F ι : Type}

def walk (child : F → ι → Option F) : F → List ι → Option F
  | f, [] => some f
  | f, i :: path => (child f i).bind fun g => walk child g path

@[simp] theorem walk_nil (child : F → ι → Option F) (f : F) : walk child f [] = some f := rfl

@[simp] theorem walk_cons (child : F → ι → Option F) (f : F) :
    walk child f (i :: path) = (child f i).bind fun g => walk child g path := rfl

theorem walk_append (child : F → ι → Option F) (f : F) (first second : List ι) :
    walk child f (first ++ second) = (walk child f first).bind fun g => walk child g second := by
  induction first generalizing f with
  | nil => rfl
  | cons i rest ih => simp [ih,Option.bind_assoc]

theorem walk_concat (child : F → ι → Option F) (f : F) (path : List ι) (i : ι) :
    walk child f (path ++ [i]) = (walk child f path).bind fun g => child g i := by
  rw [walk_append]
  congr 1
  funext g
  simp

/-- The walks selected by `adm` end in pairwise different tables. -/
structure Forest (child : F → ι → Option F) (adm : F → List ι → Prop) : Prop where
  closed : adm root (path ++ [i]) → adm root path
  unique : adm root path → adm root' path' → walk child root path = some f →
    walk child root' path' = some f → root = root' ∧ path = path'

variable {child child' : F → ι → Option F} {adm : F → List ι → Prop}

/-- Walks survive changes to slots they do not use. -/
theorem walk_congr (closed : ∀ {root path i}, adm root (path ++ [i]) → adm root path)
    (same : ∀ root path i f, adm root (path ++ [i]) → walk child root path = some f →
      child' f i = child f i)
    (selected : adm root path) : walk child' root path = walk child root path := by
  induction path using List.reverseRecOn with
  | nil => rfl
  | append_singleton path i ih =>
    rw [walk_concat,walk_concat,ih (closed selected)]
    cases found : walk child root path with
    | none => rfl
    | some f => exact same root path i f selected found

theorem Forest.congr (forest : Forest child adm)
    (same : ∀ root path i f, adm root (path ++ [i]) → walk child root path = some f →
      child' f i = child f i) : Forest child' adm where
  closed := forest.closed
  unique := by
    intro root path root' path' f selected selected' found found'
    rw [walk_congr forest.closed same selected] at found
    rw [walk_congr forest.closed same selected'] at found'
    exact forest.unique selected selected' found found'

/-- `child'` hangs the fresh, childless table `new` behind the empty slot that the
selected walk `stem ++ [i]` from `base` would use. -/
structure Attach (child child' : F → ι → Option F) (adm : F → List ι → Prop) (base : F)
    (stem : List ι) (i : ι) (table new : F) : Prop where
  found : walk child base stem = some table
  selected : adm base (stem ++ [i])
  empty : child table i = none
  linked : child' table i = some new
  fresh : adm root path → walk child root path ≠ some new
  childless : adm base (stem ++ [i] ++ [j]) → child' new j = none
  others : adm root (path ++ [j]) → walk child root path = some f → ¬(f = table ∧ j = i) →
    child' f j = child f j

variable {table new base : F} {stem : List ι} {i : ι}

/-- Every selected walk but the one to the new table keeps its end. -/
theorem walk_attach_other (forest : Forest child adm)
    (attach : Attach child child' adm base stem i table new) (here : adm root path)
    (different : ¬(root = base ∧ path = stem ++ [i])) :
    walk child' root path = walk child root path := by
  induction length : path.length using Nat.strongRecOn generalizing root path with
  | _ n ih =>
    rcases path.eq_nil_or_concat with rfl | ⟨path,j,rfl⟩
    · rfl
    rw [List.concat_eq_append] at here different length ⊢
    have before := forest.closed here
    by_cases below : root = base ∧ path = stem ++ [i]
    -- below the new table there was nothing and there is nothing
    · obtain ⟨rfl,rfl⟩ := below
      have same : walk child' root stem = walk child root stem :=
        ih stem.length (by simp at length; omega) (forest.closed before) (by simp) rfl
      rw [walk_concat,walk_concat,walk_concat child,walk_concat child,same,attach.found]
      simp [attach.empty,attach.linked,attach.childless here]
    · rw [walk_concat,walk_concat,ih path.length (by simp at length; omega) before below rfl]
      cases found : walk child root path with
      | none => rfl
      | some f =>
        refine attach.others here found ?_
        rintro ⟨rfl,rfl⟩
        obtain ⟨rfl,rfl⟩ := forest.unique before (forest.closed attach.selected) found attach.found
        exact different ⟨rfl,rfl⟩

theorem walk_attach_new (forest : Forest child adm)
    (attach : Attach child child' adm base stem i table new) :
    walk child' base (stem ++ [i]) = some new := by
  rw [walk_concat,walk_attach_other forest attach (forest.closed attach.selected) (by simp),
    attach.found]
  exact attach.linked

/-- A selected walk of the new forest is an old one or the one to the new table. -/
theorem walk_attach_cases (forest : Forest child adm)
    (attach : Attach child child' adm base stem i table new) (here : adm root path)
    (found : walk child' root path = some f) :
    (f = new ∧ root = base ∧ path = stem ++ [i]) ∨ (f ≠ new ∧ walk child root path = some f) := by
  by_cases same : root = base ∧ path = stem ++ [i]
  · obtain ⟨rfl,rfl⟩ := same
    rw [walk_attach_new forest attach] at found
    exact .inl ⟨(Option.some.inj found).symm,rfl,rfl⟩
  · rw [walk_attach_other forest attach here same] at found
    exact .inr ⟨fun h => attach.fresh here (h ▸ found),found⟩

/-- Hanging in a fresh table keeps the forest. -/
theorem Forest.grow (forest : Forest child adm)
    (attach : Attach child child' adm base stem i table new) : Forest child' adm where
  closed := forest.closed
  unique := by
    intro root path root' path' f here here' found found'
    rcases walk_attach_cases forest attach here found with ⟨new,rfl,rfl⟩ | ⟨old,found⟩ <;>
      rcases walk_attach_cases forest attach here' found' with ⟨new',rfl,rfl⟩ | ⟨old',found'⟩
    · exact ⟨rfl,rfl⟩
    · exact absurd new old'
    · exact absurd new' old
    · exact forest.unique here here' found found'

end RadixForest
