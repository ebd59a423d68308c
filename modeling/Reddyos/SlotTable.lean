import Mathlib.Data.List.Basic

/-! Tables of slots: a value goes into the first free slot, and a full table is doubled as
long as that is granted. Growth leaves the content of every slot as it was. -/
namespace SlotTable

variable {α : Type} {t next : List (Option α)} {value : α}

def slot (t : List (Option α)) (i : Nat) : Option α := t[i]?.join

def firstFree (t : List (Option α)) : Option Nat := t.findIdx? Option.isNone

def doubled (t : List (Option α)) : List (Option α) := t ++ List.replicate t.length none

/-- `grants` answers the requests to grow, in order; the table never gets longer than `limit`. -/
def place (limit : Nat) (value : α) : List Bool → List (Option α) → Option Nat × List (Option α)
  | [], t =>
    match firstFree t with
    | some i => (some i,t.set i (some value))
    | none => (none,t)
  | grant :: grants, t =>
    match firstFree t with
    | some i => (some i,t.set i (some value))
    | none => if grant ∧ t.length * 2 ≤ limit then place limit value grants (doubled t) else (none,t)

theorem slot_of_le (bound : t.length ≤ i) : slot t i = none := by
  simp [slot,List.getElem?_eq_none bound]

theorem slot_inside (found : slot t i = some value) : i < t.length := by
  by_contra outside
  rw [slot_of_le (by omega)] at found
  cases found

theorem slot_set (bound : i < t.length) (content : Option α) (j : Nat) :
    slot (t.set i content) j = if j = i then content else slot t j := by
  unfold slot
  by_cases here : j = i
  · subst j
    simp [bound]
  · simp [here,List.getElem?_set_ne (fun same => here same.symm)]

@[simp]
theorem slot_doubled (t : List (Option α)) (i : Nat) : slot (doubled t) i = slot t i := by
  unfold slot doubled
  by_cases inside : i < t.length
  · rw [List.getElem?_append_left inside]
  · rw [List.getElem?_append_right (by omega),List.getElem?_replicate,
      List.getElem?_eq_none (by omega)]
    split <;> rfl

@[simp]
theorem length_doubled (t : List (Option α)) : (doubled t).length = t.length * 2 := by
  simp [doubled]
  omega

theorem slot_replicate (n i : Nat) : slot (List.replicate n (none : Option α)) i = none := by
  unfold slot
  rw [List.getElem?_replicate]
  split <;> rfl

theorem firstFree_some (found : firstFree t = some i) :
    i < t.length ∧ slot t i = none ∧ ∀ j < i, slot t j ≠ none := by
  obtain ⟨inside,free,full⟩ := List.findIdx?_eq_some_iff_getElem.mp found
  refine ⟨inside,?_,?_⟩
  · unfold slot
    rw [List.getElem?_eq_getElem inside]
    simpa using free
  · intro j before
    have taken := full j before
    unfold slot
    rw [List.getElem?_eq_getElem (by omega)]
    simpa using taken

theorem firstFree_none (full : firstFree t = none) : ∀ j < t.length, slot t j ≠ none := by
  intro j inside
  have taken := List.findIdx?_eq_none_iff.mp full (t[j]) (List.getElem_mem inside)
  unfold slot
  rw [List.getElem?_eq_getElem inside]
  simpa [← Option.isSome_iff_ne_none] using taken

theorem firstFree_eq (full : ∀ j < i, slot t j ≠ none) (free : slot t i = none) (inside : i < t.length) :
    firstFree t = some i := by
  cases found : firstFree t with
  | none => exact absurd free (firstFree_none found i inside)
  | some j =>
    obtain ⟨_,empty,before⟩ := firstFree_some found
    have : ¬j < i := fun less => full j less empty
    have : ¬i < j := fun less => before i less free
    congr 1
    omega

theorem firstFree_full (full : ∀ j < t.length, slot t j ≠ none) : firstFree t = none := by
  cases found : firstFree t with
  | none => rfl
  | some j =>
    obtain ⟨inside,empty,_⟩ := firstFree_some found
    exact absurd empty (full j inside)

/-- The value is in the first slot that was free, and nothing else has changed. -/
structure Placed (t : List (Option α)) (value : α) (i : Nat) (next : List (Option α)) : Prop where
  free : slot t i = none
  full : ∀ j < i, slot t j ≠ none
  inside : i < next.length
  slots : ∀ j, slot next j = if j = i then some value else slot t j

theorem placed_set (found : firstFree t = some i) : Placed t value i (t.set i (some value)) := by
  obtain ⟨inside,free,full⟩ := firstFree_some found
  exact ⟨free,full,by simpa using inside,slot_set inside _⟩

theorem place_spec (placed : place limit value grants t = (result,next)) :
    (result = none ∧ ∀ j, slot next j = slot t j) ∨ ∃ i, result = some i ∧ Placed t value i next := by
  induction grants generalizing t with
  | nil =>
    unfold place at placed
    split at placed
    · rename_i i found
      obtain ⟨rfl,rfl⟩ := Prod.mk.inj placed
      exact .inr ⟨i,rfl,placed_set found⟩
    · obtain ⟨rfl,rfl⟩ := Prod.mk.inj placed
      exact .inl ⟨rfl,fun _ => rfl⟩
  | cons grant grants ih =>
    unfold place at placed
    split at placed
    · rename_i i found
      obtain ⟨rfl,rfl⟩ := Prod.mk.inj placed
      exact .inr ⟨i,rfl,placed_set found⟩
    split at placed
    · rcases ih placed with ⟨rfl,same⟩ | ⟨i,rfl,⟨free,full,inside,slots⟩⟩
      · exact .inl ⟨rfl,fun j => by rw [same j,slot_doubled]⟩
      · simp only [slot_doubled] at free full slots
        exact .inr ⟨i,rfl,free,full,inside,slots⟩
    · obtain ⟨rfl,rfl⟩ := Prod.mk.inj placed
      exact .inl ⟨rfl,fun _ => rfl⟩

def Room (limit : Nat) (grants : List Bool) (t : List (Option α)) : Prop :=
  (∃ i < t.length, slot t i = none) ∨ t ≠ [] ∧ grants.head? = some true ∧ t.length * 2 ≤ limit

theorem place_found (found : firstFree t = some i) (limit : Nat) (grants : List Bool) :
    place limit value grants t = (some i,t.set i (some value)) := by
  cases grants <;> simp [place,found]

theorem place_empty (limit : Nat) (value : α) (grants : List Bool) : (place limit value grants []).1 = none := by
  induction grants with
  | nil => rfl
  | cons grant grants ih =>
    unfold place
    split
    · exact absurd (firstFree_some ‹_›).1 (Nat.not_lt_zero _)
    split
    · exact ih
    · rfl

/-- One doubling is enough: the second half of the table is free. -/
theorem place_isSome (limit : Nat) (value : α) (grants : List Bool) (t : List (Option α)) :
    (place limit value grants t).1.isSome ↔ Room limit grants t := by
  cases found : firstFree t with
  | some i =>
    obtain ⟨inside,free,_⟩ := firstFree_some found
    rw [place_found found]
    exact ⟨fun _ => .inl ⟨i,inside,free⟩,fun _ => rfl⟩
  | none =>
    have full : ¬∃ i < t.length, slot t i = none := fun ⟨i,inside,free⟩ => firstFree_none found i inside free
    cases grants with
    | nil => simp [place,found,Room,full]
    | cons grant grants =>
      by_cases grown : grant ∧ t.length * 2 ≤ limit
      · have same : place limit value (grant :: grants) t = place limit value grants (doubled t) := by
          simp [place,found,grown]
        rw [same]
        by_cases empty : t = []
        · subst t
          have none : (place limit value grants (doubled [])).1 = none := place_empty limit value grants
          simp [none,Room]
        · have behind : firstFree (doubled t) = some t.length :=
            firstFree_eq (fun j before => by rw [slot_doubled]; exact firstFree_none found j before)
              (by rw [slot_doubled,slot_of_le (Nat.le_refl _)])
              (by have := List.length_pos_iff.mpr empty; simp; omega)
          rw [place_found behind]
          exact ⟨fun _ => .inr ⟨empty,by simp [grown.1],grown.2⟩,fun _ => rfl⟩
      · have denied : ¬Room limit (grant :: grants) t := by
          rintro (free | ⟨_,head,small⟩)
          · exact full free
          · exact grown ⟨by simpa using head,small⟩
        simp only [place,found,if_neg grown,denied,Option.isSome_none,Bool.false_eq_true]

def used (t : List (Option α)) : Nat := t.countP Option.isSome

theorem le_used (full : ∀ j < i, slot t j ≠ none) : i ≤ used t := by
  have long : i ≤ t.length := by
    by_contra short
    exact full t.length (by omega) (slot_of_le (Nat.le_refl _))
  have all : (t.take i).countP Option.isSome = (t.take i).length := by
    rw [List.countP_eq_length]
    intro content member
    obtain ⟨j,inside,rfl⟩ := List.getElem_of_mem member
    simp only [List.length_take] at inside
    have taken := full j (by omega)
    unfold slot at taken
    rw [List.getElem?_eq_getElem (by omega)] at taken
    rw [List.getElem_take]
    simpa [Option.isSome_iff_ne_none] using taken
  have part : (t.take i).countP Option.isSome ≤ used t := List.Sublist.countP_le (List.take_sublist i t)
  rw [all,List.length_take] at part
  omega

theorem used_le (free : ∀ j, i ≤ j → slot t j = none) : used t ≤ i := by
  have split : used t = (t.take i).countP Option.isSome + (t.drop i).countP Option.isSome := by
    rw [← List.countP_append,List.take_append_drop]
    rfl
  have none : (t.drop i).countP Option.isSome = 0 := by
    rw [List.countP_eq_zero]
    intro content member
    obtain ⟨j,inside,rfl⟩ := List.getElem_of_mem member
    simp only [List.length_drop] at inside
    have empty := free (i + j) (by omega)
    unfold slot at empty
    rw [List.getElem?_eq_getElem (by omega)] at empty
    rw [List.getElem_drop]
    simpa using empty
  have part : (t.take i).countP Option.isSome ≤ (t.take i).length := List.countP_le_length
  rw [List.length_take] at part
  omega

def packed (size : Nat) (values : List α) : List (Option α) :=
  values.map some ++ List.replicate (size - values.length) none

variable {size i : Nat} {values : List α}

@[simp]
theorem length_packed (fits : values.length ≤ size) : (packed size values).length = size := by
  simp only [packed,List.length_append,List.length_map,List.length_replicate]
  omega

theorem packed_cons (value : α) (values : List α) :
    packed (size + 1) (value :: values) = some value :: packed size values := by
  simp [packed]

theorem packed_none (room : values.length < size) :
    packed size values = values.map some ++ none :: List.replicate (size - values.length - 1) none := by
  unfold packed
  rw [← List.replicate_succ]
  congr 2
  omega

theorem getElem?_packed (before : i < values.length) : (packed size values)[i]? = values[i]?.map some := by
  unfold packed
  rw [List.getElem?_append_left (by rw [List.length_map]; exact before),List.getElem?_map]

theorem getElem?_packed_none (behind : values.length ≤ i) (inside : i < size) : (packed size values)[i]? = some none := by
  unfold packed
  rw [List.getElem?_append_right (by rw [List.length_map]; exact behind),List.length_map,List.getElem?_replicate,
    if_pos (by omega)]

theorem packed_some (found : (packed size values)[i]? = some (some value)) : values[i]? = some value := by
  by_cases before : i < values.length
  · rw [getElem?_packed before] at found
    obtain ⟨_,here,same⟩ := Option.map_eq_some_iff.mp found
    rw [here,Option.some.inj same]
  · unfold packed at found
    rw [List.getElem?_append_right (by rw [List.length_map]; omega),List.getElem?_replicate] at found
    split at found <;> cases found

theorem firstFree_packed (room : values.length < size) : firstFree (packed size values) = some values.length := by
  refine firstFree_eq ?_ ?_ (by rw [length_packed (Nat.le_of_lt room)]; exact room)
  · intro j before
    unfold slot
    rw [getElem?_packed before,List.getElem?_eq_getElem before]
    nofun
  · unfold slot
    rw [getElem?_packed_none (Nat.le_refl _) room]
    rfl

/-- The first free slot is the one behind the values. -/
theorem packed_set (room : values.length < size) :
    (packed size values).set values.length (some value) = packed size (values ++ [value]) := by
  rw [packed_none room,List.set_append_right _ _ (by simp),List.length_map,Nat.sub_self,
    List.set_cons_zero]
  unfold packed
  rw [List.map_append,List.length_append,List.append_assoc,Nat.sub_sub]
  rfl

end SlotTable
