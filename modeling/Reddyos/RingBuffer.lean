import Mathlib.Logic.Function.Basic

/-! A ring of `cap` slots with a head and a tail, one slot always left empty, and the list of
items it holds, oldest first. -/
namespace RingBuffer

variable {α : Type*}

structure RingBuf (α : Type*) where
  slots : Nat → α
  head : Nat
  tail : Nat

structure Holds (cap : Nat) (r : RingBuf α) (items : List α) : Prop where
  head : r.head < cap
  room : items.length < cap
  tail : r.tail = (r.head + items.length) % cap
  slot : ∀ i item, items[i]? = some item → r.slots ((r.head + i) % cap) = item

def RingBuf.push (cap : Nat) (x : α) (r : RingBuf α) : RingBuf α :=
  ⟨Function.update r.slots r.tail x,r.head,(r.tail + 1) % cap⟩

def RingBuf.pop (cap : Nat) (r : RingBuf α) : RingBuf α := { r with head := (r.head + 1) % cap }

variable {cap head i j : Nat} {r : RingBuf α} {items : List α} {x : α}

theorem wrap (start : head < cap) (short : i ≤ cap) :
    (head + i) % cap = if head + i < cap then head + i else head + i - cap := by
  split
  · exact Nat.mod_eq_of_lt ‹_›
  · rw [Nat.mod_eq_sub_mod (by omega)]
    exact Nat.mod_eq_of_lt (by omega)

theorem wrap_succ (cap n : Nat) : (n % cap + 1) % cap = (n + 1) % cap := by
  rw [Nat.add_mod,Nat.mod_mod,← Nat.add_mod]

theorem Holds.empty (slots : Nat → α) (positive : 0 < cap) : Holds cap ⟨slots,0,0⟩ [] where
  head := positive
  room := positive
  tail := (Nat.zero_mod cap).symm
  slot := nofun

theorem Holds.full_iff (holds : Holds cap r items) : (r.tail + 1) % cap = r.head ↔ items.length + 1 = cap := by
  have start := holds.head
  have room := holds.room
  rw [holds.tail,wrap_succ,Nat.add_assoc,wrap start (by omega)]
  split <;> omega

theorem Holds.empty_iff (holds : Holds cap r items) : r.head = r.tail ↔ items = [] := by
  have start := holds.head
  have room := holds.room
  rw [holds.tail,wrap start (by omega),← List.length_eq_zero_iff]
  split <;> omega

theorem Holds.push (holds : Holds cap r items) (fits : items.length + 1 < cap) :
    Holds cap (r.push cap x) (items ++ [x]) where
  head := holds.head
  room := by rwa [List.length_append]
  tail := by
    change (r.tail + 1) % cap = (r.head + (items ++ [x]).length) % cap
    rw [holds.tail,wrap_succ,List.length_append,List.length_singleton,Nat.add_assoc]
  slot := by
    intro i item found
    have start := holds.head
    change Function.update r.slots r.tail x ((r.head + i) % cap) = item
    by_cases old : i < items.length
    · rw [List.getElem?_append_left old] at found
      rw [Function.update_of_ne]
      · exact holds.slot i item found
      · rw [holds.tail,wrap start (by omega),wrap start (by omega)]
        split <;> split <;> omega
    · have bound := (List.getElem?_eq_some_iff.mp found).1
      rw [List.length_append,List.length_singleton] at bound
      obtain rfl : i = items.length := by omega
      rw [List.getElem?_concat_length] at found
      rw [← holds.tail,Function.update_self]
      exact Option.some.inj found

theorem Holds.front (holds : Holds cap r (x :: items)) : r.slots r.head = x := by
  have first := holds.slot 0 x rfl
  rwa [Nat.add_zero,Nat.mod_eq_of_lt holds.head] at first

theorem Holds.pop (holds : Holds cap r (x :: items)) : Holds cap (r.pop cap) items where
  head := Nat.mod_lt _ (Nat.zero_lt_of_lt holds.head)
  room := Nat.lt_of_succ_lt holds.room
  tail := by
    change r.tail = ((r.head + 1) % cap + items.length) % cap
    rw [holds.tail,List.length_cons,Nat.mod_add_mod,Nat.add_right_comm,Nat.add_assoc]
  slot := by
    intro i item found
    change r.slots (((r.head + 1) % cap + i) % cap) = item
    rw [Nat.mod_add_mod,Nat.add_right_comm,Nat.add_assoc]
    exact holds.slot (i + 1) item found

end RingBuffer
