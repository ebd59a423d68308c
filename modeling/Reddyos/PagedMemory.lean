import Mathlib.Data.List.Basic

/-! A memory by what has happened to it: single stores, and ranges of addresses that come
with given contents or go. -/
namespace PagedMemory

variable {α β : Type*} [DecidableEq α]

/-- Nothing is at an address that has not come. -/
abbrev Memory (α β : Type*) := α → Option β

inductive Event (α β : Type*) where
  | store (a : α) (b : β)
  | come (range : α → Bool) (contents : α → β)
  | go (range : α → Bool)

/-- A store to an address where nothing is changes nothing. -/
def Event.apply : Event α β → Memory α β → Memory α β
  | .store a b, m => fun x => if x = a then (m a).map fun _ => b else m x
  | .come range contents, m => fun x => if range x then some (contents x) else m x
  | .go range, m => fun x => if range x then none else m x

def Event.touches : Event α β → α → Bool
  | .store a _, x => decide (x = a)
  | .come range _, x => range x
  | .go range, x => range x

/-- The latest event first. -/
def replay (m : Memory α β) (events : List (Event α β)) : Memory α β := events.foldr Event.apply m

variable {m : Memory α β} {x : α}

@[simp] theorem replay_nil (m : Memory α β) : replay m [] = m := rfl

@[simp] theorem replay_cons (m : Memory α β) (event : Event α β) (events : List (Event α β)) :
    replay m (event :: events) = event.apply (replay m events) := rfl

theorem Event.apply_apart {event : Event α β} (apart : event.touches x = false) : event.apply m x = m x := by
  cases event <;> simp_all [Event.apply,Event.touches]

/-- Where a value comes from: it was there, it came, or it was stored. -/
theorem replay_origin {events : List (Event α β)} {b : β} (found : replay m events x = some b) :
    m x = some b ∨ (∃ range contents, .come range contents ∈ events ∧ range x = true ∧ contents x = b) ∨
      .store x b ∈ events := by
  induction events with
  | nil => exact .inl found
  | cons event rest ih =>
    by_cases touched : event.touches x = true
    · cases event with
      | store a c =>
        obtain rfl : x = a := by simpa [Event.touches] using touched
        simp only [replay_cons,Event.apply,if_true,Option.map_eq_some_iff] at found
        obtain ⟨_,_,rfl⟩ := found
        exact .inr (.inr (by simp))
      | come range contents =>
        have inside : range x = true := touched
        simp only [replay_cons,Event.apply,inside,if_true,Option.some.injEq] at found
        exact .inr (.inl ⟨range,contents,by simp,inside,found⟩)
      | go range =>
        have inside : range x = true := touched
        simp [Event.apply,inside] at found
    · rw [replay_cons,Event.apply_apart (by simpa using touched)] at found
      rcases ih found with start | ⟨range,contents,member,rest⟩ | stored
      · exact .inl start
      · exact .inr (.inl ⟨range,contents,by simp [member],rest⟩)
      · exact .inr (.inr (by simp [stored]))

end PagedMemory
