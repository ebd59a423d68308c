import Mathlib.Data.Int.ModEq

/-! A counter that starts again at zero after `m - 1`, extended to a total by adding up how far it moved
between two readings. -/
namespace WrapCounter

variable {m total delta now later shown last : Nat}

/-- The total has counted no more than was there, and what it misses are whole rounds. -/
structure Tracks (m total now : Nat) : Prop where
  below : total ≤ now
  rounds : total % m = now % m

theorem tracks_zero (m : Nat) : Tracks m 0 0 := ⟨Nat.le_refl 0,rfl⟩

/-- How far the counter moved, as far as two readings of it show. -/
structure Moved (m last shown delta : Nat) : Prop where
  small : delta < m
  lands : (last + delta) % m = shown % m

theorem Tracks.lands (tracks : Tracks m total now) (seen : last % m = now % m) (moved : Moved m last shown delta)
    (shows : shown % m = later % m) : (total + delta) % m = later % m := by
  have start : total % m = last % m := tracks.rounds.trans seen.symm
  rw [Nat.add_mod,start,← Nat.add_mod,moved.lands,shows]

/-- A difference smaller than a round is no more than the distance to any number it leads to. -/
theorem delta_le (small : delta < m) (before : total ≤ later) (lands : (total + delta) % m = later % m) :
    total + delta ≤ later := by
  obtain ⟨distance,rfl⟩ := Nat.exists_eq_add_of_le before
  have same : delta % m = distance % m := Nat.ModEq.add_left_cancel' total lands
  rw [Nat.mod_eq_of_lt small] at same
  have below := Nat.mod_le distance m
  omega

theorem Tracks.read (tracks : Tracks m total now) (forward : now ≤ later) (seen : last % m = now % m)
    (moved : Moved m last shown delta) (shows : shown % m = later % m) : Tracks m (total + delta) later := by
  have lands := tracks.lands seen moved shows
  exact ⟨delta_le moved.small (Nat.le_trans tracks.below forward) lands,lands⟩

/-- A total that was exact stays exact when the counter went round less than once. -/
theorem exact_read (forward : now ≤ later) (near : later < now + m) (small : delta < m)
    (lands : (now + delta) % m = later % m) : now + delta = later := by
  obtain ⟨distance,rfl⟩ := Nat.exists_eq_add_of_le forward
  have same : delta % m = distance % m := Nat.ModEq.add_left_cancel' now lands
  rw [Nat.mod_eq_of_lt small,Nat.mod_eq_of_lt (by omega)] at same
  rw [same]

end WrapCounter
