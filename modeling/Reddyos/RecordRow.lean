import Mathlib.Algebra.BigOperators.Group.List.Basic
import Mathlib.Algebra.GroupWithZero.Nat

/-! Records one behind the other, each of which says how long it is, and the loop that goes from one to the
next. Positions and lengths are numbers; what a record holds does not matter here. -/
namespace RecordRow

variable {σ : Type*}

/-- The records from `p` on that begin before `stop`; each gets on. -/
inductive Row (len : Nat → Nat) (stop : Nat) : Nat → List Nat → Prop where
  | done {p : Nat} : stop ≤ p → Row len stop p []
  | record {p : Nat} {rest : List Nat} : p < stop → 0 < len p → Row len stop (p + len p) rest → Row len stop p (p :: rest)

/-- The last record ends where the row does. -/
def Tiles (len : Nat → Nat) (stop p : Nat) (records : List Nat) : Prop :=
  Row len stop p records ∧ p + (records.map len).sum = stop

/-- `while (p < stop) { visit(p); p += len(p); }`; false when the fuel ran out. -/
def walk (len : Nat → Nat) (stop : Nat) (visit : Nat → σ → σ) : Nat → Nat → σ → Bool × σ
  | 0, _, s => (false,s)
  | fuel + 1, p, s => if p < stop then walk len stop visit fuel (p + len p) (visit p s) else (true,s)

variable {len : Nat → Nat} {stop p fuel : Nat} {visit : Nat → σ → σ} {s : σ} {records : List Nat}

/-- The loop visits the records in order, as far as the fuel goes. -/
theorem Row.walk (row : Row len stop p records) (visit : Nat → σ → σ) (fuel : Nat) (s : σ) :
    RecordRow.walk len stop visit fuel p s =
      (decide (records.length < fuel),(records.take fuel).foldl (fun s p => visit p s) s) := by
  induction row generalizing fuel s with
  | done behind =>
    cases fuel with
    | zero => rfl
    | succ fuel => simp [RecordRow.walk,Nat.not_lt.mpr behind]
  | record inside _ _ ih =>
    cases fuel with
    | zero => rfl
    | succ fuel => simp [RecordRow.walk,inside,ih]

/-- The loop ends only on a row of records that all get on. -/
theorem row_of_walk (ends : (walk len stop visit fuel p s).1 = true) : ∃ records, Row len stop p records := by
  induction fuel generalizing p s with
  | zero => cases ends
  | succ fuel ih =>
    unfold walk at ends
    by_cases inside : p < stop
    · rw [if_pos inside] at ends
      obtain ⟨rest,row⟩ := ih ends
      rcases Nat.eq_zero_or_pos (len p) with stuck | moves
      · rw [stuck] at row
        exact ⟨rest,row⟩
      · exact ⟨p :: rest,.record inside moves row⟩
    · exact ⟨[],.done (Nat.not_lt.mp inside)⟩

theorem Row.unique (row : Row len stop p records) (row' : Row len stop p records') : records = records' := by
  induction row generalizing records' with
  | done behind =>
    cases row' with
    | done => rfl
    | record inside => exact absurd inside (Nat.not_lt.mpr behind)
  | record inside _ _ ih =>
    cases row' with
    | done behind => exact absurd inside (Nat.not_lt.mpr behind)
    | record _ _ rest => rw [ih rest]

/-- The whole row is visited once the fuel is enough. -/
theorem Row.walk_all (row : Row len stop p records) (enough : records.length < fuel) :
    RecordRow.walk len stop visit fuel p s = (true,records.foldl (fun s p => visit p s) s) := by
  rw [row.walk,List.take_of_length_le (Nat.le_of_lt enough),decide_eq_true enough]

end RecordRow
