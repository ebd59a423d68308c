import Mathlib.Data.List.Basic

/-! Logs of an algorithm that reads cells and frees them. -/
namespace TouchLog

variable {F : Type}

inductive Touch (F : Type) where
  | read (f : F)
  | free (f : F)

def freed : List (Touch F) → List F
  | [] => []
  | .read _ :: log => freed log
  | .free f :: log => f :: freed log

/-- No cell is read after it was freed. -/
def ReadsFirst (log : List (Touch F)) : Prop := log.Pairwise fun a b => ∀ f, a = .free f → b ≠ .read f

@[simp] theorem freed_nil : freed ([] : List (Touch F)) = [] := rfl
@[simp] theorem freed_read (f : F) (log : List (Touch F)) : freed (.read f :: log) = freed log := rfl
@[simp] theorem freed_free (f : F) (log : List (Touch F)) : freed (.free f :: log) = f :: freed log := rfl

@[simp] theorem freed_append (first second : List (Touch F)) : freed (first ++ second) = freed first ++ freed second := by
  induction first with
  | nil => rfl
  | cons touch rest ih => cases touch <;> simp [ih]

@[simp] theorem mem_freed {log : List (Touch F)} : f ∈ freed log ↔ .free f ∈ log := by
  induction log with
  | nil => simp
  | cons touch rest ih => cases touch <;> simp [ih]

theorem freed_flatMap (list : List α) (log : α → List (Touch F)) :
    freed (list.flatMap log) = list.flatMap fun a => freed (log a) := by
  induction list with
  | nil => rfl
  | cons a rest ih => simp [ih]

theorem readsFirst_free (f : F) : ReadsFirst [.free f] := List.pairwise_singleton _ _

theorem readsFirst_read {log : List (Touch F)} (first : ReadsFirst log) (f : F) : ReadsFirst (.read f :: log) :=
  List.pairwise_cons.mpr ⟨fun _ _ _ same => (nomatch same),first⟩

/-- What follows reads nothing that was freed before. -/
theorem ReadsFirst.split {before after : List (Touch F)} (first : ReadsFirst (before ++ after)) :
    ReadsFirst before ∧ ReadsFirst after ∧ ∀ f, .read f ∈ after → f ∉ freed before := by
  obtain ⟨left,right,across⟩ := List.pairwise_append.mp first
  exact ⟨left,right,fun f read here => across _ (mem_freed.mp here) _ read f rfl rfl⟩

end TouchLog
