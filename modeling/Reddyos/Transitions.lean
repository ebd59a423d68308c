import Mathlib.Logic.Function.Basic

/-! Runs of labelled transition systems with a condition on every step, and parties that share
one memory and take their steps in any order. -/
namespace Transitions

section Runs

variable {σ ε : Type*}

/-- A run from a start state, its latest event last; every step meets `guard`. -/
inductive Run (start : σ → Prop) (step : σ → ε → σ → Prop) (guard : σ → ε → Prop) : List ε → σ → Prop where
  | start : start s → Run start step guard [] s
  | step : Run start step guard events s → guard s e → step s e t → Run start step guard (events ++ [e]) t

variable {start : σ → Prop} {step : σ → ε → σ → Prop} {guard guard' : σ → ε → Prop} {events : List ε} {s : σ}

def free : σ → ε → Prop := fun _ _ => True

instance (s : σ) (e : ε) : Decidable (free s e) := isTrue trivial

theorem Run.enlarge {start' : σ → Prop} (larger : ∀ s, start s → start' s) (run : Run start step guard events s) :
    Run start' step guard events s := by
  induction run with
  | start initial => exact .start (larger _ initial)
  | step _ met moves ih => exact .step ih met moves

/-- What the start states satisfy and every step keeps holds in every state of a run. The
invariant may speak of the events so far. -/
theorem Run.invariant (run : Run start step guard events s) (inv : List ε → σ → Prop)
    (initial : ∀ s, start s → inv [] s)
    (kept : ∀ events s e t, inv events s → guard s e → step s e t → inv (events ++ [e]) t) : inv events s := by
  induction run with
  | start begins => exact initial _ begins
  | step _ met moves ih => exact kept _ _ _ _ ih met moves

/-- Two systems, the second of which can do what the first does. -/
theorem Run.simulated {τ : Type*} {start' : τ → Prop} {step' : τ → ε → τ → Prop} {guard' : τ → ε → Prop}
    (run : Run start step guard events s) (related : σ → τ → Prop)
    (initial : ∀ s, start s → ∃ t, start' t ∧ related s t)
    (follows : ∀ s t e s', related s t → guard s e → step s e s' → ∃ t', guard' t e ∧ step' t e t' ∧ related s' t') :
    ∃ t, Run start' step' guard' events t ∧ related s t := by
  induction run with
  | start begins =>
    obtain ⟨t,begins',here⟩ := initial _ begins
    exact ⟨t,.start begins',here⟩
  | step _ met moves ih =>
    obtain ⟨t,run',here⟩ := ih
    obtain ⟨t',met',moves',there⟩ := follows _ t _ _ here met moves
    exact ⟨t',.step run' met' moves',there⟩

/-- The later part of a run is a run of its own. -/
theorem Run.split (run : Run start step guard (before ++ after) s) :
    ∃ middle, Run start step guard before middle ∧ Run (fun t => t = middle) step guard after s := by
  generalize whole : before ++ after = events at run
  induction run generalizing after with
  | start begins =>
    obtain ⟨rfl,rfl⟩ := List.append_eq_nil_iff.mp whole
    exact ⟨_,.start begins,.start rfl⟩
  | @step earlier _ e _ run met moves ih =>
    rcases List.eq_nil_or_concat after with rfl | ⟨rest,last,rfl⟩
    · rw [List.append_nil] at whole
      subst whole
      exact ⟨_,.step run met moves,.start rfl⟩
    · rw [List.concat_eq_append,← List.append_assoc] at whole
      obtain ⟨rfl,rfl⟩ := List.append_singleton_inj.mp whole
      obtain ⟨middle,first,second⟩ := ih rfl
      rw [List.concat_eq_append]
      exact ⟨middle,first,.step second met moves⟩

theorem Run.single (run : Run (fun t => t = s) step guard [e] t) : guard s e ∧ step s e t := by
  generalize one : [e] = events at run
  cases run with
  | start => cases one
  | step earlier met moves =>
    obtain ⟨rfl,rfl⟩ := List.append_singleton_inj.mp (show [] ++ [e] = _ from one)
    generalize none : [] = events at earlier
    cases earlier with
    | start begins =>
      subst begins
      exact ⟨met,moves⟩
    | step => exact absurd none (by simp)

/-- The run that a function computes. -/
theorem Run.fold {f : σ → ε → Option σ} (run : Run start step guard before s)
    (sound : ∀ s e t, f s e = some t → guard s e ∧ step s e t) (folds : events.foldlM f s = some t) :
    Run start step guard (before ++ events) t := by
  induction events generalizing before s with
  | nil =>
    obtain rfl := Option.some.inj folds
    rwa [List.append_nil]
  | cons e rest ih =>
    obtain ⟨middle,moves,folds⟩ := Option.bind_eq_some_iff.mp folds
    obtain ⟨met,moves⟩ := sound s e middle moves
    have longer := ih (.step run met moves) folds
    rwa [List.append_assoc] at longer

end Runs

section Parties

variable {P S L A : Type*} [DecidableEq P]

/-- The shared memory and what each party keeps for itself. -/
structure Global (P S L : Type*) where
  shared : S
  own : P → L

def Global.take (act : S → L → A → Option (S × L)) (g : Global P S L) (p : P) (a : A) : Option (Global P S L) :=
  (act g.shared (g.own p) a).map fun (s,l) => ⟨s,Function.update g.own p l⟩

/-- One party acts; the others keep what they have. -/
def Interleaved (act : S → L → A → Option (S × L)) (g : Global P S L) (e : P × A) (next : Global P S L) : Prop :=
  g.take act e.1 e.2 = some next

theorem Interleaved.cases {act : S → L → A → Option (S × L)} {g next : Global P S L} {e : P × A}
    (moves : Interleaved act g e next) :
    ∃ s l, act g.shared (g.own e.1) e.2 = some (s,l) ∧ next.shared = s ∧ next.own e.1 = l ∧
      ∀ q, q ≠ e.1 → next.own q = g.own q := by
  obtain ⟨⟨s,l⟩,acts,rfl⟩ := Option.map_eq_some_iff.mp moves
  exact ⟨s,l,acts,rfl,Function.update_self _ _ _,fun _ other => Function.update_of_ne other _ _⟩

/-- The events one after another, as long as each can be taken and meets `guard`. -/
def Global.takeAll (act : S → L → A → Option (S × L)) (guard : Global P S L → P × A → Prop)
    [∀ g e, Decidable (guard g e)] (g : Global P S L) (events : List (P × A)) : Option (Global P S L) :=
  events.foldlM (fun g e => if guard g e then g.take act e.1 e.2 else none) g

theorem Run.takeAll {start : Global P S L → Prop} {act : S → L → A → Option (S × L)}
    {guard : Global P S L → P × A → Prop} [∀ g e, Decidable (guard g e)] {g next : Global P S L}
    (begins : start g) (taken : g.takeAll act guard events = some next) :
    Run start (Interleaved act) guard events next := by
  have none : Run start (Interleaved act) guard [] g := .start begins
  refine none.fold (fun g e next moves => ?_) taken
  by_cases met : guard g e
  · rw [if_pos met] at moves
    exact ⟨met,moves⟩
  · rw [if_neg met] at moves
    cases moves

end Parties

end Transitions
