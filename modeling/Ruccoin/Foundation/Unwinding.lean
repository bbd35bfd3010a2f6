import Mathlib.Data.List.Basic

/-!
# Unwinding

A machine that takes inputs and answers each with outputs, until it fails at one and takes no
more. Three conditions on single steps, relative to a relation between states, say that the
inputs which are not visible make no difference to what is seen. Then leaving them out makes
no difference to a run either, but for the visible inputs behind a failure at one that is
left out.
-/

namespace Unwinding

variable {σ α β ε : Type*}

/-- What came of a sequence of inputs: the last state, the outputs, and the failure that ended
the run if one did. -/
structure Course (σ β ε : Type*) where
  state : σ
  outputs : List β
  failure : Option ε

/-- The same with some outputs before. -/
def Course.after (course : Course σ β ε) (out : List β) : Course σ β ε :=
  { course with outputs := out ++ course.outputs }

section Runs

variable (step : σ → α → Except ε (σ × List β))

def run : σ → List α → Course σ β ε
  | s, [] => ⟨s, [], none⟩
  | s, a :: as => match step s a with
    | .ok (s', out) => (run s' as).after out
    | .error e => ⟨s, [], some e⟩

/-- The visible inputs behind a failure at one that is not visible. -/
def lost (visible : α → Prop) [DecidablePred visible] : σ → List α → List α
  | _, [] => []
  | s, a :: as => match step s a with
    | .ok (s', _) => lost visible s' as
    | .error _ => if visible a then [] else as.filter (visible ·)

/-- The conditions on a step: an input that is not visible keeps the relation and has no
output that is seen; a visible one does the same in related states, its failure included,
and all of its outputs are seen. -/
structure Unwinds (visible : α → Prop) (seen : β → Prop) (related : σ → σ → Prop) : Prop where
  hidden : ∀ {s t a s' out}, related s t → ¬visible a → step s a = .ok (s', out) →
    related s' t ∧ ∀ b ∈ out, ¬seen b
  shown : ∀ {s t a s' out}, related s t → visible a → step s a = .ok (s', out) →
    (∃ t', step t a = .ok (t', out) ∧ related s' t') ∧ ∀ b ∈ out, seen b
  fails : ∀ {s t a e}, related s t → visible a → step s a = .error e → step t a = .error e

end Runs

/-- One course does what is seen of another, and then what a third one does. -/
structure Resumes (seen : β → Prop) [DecidablePred seen] (whole own more : Course σ β ε) :
    Prop where
  state : own.state = more.state
  outputs : own.outputs = whole.outputs.filter (seen ·) ++ more.outputs

variable {step : σ → α → Except ε (σ × List β)} {s s' t : σ} {a : α} {as : List α}
  {out : List β} {e : ε}

theorem run_ok (taken : step s a = .ok (s', out)) :
    run step s (a :: as) = (run step s' as).after out := by
  rw [run, taken]

theorem run_error (failed : step s a = .error e) :
    run step s (a :: as) = ⟨s, [], some e⟩ := by
  rw [run, failed]

/-- A property that every input keeps holds of the state at the end. -/
theorem state_of_kept {P : σ → Prop}
    (kept : ∀ s a s' out, P s → step s a = .ok (s', out) → P s') (start : P s) :
    P (run step s as).state := by
  induction as generalizing s with
  | nil => exact start
  | cons a as ih =>
    cases taken : step s a with
    | error e =>
      rw [run_error taken]
      exact start
    | ok result =>
      rw [run_ok taken]
      exact ih (kept s a result.1 result.2 start taken)

section Lost

variable {visible : α → Prop} [DecidablePred visible]

theorem lost_ok (taken : step s a = .ok (s', out)) :
    lost step visible s (a :: as) = lost step visible s' as := by
  rw [lost, taken]

theorem lost_error (failed : step s a = .error e) :
    lost step visible s (a :: as) = if visible a then [] else as.filter (visible ·) := by
  rw [lost, failed]

/-- A run that does not fail loses nothing. -/
theorem lost_of_returned (returned : (run step s as).failure = none) :
    lost step visible s as = [] := by
  induction as generalizing s with
  | nil => rfl
  | cons a as ih =>
    cases taken : step s a with
    | ok result =>
      rw [run_ok taken] at returned
      rw [lost_ok taken]
      exact ih returned
    | error e =>
      rw [run_error taken] at returned
      cases returned

theorem visible_of_lost : ∀ b ∈ lost step visible s as, visible b := by
  intro b member
  induction as generalizing s with
  | nil => cases member
  | cons a as ih =>
    cases taken : step s a with
    | ok result =>
      rw [lost_ok taken] at member
      exact ih member
    | error e =>
      rw [lost_error taken] at member
      split at member
      · cases member
      · simpa using (List.mem_filter.mp member).2

variable {seen : β → Prop} [DecidablePred seen] {related : σ → σ → Prop}

/-- Without the inputs that are not visible a run does what is seen of it, and goes on with
what it has lost. -/
theorem Unwinds.resumes (unwinds : Unwinds step visible seen related) (start : related s t) :
    ∃ t', related (run step s as).state t' ∧
      Resumes seen (run step s as) (run step t (as.filter (visible ·)))
        (run step t' (lost step visible s as)) := by
  induction as generalizing s t with
  | nil => exact ⟨t, start, rfl, rfl⟩
  | cons a as ih =>
    cases taken : step s a with
    | error e =>
      refine ⟨t, ?_, ?_⟩
      · rw [run_error taken]
        exact start
      · rw [run_error taken, lost_error taken]
        by_cases shows : visible a
        · -- both runs end here
          rw [List.filter_cons_of_pos (by simpa using shows), if_pos shows,
            run_error (unwinds.fails start shows taken)]
          exact ⟨rfl, rfl⟩
        · -- the other run goes on with everything visible that is left
          rw [List.filter_cons_of_neg (by simpa using shows), if_neg shows]
          exact ⟨rfl, rfl⟩
    | ok result =>
      obtain ⟨s', out⟩ := result
      rw [run_ok taken, lost_ok taken]
      by_cases shows : visible a
      · -- both runs take the input
        obtain ⟨⟨t', same, next⟩, all⟩ := unwinds.shown start shows taken
        obtain ⟨u, last, state, outputs⟩ := ih next
        have keeps : out.filter (seen ·) = out := by simpa using all
        rw [List.filter_cons_of_pos (by simpa using shows), run_ok same]
        refine ⟨u, last, state, ?_⟩
        simp only [Course.after, List.filter_append, keeps, outputs, List.append_assoc]
      · -- only the first run takes it
        obtain ⟨next, none⟩ := unwinds.hidden start shows taken
        obtain ⟨u, last, state, outputs⟩ := ih next
        have drops : out.filter (seen ·) = [] := by simpa using none
        rw [List.filter_cons_of_neg (by simpa using shows)]
        refine ⟨u, last, state, ?_⟩
        simp only [Course.after, List.filter_append, drops, List.nil_append, outputs]

end Lost

end Unwinding
