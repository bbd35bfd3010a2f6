import Mathlib.Tactic.TypeStar

/-!
# Computations that stop halfway

A computation on a state that may stop with a fault leaves behind the state it had reached.
Doing the same for each element of a list stops at the first fault.
-/

/-- The state a computation left behind, and the fault that stopped it if one did. -/
structure Outcome (σ ε : Type*) where
  state : σ
  fault : Option ε

namespace Outcome

variable {σ ε α : Type*}

/-- Go on from the state that was reached, unless a fault stopped the computation. -/
def andThen (o : Outcome σ ε) (next : σ → Outcome σ ε) : Outcome σ ε :=
  match o.fault with
  | none => next o.state
  | some _ => o

def each (f : σ → α → Outcome σ ε) : σ → List α → Outcome σ ε
  | s, [] => ⟨s, none⟩
  | s, a :: as => (f s a).andThen (each f · as)

theorem andThen_of_none {o : Outcome σ ε} {next : σ → Outcome σ ε} (done : o.fault = none) :
    o.andThen next = next o.state := by
  simp only [andThen, done]

theorem andThen_of_some {o : Outcome σ ε} {next : σ → Outcome σ ε} {e : ε}
    (stopped : o.fault = some e) : o.andThen next = o := by
  simp only [andThen, stopped]

theorem andThen_of_stopped {o : Outcome σ ε} {next : σ → Outcome σ ε} (stopped : o.fault ≠ none) :
    o.andThen next = o := by
  obtain ⟨e, fault⟩ := Option.ne_none_iff_exists'.mp stopped
  exact andThen_of_some fault

theorem andThen_assoc (o : Outcome σ ε) (f g : σ → Outcome σ ε) :
    (o.andThen f).andThen g = o.andThen fun s => (f s).andThen g := by
  cases fault : o.fault with
  | none => rw [andThen_of_none fault, andThen_of_none fault]
  | some e => rw [andThen_of_some fault, andThen_of_some fault, andThen_of_some fault]

/-- What both parts keep is kept. -/
theorem andThen_kept {P : σ → Prop} {o : Outcome σ ε} {next : σ → Outcome σ ε} (here : P o.state)
    (kept : ∀ s, P s → P (next s).state) : P (o.andThen next).state := by
  cases fault : o.fault with
  | none =>
    rw [andThen_of_none fault]
    exact kept o.state here
  | some e =>
    rw [andThen_of_some fault]
    exact here

variable (f : σ → α → Outcome σ ε)

@[simp] theorem each_nil (s : σ) : each f s [] = ⟨s, none⟩ := rfl

theorem each_cons (s : σ) (a : α) (as : List α) :
    each f s (a :: as) = (f s a).andThen (each f · as) := rfl

variable {f} in
theorem each_kept {P : σ → Prop} (kept : ∀ s a, P s → P (f s a).state) {s : σ} (start : P s)
    (as : List α) : P (each f s as).state := by
  induction as generalizing s with
  | nil => exact start
  | cons a as ih => exact andThen_kept (kept s a start) fun s' here => ih here

theorem each_singleton (s : σ) (a : α) : each f s [a] = f s a := by
  rw [each_cons]
  obtain ⟨state, fault⟩ := f s a
  cases fault with
  | none => rfl
  | some e => rfl

theorem each_append (s : σ) (as bs : List α) :
    each f s (as ++ bs) = (each f s as).andThen (each f · bs) := by
  induction as generalizing s with
  | nil => rw [List.nil_append, each_nil, andThen_of_none rfl]
  | cons a as ih =>
    rw [List.cons_append, each_cons, each_cons, andThen_assoc]
    congr 1
    funext s'
    exact ih s'

/-- The computation stops at the first element that raises a fault, and leaves what that
element leaves on the state the ones before it made. -/
theorem each_stopped {s : σ} {as : List α} {e : ε} (stopped : (each f s as).fault = some e) :
    ∃ before a after, as = before ++ a :: after ∧ (each f s before).fault = none ∧
      (f (each f s before).state a).fault = some e ∧
      (each f s as).state = (f (each f s before).state a).state := by
  induction as generalizing s with
  | nil => cases stopped
  | cons a as ih =>
    rw [each_cons] at stopped ⊢
    cases fault : (f s a).fault with
    | some e' =>
      rw [andThen_of_some fault] at stopped ⊢
      exact ⟨[], a, as, rfl, rfl, stopped, rfl⟩
    | none =>
      rw [andThen_of_none fault] at stopped ⊢
      obtain ⟨before, b, after, rfl, done, here, state⟩ := ih stopped
      refine ⟨a :: before, b, after, rfl, ?_⟩
      rw [each_cons, andThen_of_none fault]
      exact ⟨done, here, state⟩

/-- Lists of lists are worked off like the one long list. -/
theorem each_flatten (s : σ) (ass : List (List α)) :
    each (each f) s ass = each f s ass.flatten := by
  induction ass generalizing s with
  | nil => rfl
  | cons as ass ih =>
    rw [each_cons, List.flatten_cons, each_append]
    congr 1
    funext s'
    exact ih s'

end Outcome
