import Mathlib.Data.List.Induction
import Mathlib.Tactic.TypeStar

/-!
# Labelled transition systems

A system is a partial step function: a label that is not enabled in a state has no
successor there. Runs are lists of labels, and a *guard* restricts the labels that may
be taken in a state, so that an assumption about the environment or about the schedule
is a guard and not a change of the system.
-/

namespace Transition

variable {σ α : Type*} (step : σ → α → Option σ)

/-- Run the labels in order; a label that is not enabled ends the run with no state. -/
def exec : σ → List α → Option σ
  | s, [] => some s
  | s, a :: as => (step s a).bind (exec · as)

/-- Every label of the run meets the guard in the state it is taken from. -/
def Meets (guard : σ → α → Prop) : σ → List α → Prop
  | _, [] => True
  | s, a :: as => guard s a ∧ match step s a with
    | some s' => Meets guard s' as
    | none => True

instance Meets.decidable (guard : σ → α → Prop) [∀ s a, Decidable (guard s a)] :
    ∀ s as, Decidable (Meets step guard s as)
  | _, [] => isTrue trivial
  | s, a :: as => match taken : step s a with
    | some s' =>
      have := Meets.decidable guard s' as
      decidable_of_iff (guard s a ∧ Meets step guard s' as) (by simp only [Meets, taken])
    | none => decidable_of_iff (guard s a) (by simp only [Meets, taken, and_true])

/-- Every state the run passes through has the property, the first and the last included. -/
def Always (P : σ → Prop) : σ → List α → Prop
  | s, [] => P s
  | s, a :: as => P s ∧ match step s a with
    | some s' => Always P s' as
    | none => True

/-- The states reached from `s₀` by steps that all meet the guard. -/
inductive Reach (guard : σ → α → Prop) (s₀ : σ) : σ → Prop where
  | start : Reach guard s₀ s₀
  | step {s s' : σ} {a : α} :
      Reach guard s₀ s → guard s a → step s a = some s' → Reach guard s₀ s'

variable {step} {guard : σ → α → Prop} {s₀ : σ}

/-- The invariant rule: what holds at the start and is kept by every guarded step holds
in every reachable state. -/
theorem Reach.invariant {P : σ → Prop} (start : P s₀)
    (kept : ∀ s a s', Reach step guard s₀ s → P s → guard s a → step s a = some s' → P s')
    {s : σ} (reached : Reach step guard s₀ s) : P s := by
  induction reached with
  | start => exact start
  | step before allowed taken ih => exact kept _ _ _ before ih allowed taken

/-- A stronger guard reaches fewer states. -/
theorem Reach.mono {stronger : σ → α → Prop} (implies : ∀ s a, stronger s a → guard s a)
    {s : σ} (reached : Reach step stronger s₀ s) : Reach step guard s₀ s := by
  induction reached with
  | start => exact .start
  | step _ allowed taken ih => exact .step ih (implies _ _ allowed) taken

theorem Reach.trans {s₁ s : σ} (first : Reach step guard s₀ s₁)
    (rest : Reach step guard s₁ s) : Reach step guard s₀ s := by
  induction rest with
  | start => exact first
  | step _ allowed taken ih => exact .step ih allowed taken

theorem exec_append (s : σ) (as bs : List α) :
    exec step s (as ++ bs) = (exec step s as).bind (exec step · bs) := by
  induction as generalizing s with
  | nil => rfl
  | cons a as ih =>
    simp only [List.cons_append, exec]
    cases step s a with
    | none => rfl
    | some s' => exact ih s'

/-- A run that takes one step more. -/
theorem exec_concat {s s' : σ} {as : List α} {a : α} :
    exec step s (as ++ [a]) = some s' ↔
      ∃ s₁, exec step s as = some s₁ ∧ step s₁ a = some s' := by
  rw [exec_append, Option.bind_eq_some_iff]
  have last : ∀ s₁, exec step s₁ [a] = step s₁ a := by
    intro s₁
    cases taken : step s₁ a <;> simp [exec, taken]
  simp only [last]

theorem meets_append (s : σ) (as bs : List α) :
    Meets step guard s (as ++ bs) ↔
      Meets step guard s as ∧ ∀ s', exec step s as = some s' → Meets step guard s' bs := by
  induction as generalizing s with
  | nil => simp [Meets, exec]
  | cons a as ih =>
    simp only [List.cons_append, Meets, exec, and_assoc]
    cases step s a with
    | none => simp
    | some s' => simp [ih]

/-- A guard that looks at the label only is met label by label. -/
theorem meets_of_labels {p : α → Prop} (s : σ) {run : List α} (all : ∀ a ∈ run, p a) :
    Meets step (fun _ a => p a) s run := by
  induction run generalizing s with
  | nil => trivial
  | cons a run ih =>
    refine ⟨all a List.mem_cons_self, ?_⟩
    cases step s a with
    | none => trivial
    | some s' => exact ih s' fun b member => all b (List.mem_cons_of_mem a member)

theorem meets_true (s : σ) (run : List α) : Meets step (fun _ _ => True) s run :=
  meets_of_labels (p := fun _ => True) s fun _ _ => trivial

theorem meets_and {other : σ → α → Prop} (s : σ) (run : List α) :
    Meets step (fun s a => guard s a ∧ other s a) s run ↔
      Meets step guard s run ∧ Meets step other s run := by
  induction run generalizing s with
  | nil => simp [Meets]
  | cons a run ih =>
    simp only [Meets]
    cases step s a with
    | none => simp
    | some s' =>
      simp only [ih]
      constructor
      · rintro ⟨⟨first, second⟩, rest, rest'⟩
        exact ⟨⟨first, rest⟩, second, rest'⟩
      · rintro ⟨⟨first, rest⟩, second, rest'⟩
        exact ⟨⟨first, second⟩, rest, rest'⟩

/-- A run that meets the guard ends in a reachable state. -/
theorem reach_of_exec {s : σ} {run : List α} (meets : Meets step guard s₀ run)
    (ran : exec step s₀ run = some s) : Reach step guard s₀ s := by
  induction run using List.reverseRecOn generalizing s with
  | nil =>
    cases ran
    exact .start
  | append_singleton as a ih =>
    -- the last label is taken from the state where the others lead
    obtain ⟨s₁, ran₁, taken⟩ := exec_concat.mp ran
    obtain ⟨meets₁, meetsLast⟩ := (meets_append s₀ as [a]).mp meets
    have allowed : guard s₁ a := (meetsLast s₁ ran₁).1
    exact .step (ih meets₁ ran₁) allowed taken

theorem Always.first {P : σ → Prop} {run : List α} (always : Always step P s₀ run) : P s₀ := by
  cases run with
  | nil => exact always
  | cons => exact always.1

theorem Always.last {P : σ → Prop} {s : σ} {run : List α} (always : Always step P s₀ run)
    (ran : exec step s₀ run = some s) : P s := by
  induction run generalizing s₀ with
  | nil =>
    cases ran
    exact always
  | cons a run ih =>
    obtain ⟨s₁, taken, rest⟩ := Option.bind_eq_some_iff.mp ran
    have after := always.2
    rw [taken] at after
    exact ih after rest

theorem Always.mono {P Q : σ → Prop} (implies : ∀ s, P s → Q s) {run : List α}
    (always : Always step P s₀ run) : Always step Q s₀ run := by
  induction run generalizing s₀ with
  | nil => exact implies _ always
  | cons a run ih =>
    refine ⟨implies _ always.1, ?_⟩
    have after := always.2
    cases taken : step s₀ a with
    | none => trivial
    | some s₁ =>
      rw [taken] at after
      exact ih after

/-- What holds at the start and is kept by every guarded step holds all along a run that
meets the guard. -/
theorem always_of_kept {P : σ → Prop} (start : P s₀)
    (kept : ∀ s a s', P s → guard s a → step s a = some s' → P s') {run : List α}
    (meets : Meets step guard s₀ run) : Always step P s₀ run := by
  induction run generalizing s₀ with
  | nil => exact start
  | cons a run ih =>
    refine ⟨start, ?_⟩
    have after := meets.2
    cases taken : step s₀ a with
    | none => trivial
    | some s₁ =>
      rw [taken] at after
      exact ih (kept s₀ a s₁ start meets.1 taken) after

/-- A property that one step keeps exactly when it meets a condition holds all along a run
exactly when all steps of the run meet the condition. -/
theorem always_iff_meets {P : σ → Prop} {cond : σ → α → Prop} {s : σ} {run : List α}
    (start : P s₀)
    (kept : ∀ s a s', Reach step guard s₀ s → P s → guard s a → step s a = some s' →
      (P s' ↔ cond s a))
    (meets : Meets step guard s₀ run) (ran : exec step s₀ run = some s) :
    Always step P s₀ run ↔ Meets step cond s₀ run := by
  -- the rest of the run starts from a state that was reached
  suffices tail : ∀ s₁, Reach step guard s₀ s₁ → P s₁ → Meets step guard s₁ run →
      exec step s₁ run = some s → (Always step P s₁ run ↔ Meets step cond s₁ run) from
    tail s₀ .start start meets ran
  clear meets ran
  induction run with
  | nil => exact fun s₁ _ here _ _ => ⟨fun _ => trivial, fun _ => here⟩
  | cons a run ih =>
    intro s₁ reached here meets ran
    obtain ⟨s₂, taken, rest⟩ := Option.bind_eq_some_iff.mp ran
    obtain ⟨allowed, later⟩ := meets
    have exact_here := kept s₁ a s₂ reached here allowed taken
    simp only [Always, Meets, taken] at later ⊢
    constructor
    · rintro ⟨-, always⟩
      have next := always.first
      exact ⟨exact_here.mp next, (ih s₂ (.step reached allowed taken) next later rest).mp always⟩
    · rintro ⟨met, rest_met⟩
      have next := exact_here.mpr met
      exact ⟨here, (ih s₂ (.step reached allowed taken) next later rest).mpr rest_met⟩

/-- A closed run that is executed to its end and ends in a state with `p`. -/
theorem exec_of_run (step : σ → α → Option σ) (s₀ : σ) (run : List α) {p : σ → Bool}
    (ends : (exec step s₀ run).map p = some true) :
    ∃ s, exec step s₀ run = some s ∧ p s = true :=
  Option.map_eq_some_iff.mp ends

/-- Reaching a state of one system from the states of another that simulates it. -/
theorem Reach.map {τ β : Type*} {step₂ : τ → β → Option τ} {guard₂ : τ → β → Prop}
    (view : σ → τ)
    (simulates : ∀ s a s', Reach step guard s₀ s → guard s a → step s a = some s' →
      view s' = view s ∨ ∃ b, guard₂ (view s) b ∧ step₂ (view s) b = some (view s'))
    {s : σ} (reached : Reach step guard s₀ s) :
    Reach step₂ guard₂ (view s₀) (view s) := by
  induction reached with
  | start => exact .start
  | step before allowed taken ih =>
    rcases simulates _ _ _ before allowed taken with same | ⟨b, allowed₂, taken₂⟩
    · -- a step the view does not show
      rw [same]; exact ih
    · exact .step ih allowed₂ taken₂

/-- Steps that each leave less to do can be taken until nothing is left. -/
theorem exhaust {P todo : σ → Prop} (size : σ → Nat)
    (go : ∀ s, P s → todo s → ∃ a s', guard s a ∧ step s a = some s' ∧ P s' ∧ size s' < size s)
    {s : σ} (start : P s) : ∃ s', Reach step guard s s' ∧ P s' ∧ ¬todo s' := by
  induction left : size s using Nat.strongRecOn generalizing s with
  | ind n ih =>
    by_cases more : todo s
    · obtain ⟨a, s₁, allowed, taken, kept, less⟩ := go s start more
      obtain ⟨s', later, kept', done⟩ := ih (size s₁) (left ▸ less) kept rfl
      exact ⟨s', (Reach.step .start allowed taken).trans later, kept', done⟩
    · exact ⟨s, .start, start, more⟩

end Transition
