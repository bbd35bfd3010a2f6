import Mathlib.Data.List.Perm.Basic

/-!
# Computations that can fail

When a sequence of fallible steps returns, each of its steps returned.
-/

namespace Result

variable {ε α β : Type*}

theorem bind_ok {x : Except ε α} {f : α → Except ε β} {b : β} :
    x.bind f = .ok b ↔ ∃ a, x = .ok a ∧ f a = .ok b := by
  cases x with
  | error e => simp [Except.bind]
  | ok a => simp [Except.bind]

theorem map_ok {x : Except ε α} {f : α → β} {b : β} :
    x.map f = .ok b ↔ ∃ a, x = .ok a ∧ f a = b := by
  cases x with
  | error e => simp [Except.map]
  | ok a => simp [Except.map]

theorem map_error {x : Except ε α} {f : α → β} {e : ε} :
    x.map f = .error e ↔ x = .error e := by
  cases x with
  | error e' => simp [Except.map]
  | ok a => simp [Except.map]

/-- A list of computations returns when each of them does. -/
theorem mapM_ok {f : α → Except ε β} {as : List α} {bs : List β} :
    as.mapM f = .ok bs ↔ List.Forall₂ (fun a b => f a = .ok b) as bs := by
  induction as generalizing bs with
  | nil =>
    rw [List.mapM_nil, List.forall₂_nil_left_iff]
    exact ⟨fun returned => (Except.ok.inj returned).symm, fun empty => by rw [empty]; rfl⟩
  | cons a as ih =>
    have unfolded : (a :: as).mapM f =
        (f a).bind fun b => (as.mapM f).bind fun bs => .ok (b :: bs) := List.mapM_cons
    rw [unfolded, bind_ok, List.forall₂_cons_left_iff]
    constructor
    · rintro ⟨b, first, rest⟩
      obtain ⟨bs', later, same⟩ := bind_ok.mp rest
      exact ⟨b, bs', first, ih.mp later, (Except.ok.inj same).symm⟩
    · rintro ⟨b, bs', first, later, rfl⟩
      exact ⟨b, first, bind_ok.mpr ⟨bs', ih.mpr later, rfl⟩⟩

/-- In another order the computations return as well. -/
theorem mapM_perm {f : α → Except ε β} {as as' : List α} {bs : List β} (perm : as'.Perm as)
    (returned : as.mapM f = .ok bs) : ∃ bs', as'.mapM f = .ok bs' ∧ bs'.Perm bs := by
  obtain ⟨bs', each, perm'⟩ := List.perm_comp_forall₂ perm (mapM_ok.mp returned)
  exact ⟨bs', mapM_ok.mpr each, perm'⟩

theorem mem_mapM_ok {f : α → Except ε β} {as : List α} {bs : List β} (returned : as.mapM f = .ok bs)
    {b : β} : b ∈ bs ↔ ∃ a ∈ as, f a = .ok b := by
  have each := mapM_ok.mp returned
  clear returned
  induction each with
  | nil => simp
  | cons first _ ih =>
    simp only [List.mem_cons, exists_eq_or_imp, ih, first, Except.ok.injEq]
    rw [eq_comm]

def Succeeds (x : Except ε α) : Prop := ∃ a, x = .ok a

theorem succeeds_iff_not_raises {x : Except ε α} : Succeeds x ↔ ¬∃ e, x = .error e := by
  cases x with
  | error e => simp [Succeeds]
  | ok a => simp [Succeeds]

/-- Whether the rest succeeds does not depend on what it is given. -/
theorem succeeds_bind {x : Except ε α} {f : α → Except ε β} {rest : Prop}
    (same : ∀ a, Succeeds (f a) ↔ rest) : Succeeds (x.bind f) ↔ Succeeds x ∧ rest := by
  constructor
  · rintro ⟨b, returned⟩
    obtain ⟨a, first, later⟩ := bind_ok.mp returned
    exact ⟨⟨a, first⟩, (same a).mp ⟨b, later⟩⟩
  · rintro ⟨⟨a, first⟩, later⟩
    obtain ⟨b, returned⟩ := (same a).mpr later
    exact ⟨b, bind_ok.mpr ⟨a, first, returned⟩⟩

@[simp] theorem succeeds_ok (a : α) : Succeeds (.ok a : Except ε α) ↔ True :=
  iff_true_intro ⟨a, rfl⟩

theorem succeeds_mapM {f : α → Except ε β} {as : List α} :
    Succeeds (as.mapM f) ↔ ∀ a ∈ as, Succeeds (f a) := by
  induction as with
  | nil => exact iff_of_true ⟨[], rfl⟩ (List.forall_mem_nil _)
  | cons a as ih =>
    have unfolded : (a :: as).mapM f =
        (f a).bind fun b => (as.mapM f).bind fun bs => .ok (b :: bs) := List.mapM_cons
    have rest : ∀ b, Succeeds ((as.mapM f).bind fun bs => (.ok (b :: bs) : Except ε (List β))) ↔
        Succeeds (as.mapM f) := by
      intro b
      rw [succeeds_bind fun bs => succeeds_ok (b :: bs), and_true]
    rw [unfolded, succeeds_bind rest, ih, List.forall_mem_cons]

/-- What the computation returns, if it returns, has `p`. -/
def Returns (x : Except ε α) (p : α → Prop) : Prop := ∀ a, x = .ok a → p a

instance {p : α → Prop} [DecidablePred p] : ∀ x : Except ε α, Decidable (Returns x p)
  | .ok a => decidable_of_iff (p a) ⟨fun holds _ same => Except.ok.inj same ▸ holds,
      fun all => all a rfl⟩
  | .error _ => isTrue fun _ same => nomatch same

/-- A closed computation that returns a value with `p`. -/
theorem ok_of_run {x : Except ε α} {p : α → Bool}
    (returns : (match x with | .ok a => p a | .error _ => false) = true) :
    ∃ a, x = .ok a ∧ p a = true := by
  cases x with
  | error e => cases returns
  | ok a => exact ⟨a, rfl, returns⟩

end Result
