import Mathlib.Algebra.BigOperators.Group.Finset.Piecewise
import Mathlib.Algebra.Order.Monoid.Defs
import Mathlib.Data.List.Perm.Subperm

/-!
# Ledgers of additive entries

An entry adds an amount to one account. What a list of entries does to an account depends
only on the entries of that account, and not on their order; what it does to a set of
accounts that contains all of them is the sum of the amounts.
-/

namespace Ledger

variable {α A : Type*} [DecidableEq α] [AddCommGroup A]

/-- What the entries add to an account. -/
def moved (entries : List (α × A)) (a : α) : A :=
  ((entries.filter fun e => e.1 = a).map Prod.snd).sum

@[simp] theorem moved_nil (a : α) : moved ([] : List (α × A)) a = 0 := rfl

theorem moved_cons (e : α × A) (entries : List (α × A)) (a : α) :
    moved (e :: entries) a = (if e.1 = a then e.2 else 0) + moved entries a := by
  unfold moved
  by_cases here : e.1 = a
  · simp [here]
  · simp [here]

theorem moved_append (entries rest : List (α × A)) (a : α) :
    moved (entries ++ rest) a = moved entries a + moved rest a := by
  simp [moved]

theorem moved_flatMap {β : Type*} (f : β → List (α × A)) (l : List β) (a : α) :
    moved (l.flatMap f) a = (l.map fun b => moved (f b) a).sum := by
  induction l with
  | nil => rfl
  | cons b l ih => rw [List.flatMap_cons, moved_append, ih, List.map_cons, List.sum_cons]

/-- The order of the entries does not matter. -/
theorem moved_perm {entries entries' : List (α × A)} (perm : entries.Perm entries') (a : α) :
    moved entries a = moved entries' a :=
  ((perm.filter _).map _).sum_eq

/-- Entries of other accounts do not matter. -/
theorem moved_of_forall_ne {entries : List (α × A)} {a : α} (others : ∀ e ∈ entries, e.1 ≠ a) :
    moved entries a = 0 := by
  induction entries with
  | nil => rfl
  | cons e entries ih =>
    rw [moved_cons, if_neg (others e List.mem_cons_self), zero_add]
    exact ih fun e' member => others e' (List.mem_cons_of_mem e member)

/-- Over accounts that include all those of the entries, the entries add up. -/
theorem sum_moved (accounts : Finset α) (entries : List (α × A))
    (within : ∀ e ∈ entries, e.1 ∈ accounts) :
    ∑ a ∈ accounts, moved entries a = (entries.map Prod.snd).sum := by
  induction entries with
  | nil => simp
  | cons e entries ih =>
    have first := within e List.mem_cons_self
    simp only [moved_cons, Finset.sum_add_distrib, List.map_cons, List.sum_cons]
    rw [ih fun e' member => within e' (List.mem_cons_of_mem e member),
      Finset.sum_ite_eq accounts e.1, if_pos first]

/-- Some of the entries, where none is negative, add no more than all of them. -/
theorem moved_le_of_subperm [PartialOrder A] [IsOrderedAddMonoid A] {entries entries' : List (α × A)}
    (some : entries.Subperm entries') (nonneg : ∀ e ∈ entries', 0 ≤ e.2) (a : α) :
    moved entries a ≤ moved entries' a := by
  obtain ⟨part, perm, sublist⟩ := some
  rw [← moved_perm perm]
  clear perm
  induction sublist with
  | slnil => exact le_refl _
  | @cons part all e _ ih =>
    rw [moved_cons]
    have first : 0 ≤ if e.1 = a then e.2 else 0 := by
      split
      · exact nonneg e List.mem_cons_self
      · exact le_refl 0
    exact (ih fun e' member => nonneg e' (List.mem_cons_of_mem e member)).trans
      (le_add_of_nonneg_left first)
  | @cons_cons part all e _ ih =>
    rw [moved_cons, moved_cons]
    exact add_le_add_right (ih fun e' member => nonneg e' (List.mem_cons_of_mem e member)) _

end Ledger
