import Mathlib.Data.List.Induction

/-!
# The first of a kind

A set that is ordered by a key alone takes an element in only if none with its key is there
yet. Whatever is inserted one after the other, it then holds the elements that came first
with their keys.
-/

namespace FirstWrite

variable {α κ : Type*} {key : α → κ} {xs : List α} {x y : α}

/-- The element is in the list, and none with its key comes before it. -/
def IsFirst (key : α → κ) (xs : List α) (x : α) : Prop :=
  ∃ before after, xs = before ++ x :: after ∧ ∀ u ∈ before, key u ≠ key x

theorem IsFirst.mem (first : IsFirst key xs x) : x ∈ xs := by
  obtain ⟨before, after, rfl, -⟩ := first
  exact List.mem_append_right before List.mem_cons_self

theorem isFirst_concat :
    IsFirst key (xs ++ [y]) x ↔ IsFirst key xs x ∨ x = y ∧ ∀ u ∈ xs, key u ≠ key y := by
  constructor
  · rintro ⟨before, after, split, new⟩
    rcases List.eq_nil_or_concat after with rfl | ⟨after, z, rfl⟩
    · obtain ⟨rfl, last⟩ := List.append_inj' split rfl
      obtain rfl := List.singleton_inj.mp last
      exact Or.inr ⟨rfl, new⟩
    · rw [List.concat_eq_append, ← List.cons_append, ← List.append_assoc] at split
      obtain ⟨rfl, -⟩ := List.append_inj' split rfl
      exact Or.inl ⟨before, after, rfl, new⟩
  · rintro (⟨before, after, rfl, new⟩ | ⟨rfl, new⟩)
    · exact ⟨before, after ++ [y], by simp, new⟩
    · exact ⟨xs, [], rfl, new⟩

/-- Every element has a first one of its kind. -/
theorem exists_isFirst (member : y ∈ xs) : ∃ x, IsFirst key xs x ∧ key x = key y := by
  induction xs using List.reverseRecOn generalizing y with
  | nil => cases member
  | append_singleton xs z ih =>
    simp only [isFirst_concat]
    rcases List.mem_append.mp member with old | last
    · obtain ⟨x, first, same⟩ := ih old
      exact ⟨x, Or.inl first, same⟩
    · obtain rfl := List.mem_singleton.mp last
      by_cases taken : ∃ u ∈ xs, key u = key y
      · obtain ⟨u, old, kind⟩ := taken
        obtain ⟨x, first, same⟩ := ih old
        exact ⟨x, Or.inl first, same.trans kind⟩
      · push Not at taken
        exact ⟨y, Or.inr ⟨rfl, taken⟩, rfl⟩

end FirstWrite
