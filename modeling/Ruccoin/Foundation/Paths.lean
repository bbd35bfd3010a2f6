import Mathlib.Data.List.Chain
import Mathlib.Data.List.Infix
import Mathlib.Data.List.Nodup

/-!
# Maximal paths

A path follows a relation from a start without visiting anything twice, and is maximal when
the relation leads from its end only to what was visited. There may be many such paths; where
everything has at most one successor there is only one.
-/

namespace Paths

variable {α : Type*} {links : α → α → Prop} {start : α} {path other : List α}

structure Maximal (links : α → α → Prop) (start : α) (path : List α) : Prop where
  first : path.head? = some start
  linked : path.IsChain links
  distinct : path.Nodup
  maximal : ∀ last ∈ path.getLast?, ∀ next, links last next → next ∈ path

/-- Paths from one start along unique successors differ in their lengths only. -/
theorem initial_or_initial (functional : ∀ a b c, links a b → links a c → b = c)
    (heads : path.head? = other.head?) (linked : path.IsChain links)
    (linked' : other.IsChain links) : path <+: other ∨ other <+: path := by
  induction path generalizing other with
  | nil => exact Or.inl List.nil_prefix
  | cons a path ih =>
    cases other with
    | nil => exact Or.inr List.nil_prefix
    | cons b other =>
      obtain rfl : a = b := by simpa using heads
      rw [List.isChain_cons] at linked linked'
      simp only [List.cons_prefix_cons, true_and]
      cases path with
      | nil => exact Or.inl List.nil_prefix
      | cons c path =>
        cases other with
        | nil => exact Or.inr List.nil_prefix
        | cons d other =>
          have same : c = d := functional a c d (linked.1 c rfl) (linked'.1 d rfl)
          exact ih (by rw [same]; rfl) linked.2 linked'.2

/-- A maximal path does not continue into another one. -/
theorem Maximal.eq_of_initial (here : Maximal links start path)
    (there : Maximal links start other) (initial : path <+: other) : path = other := by
  obtain ⟨rest, rfl⟩ := initial
  cases rest with
  | nil => rw [List.append_nil]
  | cons next rest =>
    obtain ⟨last, ends⟩ : ∃ last, path.getLast? = some last := by
      rw [← Option.isSome_iff_exists, List.getLast?_isSome]
      rintro rfl
      exact absurd here.first (by simp)
    obtain ⟨-, -, joint⟩ := List.isChain_append.mp there.linked
    -- the next element would have been visited twice
    have visited := here.maximal last ends next (joint last ends next rfl)
    have apart := (List.nodup_append.mp there.distinct).2.2
    exact absurd rfl (apart next visited next List.mem_cons_self)

/-- Where successors are unique there is one maximal path. -/
theorem Maximal.unique (functional : ∀ a b c, links a b → links a c → b = c)
    (here : Maximal links start path) (there : Maximal links start other) : path = other := by
  have heads : path.head? = other.head? := here.first.trans there.first.symm
  rcases initial_or_initial functional heads here.linked there.linked with initial | initial
  · exact here.eq_of_initial there initial
  · exact (there.eq_of_initial here initial).symm

end Paths
