import Mathlib.Data.List.AList
import Mathlib.Data.List.Induction

/-!
# Stores filled from a list

The entries of a list are written to a store one after the other. In the end a key has its
last entry in the list, or what the store had for it before when the list has none.
-/

namespace LastWrite

variable {α β : Type*} [DecidableEq α]

def writeAll (s : AList fun _ : α => β) (entries : List (α × β)) : AList fun _ : α => β :=
  entries.foldl (fun s e => s.insert e.1 e.2) s

/-- The last entry of `a` is `b`. -/
def IsLast (entries : List (α × β)) (a : α) (b : β) : Prop :=
  ∃ before after, entries = before ++ (a, b) :: after ∧ a ∉ after.map Prod.fst

variable {s : AList fun _ : α => β} {entries : List (α × β)} {a : α} {b : β}

theorem writeAll_concat (s : AList fun _ : α => β) (entries : List (α × β)) (e : α × β) :
    writeAll s (entries ++ [e]) = (writeAll s entries).insert e.1 e.2 :=
  List.foldl_concat ..

omit [DecidableEq α] in
theorem isLast_concat_self (entries : List (α × β)) (e : α × β) :
    IsLast (entries ++ [e]) e.1 b ↔ b = e.2 := by
  constructor
  · rintro ⟨before, after, split, final⟩
    rcases List.eq_nil_or_concat after with rfl | ⟨rest, last, rfl⟩
    · -- nothing behind it: it is the new entry
      have same := (List.append_inj' split rfl).2
      exact (congrArg Prod.snd (List.singleton_inj.mp same)).symm
    · -- the last entry would be an earlier one of the same key
      rw [List.concat_eq_append, ← List.cons_append, ← List.append_assoc] at split
      have same := List.singleton_inj.mp (List.append_inj' split rfl).2
      simp [same] at final
  · rintro rfl
    exact ⟨entries, [], rfl, List.not_mem_nil⟩

omit [DecidableEq α] in
theorem isLast_concat_other {e : α × β} (other : a ≠ e.1) :
    IsLast (entries ++ [e]) a b ↔ IsLast entries a b := by
  constructor
  · rintro ⟨before, after, split, final⟩
    rcases List.eq_nil_or_concat after with rfl | ⟨rest, last, rfl⟩
    · -- the new entry is one of another key
      have same := List.singleton_inj.mp (List.append_inj' split rfl).2
      exact absurd (congrArg Prod.fst same).symm other
    · rw [List.concat_eq_append, ← List.cons_append, ← List.append_assoc] at split
      refine ⟨before, rest, (List.append_inj' split rfl).1, fun member => final ?_⟩
      rw [List.concat_eq_append, List.map_append]
      exact List.mem_append_left _ member
  · rintro ⟨before, after, rfl, final⟩
    refine ⟨before, after ++ [e], by simp, ?_⟩
    rw [List.map_append, List.mem_append, not_or]
    exact ⟨final, fun member => other (List.mem_singleton.mp member)⟩

theorem mem_writeAll : a ∈ writeAll s entries ↔ a ∈ s ∨ a ∈ entries.map Prod.fst := by
  induction entries using List.reverseRecOn with
  | nil => simp [writeAll]
  | append_singleton entries e ih =>
    rw [writeAll_concat, AList.mem_insert, ih, List.map_append, List.mem_append]
    simp only [List.map_cons, List.map_nil, List.mem_singleton]
    exact or_rotate

theorem lookup_of_unlisted (unlisted : a ∉ entries.map Prod.fst) :
    (writeAll s entries).lookup a = s.lookup a := by
  induction entries using List.reverseRecOn with
  | nil => rfl
  | append_singleton entries e ih =>
    rw [List.map_append, List.mem_append, not_or] at unlisted
    have other : a ≠ e.1 := fun here => unlisted.2 (List.mem_singleton.mpr here)
    rw [writeAll_concat, AList.lookup_insert_ne other]
    exact ih unlisted.1

theorem lookup_of_listed (listed : a ∈ entries.map Prod.fst) :
    (writeAll s entries).lookup a = some b ↔ IsLast entries a b := by
  induction entries using List.reverseRecOn with
  | nil => cases listed
  | append_singleton entries e ih =>
    rw [writeAll_concat]
    -- the new entry counts for its own key, and the list before it for the others
    by_cases here : a = e.1
    · subst here
      rw [AList.lookup_insert, isLast_concat_self, Option.some.injEq, eq_comm]
    · rw [AList.lookup_insert_ne here, isLast_concat_other here]
      apply ih
      rw [List.map_append, List.mem_append] at listed
      exact listed.resolve_right fun last => here (List.mem_singleton.mp last)

omit [DecidableEq α] in
theorem IsLast.listed (last : IsLast entries a b) : a ∈ entries.map Prod.fst := by
  obtain ⟨before, after, rfl, -⟩ := last
  simp

/-- A store that was empty has the last entry of each key, and nothing else. -/
theorem lookup_empty_writeAll :
    (writeAll (∅ : AList fun _ : α => β) entries).lookup a = some b ↔ IsLast entries a b := by
  by_cases listed : a ∈ entries.map Prod.fst
  · exact lookup_of_listed listed
  · rw [lookup_of_unlisted listed, AList.lookup_empty]
    exact iff_of_false nofun fun last => listed last.listed

end LastWrite
