import Mathlib.Algebra.BigOperators.Group.Finset.Basic
import Mathlib.Logic.Function.Basic
import Ruccoin.Foundation.Transition

/-!
# Replicated logs

Entries are appended to one log, and every replica applies them, each at most once and in an
order of its own. What a replica has applied is known from the positions in the log; where
only sums matter, two replicas differ by what one has applied and the other has not.
-/

/-- The log, and the positions that each replica has applied, in order. -/
structure ReplicatedLog (E : Type*) where
  entries : List E
  applied : Nat → List Nat

namespace ReplicatedLog

variable {E : Type*}

inductive Move (E : Type*) where
  | append (e : E)
  | apply (i k : Nat)

def empty : ReplicatedLog E := ⟨[], fun _ => []⟩

def step (log : ReplicatedLog E) : Move E → Option (ReplicatedLog E)
  | .append e => some { log with entries := log.entries ++ [e] }
  | .apply i k =>
    if k < log.entries.length ∧ k ∉ log.applied i then
      some { log with applied := Function.update log.applied i (log.applied i ++ [k]) }
    else none

abbrev Reachable (log : ReplicatedLog E) : Prop :=
  Transition.Reach step (fun _ _ => True) empty log

/-- Positions are in the log, and no replica applied one twice. -/
structure Sound (log : ReplicatedLog E) : Prop where
  within : ∀ i, ∀ k ∈ log.applied i, k < log.entries.length
  nodup : ∀ i, (log.applied i).Nodup

variable {log log' : ReplicatedLog E}

theorem sound_step {m : Move E} (sound : log.Sound) (taken : step log m = some log') :
    log'.Sound := by
  cases m with
  | append e =>
    cases taken
    refine ⟨fun i k member => ?_, sound.nodup⟩
    have old := sound.within i k member
    simp only [List.length_append, List.length_singleton]
    omega
  | apply i k =>
    obtain ⟨⟨below, fresh⟩, same⟩ := Option.ite_none_right_eq_some.mp taken
    cases same
    constructor
    · intro j l member
      dsimp only at member ⊢
      rw [Function.update_apply] at member
      split at member
      next =>
        rcases List.mem_append.mp member with old | new
        · exact sound.within i l old
        · rw [List.mem_singleton.mp new]
          exact below
      next => exact sound.within j l member
    · intro j
      dsimp only
      rw [Function.update_apply]
      split
      next =>
        refine List.Nodup.append (sound.nodup i) (List.nodup_singleton k) ?_
        exact List.disjoint_singleton.mpr fresh
      next => exact sound.nodup j

theorem sound (reached : log.Reachable) : log.Sound := by
  apply reached.invariant (P := Sound)
  · exact ⟨fun i k => nofun, fun i => List.nodup_nil⟩
  · exact fun _ _ _ _ sound _ taken => sound_step sound taken

/-- The entries that a replica has applied, in its order. -/
def replay (log : ReplicatedLog E) (i : Nat) : List E :=
  (log.applied i).filterMap (log.entries[·]?)

/-! ### Sums over what was applied -/

section Sums

variable {M : Type*} [AddCommMonoid M] (measure : E → M)

/-- The measure of the entry at a position. -/
def weight (log : ReplicatedLog E) (k : Nat) : M := (log.entries[k]?).elim 0 measure

/-- The positions that replica `j` has applied and replica `i` has not. -/
def ahead (log : ReplicatedLog E) (i j : Nat) : Finset Nat :=
  (log.applied j).toFinset \ (log.applied i).toFinset

/-- The order in which a replica applied the entries does not matter for the sum. -/
theorem sum_replay (sound : log.Sound) (i : Nat) :
    ((log.replay i).map measure).sum = ∑ k ∈ (log.applied i).toFinset, log.weight measure k := by
  rw [List.sum_toFinset _ (sound.nodup i), replay]
  induction log.applied i with
  | nil => rfl
  | cons k ks ih =>
    rw [List.map_cons, List.sum_cons, ← ih, weight, List.filterMap_cons]
    cases log.entries[k]? with
    | none => exact (zero_add _).symm
    | some e => rfl

/-- With what the other has applied besides, two replicas have the same sum. -/
theorem sum_replay_ahead (sound : log.Sound) (i j : Nat) :
    ((log.replay i).map measure).sum + ∑ k ∈ log.ahead i j, log.weight measure k =
      ((log.replay j).map measure).sum + ∑ k ∈ log.ahead j i, log.weight measure k := by
  rw [sum_replay measure sound, sum_replay measure sound, ahead, ahead,
    ← Finset.sum_union Finset.disjoint_sdiff, ← Finset.sum_union Finset.disjoint_sdiff,
    Finset.union_sdiff_self_eq_union, Finset.union_sdiff_self_eq_union, Finset.union_comm]

end Sums

end ReplicatedLog
