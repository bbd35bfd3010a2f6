import Mathlib.Algebra.Order.Group.Multiset
import Ruccoin.Foundation.Transition

/-!
# From the intake to the books

Items come in and are kept in a stock. A batch is gathered from the stock and stays in it
until it is settled, when it leaves the stock, perhaps together with others that are lost.
No item is settled more often than it came in.
-/

/-- What has come in, what is kept, the batch that was gathered, and what was settled. -/
structure Intake (α : Type*) where
  taken : Multiset α
  stock : Multiset α
  batch : Option (Multiset α)
  settled : Multiset α

namespace Intake

variable {α : Type*} [DecidableEq α]

inductive Move (α : Type*) where
  | keep (x : α)
  /-- The item is not kept. -/
  | pass (x : α)
  | gather (batch : Multiset α)
  | settle (rest : Multiset α)

def step (s : Intake α) : Move α → Option (Intake α)
  | .keep x => some { s with taken := x ::ₘ s.taken, stock := x ::ₘ s.stock }
  | .pass x => some { s with taken := x ::ₘ s.taken }
  | .gather batch =>
    if s.batch = none ∧ batch ≤ s.stock then some { s with batch := some batch } else none
  | .settle rest =>
    match s.batch with
    | some batch =>
      if batch + rest ≤ s.stock then
        some { s with stock := rest, batch := none, settled := s.settled + batch }
      else none
    | none => none

/-- The items of the stock are those to begin with. -/
def opening (stock : Multiset α) : Intake α := ⟨stock, stock, none, 0⟩

/-- What was settled and what is kept has come in, and the batch is kept. -/
structure Sound (s : Intake α) : Prop where
  booked : s.settled + s.stock ≤ s.taken
  batched : ∀ batch, s.batch = some batch → batch ≤ s.stock

variable {s s' : Intake α}

theorem sound_step {m : Move α} (sound : s.Sound) (moved : s.step m = some s') : s'.Sound := by
  cases m with
  | keep x =>
    cases moved
    constructor
    · rw [Multiset.add_cons]
      exact Multiset.cons_le_cons x sound.booked
    · exact fun batch here => (sound.batched batch here).trans (Multiset.le_cons_self _ x)
  | pass x =>
    cases moved
    exact ⟨sound.booked.trans (Multiset.le_cons_self _ x), sound.batched⟩
  | gather batch =>
    obtain ⟨⟨-, within⟩, same⟩ := Option.ite_none_right_eq_some.mp moved
    cases same
    refine ⟨sound.booked, fun b here => ?_⟩
    cases here
    exact within
  | settle rest =>
    simp only [step] at moved
    split at moved
    next batch gathered =>
      obtain ⟨within, same⟩ := Option.ite_none_right_eq_some.mp moved
      cases same
      refine ⟨?_, fun b here => by cases here⟩
      calc s.settled + batch + rest
          = s.settled + (batch + rest) := add_assoc ..
        _ ≤ s.settled + s.stock := by gcongr
        _ ≤ s.taken := sound.booked
    next => cases moved

abbrev Reachable (stock : Multiset α) (s : Intake α) : Prop :=
  Transition.Reach step (fun _ _ => True) (opening stock) s

theorem sound {stock : Multiset α} (reached : Reachable stock s) : s.Sound := by
  apply reached.invariant (P := Sound)
  · refine ⟨?_, fun batch here => by cases here⟩
    rw [opening, zero_add]
  · exact fun _ _ _ _ sound _ moved => sound_step sound moved

/-- What was settled and what is about to be came in. -/
theorem settled_le {stock : Multiset α} (reached : Reachable stock s) :
    s.settled + s.batch.getD 0 ≤ s.taken := by
  obtain ⟨booked, batched⟩ := sound reached
  refine le_trans ?_ booked
  gcongr
  cases gathered : s.batch with
  | none => exact Multiset.zero_le _
  | some batch => exact batched batch gathered

end Intake
