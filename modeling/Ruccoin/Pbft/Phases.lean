import Ruccoin.Pbft.Replica

/-!
# Phase separation

`Commit` is meant for Prepare messages and `Reply` for Commit messages, but both choose the
table they count in and the quorum they test by the type of the message they are given. A
message at the endpoint of the other type raises the flag of its endpoint on a quorum of the
other table.
-/

namespace Ruccoin.Pbft

namespace PBFTHandler

/-- A prepared proposal has a quorum of Prepare votes, a committed one a quorum of Commit
votes. -/
def Separated (h : PBFTHandler) : Prop :=
  ∀ s, ((h.proposal s).prepared = true → (h.proposal s).Quorum .prepare) ∧
    ((h.proposal s).committed = true → (h.proposal s).Quorum .commit)

/-- What a message of the other endpoint's type finds there: with its vote counted, when
there is a quorum of its own type, and a body for `Reply` to execute, there is one of the
endpoint's type as well. -/
def Matched (c : Crypto) (h : PBFTHandler) : Call → Prop
  | .commit m => m.checkSignature c = .ok true → m.mtype = .commit →
      (h.counting m).checkVotes .commit = true → (h.counting m).checkVotes .prepare = true
  | .reply m => m.checkSignature c = .ok true → m.mtype = .prepare →
      (h.counting m).checkVotes .prepare = true → (h.counting m).body ≠ "" →
        (h.counting m).checkVotes .commit = true
  | _ => True

instance (c : Crypto) (h : PBFTHandler) : ∀ a, Decidable (Matched c h a)
  | .getRequest _ => inferInstanceAs (Decidable True)
  | .prepare _ _ => inferInstanceAs (Decidable True)
  | .commit m => inferInstanceAs (Decidable (m.checkSignature c = .ok true → m.mtype = .commit →
      (h.counting m).checkVotes .commit = true → (h.counting m).checkVotes .prepare = true))
  | .reply m => inferInstanceAs (Decidable (m.checkSignature c = .ok true → m.mtype = .prepare →
      (h.counting m).checkVotes .prepare = true → (h.counting m).body ≠ "" →
        (h.counting m).checkVotes .commit = true))

variable {c : Crypto} {h h' : PBFTHandler} {m : Message} {effects : List Effect}

/-- What has to be shown of a call: only the flags it raises matter. -/
theorem separated_iff_reported {a : Call} (ran : h.call c a = .ok (h', effects))
    (before : Separated h) :
    Separated h' ↔
      (∀ s, .setPrepared s ∈ effects → (h'.proposal s).Quorum .prepare) ∧
        ∀ s b, .commitAction s b ∈ effects → (h'.proposal s).Quorum .commit := by
  constructor
  · intro after
    constructor
    · intro s reported
      exact (after s).1 ((call_flags ran s).prepared.mpr (Or.inr reported))
    · intro s b reported
      exact (after s).2 ((call_flags ran s).committed.mpr (Or.inr ⟨b, reported⟩))
  · rintro ⟨prepares, commits⟩ s
    constructor
    · intro prepared
      rcases (call_flags ran s).prepared.mp prepared with old | reported
      · exact call_quorum_kept ran ((before s).1 old)
      · exact prepares s reported
    · intro committed
      rcases (call_flags ran s).committed.mp committed with old | ⟨b, reported⟩
      · exact call_quorum_kept ran ((before s).2 old)
      · exact commits s b reported

theorem separated_commit (ran : h.commit c m = .ok (h', effects)) (before : Separated h) :
    Separated h' ↔ Matched c h (.commit m) := by
  rw [separated_iff_reported (a := .commit m) ran before]
  rcases commit_cases ran with
    ⟨-, rfl, rejected⟩ | ⟨p, same, updated, ⟨-, rfl, quiet⟩ | ⟨quorum, unset, rfl, sig, rfl⟩⟩
  · refine iff_of_true (by simp) fun accepted => ?_
    rw [rejected] at accepted
    cases accepted
  · -- a quorum that is found again is of a prepared proposal
    refine iff_of_true (by simp) fun _ type enough => ?_
    rw [counting, ← updated] at enough ⊢
    exact (Proposal.checkVotes_prepare p).mpr (Or.inl (quiet (by rw [type]; exact enough)))
  · -- the flag is raised now, on a quorum of the type of the message
    have raised : p.Quorum .prepare ↔ p.checkVotes .prepare = true := by
      simp [Proposal.checkVotes_prepare, unset]
    simp only [Matched, counting, ← updated, List.mem_cons, Effect.setPrepared.injEq,
      reduceCtorEq, List.not_mem_nil, or_false, forall_eq, setProposal_proposal, if_true,
      Proposal.quorum_prepared, false_imp_iff, implies_true, and_true, raised]
    constructor
    · exact fun enough _ _ _ => enough
    · intro matched
      rcases Proposal.votes_of_checkVotes quorum with type | type
      · rwa [type] at quorum
      · have accepted := (call_accepted (a := .commit m) ran).resolve_right (by simp)
        exact matched accepted type (by rwa [type] at quorum)

theorem separated_reply (ran : h.reply c m = .ok (h', effects)) (before : Separated h) :
    Separated h' ↔ Matched c h (.reply m) := by
  rw [separated_iff_reported (a := .reply m) ran before]
  rcases reply_cases ran with
    ⟨-, rfl, rejected⟩ | ⟨p, same, updated, ⟨-, rfl, quiet⟩ | ⟨quorum, unset, filled, rfl, rfl⟩⟩
  · refine iff_of_true (by simp) fun accepted => ?_
    rw [rejected] at accepted
    cases accepted
  · -- with a quorum and a body, the proposal has been committed before
    refine iff_of_true (by simp) fun _ type enough filled => ?_
    rw [counting, ← updated] at enough filled ⊢
    refine (Proposal.checkVotes_commit p).mpr (Or.inl ?_)
    by_contra pending
    exact quiet ⟨by rw [type]; exact enough, by simpa using pending, filled⟩
  · have raised : p.Quorum .commit ↔ p.checkVotes .commit = true := by
      simp [Proposal.checkVotes_commit, unset]
    simp only [Matched, counting, ← updated, List.mem_cons, Effect.commitAction.injEq,
      reduceCtorEq, List.not_mem_nil, or_false, and_imp, forall_eq_apply_imp_iff, forall_eq,
      setProposal_proposal, if_true, Proposal.quorum_committed, false_imp_iff, implies_true,
      true_and, raised]
    constructor
    · exact fun enough _ _ _ _ => enough
    · intro matched
      rcases Proposal.votes_of_checkVotes quorum with type | type
      · have accepted := (call_accepted (a := .reply m) ran).resolve_right (by simp)
        exact matched accepted type (by rwa [type] at quorum) filled
      · rwa [type] at quorum

/-- A call keeps the phases apart exactly when it is matched. -/
theorem separated_step {a : Call} (ran : h.call c a = .ok (h', effects)) (before : Separated h) :
    Separated h' ↔ Matched c h a := by
  cases a with
  | getRequest req =>
    rw [separated_iff_reported ran before]
    obtain ⟨-, sm, -, -, -, -, rfl⟩ := preprepare_cases ran
    simp [Matched]
  | prepare master m =>
    rw [separated_iff_reported ran before]
    rcases prepare_cases ran with
      ⟨-, rfl, -⟩ | ⟨p, same, -, -, -, ⟨-, rfl⟩ | ⟨-, sig, rfl⟩⟩ <;> simp [Matched]
  | commit m => exact separated_commit ran before
  | reply m => exact separated_reply ran before

end PBFTHandler

namespace Replica

open Transition

variable {c : Crypto} {r : Replica} {conf : Config} {id : Nat} {run : List Call}

/-- In a run of a replica every prepared proposal has its quorum of Prepare votes and every
committed one its quorum of Commit votes exactly when no message at the endpoint of the
other type completes a quorum of its own type alone. -/
theorem phases_separated_iff (ran : exec (step c) (start conf id) run = some r) :
    Always (step c) (fun r => r.handler.Separated) (start conf id) run ↔
      Meets (step c) (fun r a => r.handler.Matched c a) (start conf id) run := by
  have atStart : (start conf id).handler.Separated := by
    intro s
    constructor <;> intro raised <;> cases raised
  refine always_iff_meets atStart ?_ (meets_true _ run) ran
  intro r a r' _ before _ taken
  obtain ⟨effects, called, -⟩ := step_call taken
  exact PBFTHandler.separated_step called before

theorem phases_separated_orderly :
    ∃ r, exec (step sampleCrypto) (start (sampleConfig 4) 0) (orderlyCalls "d" "A") = some r ∧
      (r.handler.proposal 0).prepared = true ∧ (r.handler.proposal 0).committed = true ∧
      r.handler.Separated := by
  obtain ⟨r, ran, flags⟩ := exec_of_run (step sampleCrypto) (start (sampleConfig 4) 0)
    (orderlyCalls "d" "A")
    (p := fun r => (r.handler.proposal 0).prepared && (r.handler.proposal 0).committed)
    (by decide +kernel)
  obtain ⟨prepared, committed⟩ := Bool.and_eq_true_iff.mp flags
  have always := (phases_separated_iff ran).mpr (by decide +kernel)
  exact ⟨r, ran, prepared, committed, always.last ran⟩

/-- Three Commit messages at the endpoint for Prepares. -/
def mislabelledCalls : List Call :=
  [0, 1, 2].map fun id => .commit (sampleMessage .commit id "d" "")

/-- The proposal is prepared, and nobody has sent a Prepare. -/
theorem phases_mixed :
    (∀ a ∈ mislabelledCalls, a.Accepted sampleCrypto) ∧
      ∃ r, exec (step sampleCrypto) (start (sampleConfig 4) 0) mislabelledCalls = some r ∧
        (r.handler.proposal 0).prepared = true ∧ (r.handler.proposal 0).prepareVotes = ∅ ∧
        ¬r.handler.Separated := by
  refine ⟨by decide +kernel, ?_⟩
  obtain ⟨r, ran, ends⟩ := exec_of_run (step sampleCrypto) (start (sampleConfig 4) 0)
    mislabelledCalls (p := fun r => (r.handler.proposal 0).prepared &&
      (r.handler.proposal 0).prepareVotes.entries.isEmpty) (by decide +kernel)
  obtain ⟨prepared, empty⟩ := Bool.and_eq_true_iff.mp ends
  have none_sent : (r.handler.proposal 0).prepareVotes = ∅ :=
    AList.ext (List.isEmpty_iff.mp empty)
  refine ⟨r, ran, prepared, none_sent, fun separated => ?_⟩
  obtain ⟨digest, large⟩ := (separated 0).1 prepared
  simp [Proposal.votesOf, none_sent] at large

end Replica

end Ruccoin.Pbft
