import Ruccoin.Pbft.Replica
import Mathlib.Data.Finset.Card

/-!
# One replica, one vote

A quorum is a number of entries of a list. `UpdateInfo` appends the sender that a message
names without asking whether it is on the list already or among the configured nodes, so the
entries are distinct configured replicas exactly as long as the accepted votes are.
-/

namespace Ruccoin.Pbft

namespace PBFTHandler

/-- The id is a key of `nodes_`. -/
def Configured (h : PBFTHandler) (id : Nat) : Prop := ∃ node ∈ h.nodes, node.replicaId = id

instance (h : PBFTHandler) (id : Nat) : Decidable (h.Configured id) :=
  inferInstanceAs (Decidable (∃ node ∈ h.nodes, node.replicaId = id))

/-- No list of votes has an id twice, or one that is not configured. -/
def OneVote (h : PBFTHandler) : Prop :=
  ∀ s t digest, ((h.proposal s).votesOf t digest).Nodup ∧
    ∀ id ∈ (h.proposal s).votesOf t digest, h.Configured id

/-- An accepted vote comes from a configured replica that is not on its list yet. -/
def NewVoter (c : Crypto) (h : PBFTHandler) (a : Call) : Prop :=
  ∀ m ∈ a.ballot, m.checkSignature c = .ok true → m.mtype = .prepare ∨ m.mtype = .commit →
    m.replicaId ∉ (h.proposal m.seq).votesOf m.mtype m.digest ∧ h.Configured m.replicaId

instance (c : Crypto) (h : PBFTHandler) (a : Call) : Decidable (NewVoter c h a) :=
  match found : a.ballot with
  | none => isTrue fun m member => by rw [found] at member; cases member
  | some m => decidable_of_iff (m.checkSignature c = .ok true →
      m.mtype = .prepare ∨ m.mtype = .commit →
        m.replicaId ∉ (h.proposal m.seq).votesOf m.mtype m.digest ∧ h.Configured m.replicaId)
      (by simp [NewVoter, found])

variable {c : Crypto} {h h' : PBFTHandler} {m : Message} {a : Call} {effects : List Effect}

theorem configured_iff (same : SameSettings h h') (id : Nat) :
    h'.Configured id ↔ h.Configured id := by
  unfold Configured
  rw [same.nodes]

theorem oneVote_step (ran : h.call c a = .ok (h', effects)) (before : OneVote h) :
    OneVote h' ↔ NewVoter c h a := by
  have same := call_settings ran
  -- a list that is as it was
  have kept : ∀ s t digest, ((h.proposal s).votesOf t digest).Nodup ∧
      ∀ id ∈ (h.proposal s).votesOf t digest, h'.Configured id := fun s t digest =>
    ⟨(before s t digest).1, fun id member =>
      (configured_iff same id).mpr ((before s t digest).2 id member)⟩
  by_cases quiet : ∀ m, a.ballot = some m → m.checkSignature c ≠ .ok true
  · -- nothing is counted
    refine iff_of_true (fun s t digest => ?_) fun m ballot accepted => ?_
    · rw [call_sameVotes ran quiet]
      exact kept s t digest
    · exact absurd accepted (quiet m ballot)
  · simp only [not_forall, not_not] at quiet
    obtain ⟨m, ballot, accepted⟩ := quiet
    have counted := call_countedVotes ran ballot accepted
    constructor
    · intro after m' ballot' _ votes
      obtain rfl : m = m' := Option.some.inj (ballot.symm.trans ballot')
      -- the list that the vote was appended to
      have listed := after m.seq m.mtype m.digest
      rw [counted, if_pos ⟨rfl, rfl, rfl, votes⟩] at listed
      refine ⟨fun old => (List.nodup_append'.mp listed.1).2.2 old List.mem_cons_self, ?_⟩
      exact (configured_iff same _).mp
        (listed.2 _ (List.mem_append_right _ List.mem_cons_self))
    · intro new s t digest
      rw [counted]
      split
      next here =>
        obtain ⟨rfl, rfl, rfl, votes⟩ := here
        obtain ⟨fresh, configured⟩ := new m ballot accepted votes
        obtain ⟨distinct, known⟩ := before m.seq m.mtype m.digest
        refine ⟨distinct.append (List.nodup_singleton _) ?_, fun id member => ?_⟩
        · exact fun id old new => fresh (List.mem_singleton.mp new ▸ old)
        · rw [configured_iff same]
          rcases List.mem_append.mp member with old | last
          · exact known id old
          · exact List.mem_singleton.mp last ▸ configured
      next => exact kept s t digest

/-! ### What a quorum test then means -/

/-- A raised flag goes back to a quorum of votes. -/
def Counted (h : PBFTHandler) : Prop :=
  ∀ s, (h.proposal s).prepared = true ∨ (h.proposal s).committed = true →
    (h.proposal s).Quorum .prepare ∨ (h.proposal s).Quorum .commit

/-- So does every quorum test that succeeds. -/
theorem quorum_of_checkVotes {p : Proposal} {t : MType}
    (flags : p.prepared = true ∨ p.committed = true → p.Quorum .prepare ∨ p.Quorum .commit)
    (enough : p.checkVotes t = true) : p.Quorum .prepare ∨ p.Quorum .commit := by
  rcases Proposal.votes_of_checkVotes enough with rfl | rfl
  · rcases (Proposal.checkVotes_prepare p).mp enough with raised | quorum
    · exact flags (Or.inl raised)
    · exact Or.inl quorum
  · rcases (Proposal.checkVotes_commit p).mp enough with raised | quorum
    · exact flags (Or.inr raised)
    · exact Or.inr quorum

/-- The quorum on which `Commit` and `Reply` raise a flag. -/
theorem counting_quorum (before : Counted h) {p : Proposal}
    (updated : p = (h.findOrCreate m).updateInfo m) (enough : p.checkVotes m.mtype = true) :
    p.Quorum .prepare ∨ p.Quorum .commit := by
  have grows : ∀ t, (h.proposal m.seq).Quorum t → p.Quorum t := by
    rintro t ⟨digest, large⟩
    refine ⟨digest, ?_⟩
    rw [updated, Proposal.updateInfo_f, findOrCreate_f, ← proposal_f h m.seq,
      Proposal.updateInfo_votesOf, (h.findOrCreate_votes m).votesOf]
    split
    · rw [List.length_append]
      omega
    · exact large
  apply quorum_of_checkVotes _ enough
  intro raised
  rw [updated, Proposal.updateInfo_prepared, Proposal.updateInfo_committed,
    findOrCreate_prepared, findOrCreate_committed] at raised
  exact (before m.seq raised).imp (grows .prepare) (grows .commit)

theorem counted_step (ran : h.call c a = .ok (h', effects)) (before : Counted h) :
    Counted h' := by
  -- a flag that was up before had its quorum, which stays
  suffices reported : ∀ s, .setPrepared s ∈ effects ∨ (∃ b, .commitAction s b ∈ effects) →
      (h'.proposal s).Quorum .prepare ∨ (h'.proposal s).Quorum .commit by
    intro s raised
    have flags := call_flags ran s
    rw [flags.prepared, flags.committed] at raised
    by_cases old : (h.proposal s).prepared = true ∨ (h.proposal s).committed = true
    · exact (before s old).imp (call_quorum_kept ran) (call_quorum_kept ran)
    · exact reported s (by tauto)
  rintro s (prepared | ⟨b, committed⟩)
  · obtain ⟨m, rfl, rfl⟩ := call_setPrepared ran prepared
    rcases commit_cases ran with
      ⟨-, rfl, -⟩ | ⟨p, same, updated, ⟨-, rfl, -⟩ | ⟨enough, -, rfl, -⟩⟩
    · cases prepared
    · cases prepared
    · rw [setProposal_proposal, if_pos rfl, Proposal.quorum_prepared, Proposal.quorum_prepared]
      exact counting_quorum before updated enough
  · obtain ⟨m, rfl, rfl, -⟩ := call_commitAction ran committed
    rcases reply_cases ran with
      ⟨-, rfl, -⟩ | ⟨p, same, updated, ⟨-, rfl, -⟩ | ⟨enough, -, -, rfl, -⟩⟩
    · cases committed
    · cases committed
    · rw [setProposal_proposal, if_pos rfl, Proposal.quorum_committed, Proposal.quorum_committed]
      exact counting_quorum before updated enough

/-- With one vote for each replica, the entries of a quorum are so many replicas. -/
theorem voters_of_quorum (one : OneVote h) {s : Nat} {t : MType}
    (quorum : (h.proposal s).Quorum t) :
    ∃ digest, ∃ voters : Finset Nat, 2 * h.f + 1 ≤ voters.card ∧
      ∀ id ∈ voters, id ∈ (h.proposal s).votesOf t digest ∧ h.Configured id := by
  obtain ⟨digest, large⟩ := quorum
  obtain ⟨distinct, configured⟩ := one s t digest
  refine ⟨digest, ((h.proposal s).votesOf t digest).toFinset, ?_, fun id member => ?_⟩
  · rw [List.toFinset_card_of_nodup distinct, ← proposal_f h s]
    exact large
  · exact ⟨List.mem_toFinset.mp member, configured id (List.mem_toFinset.mp member)⟩

end PBFTHandler

namespace Replica

open Transition PBFTHandler

variable {c : Crypto} {r : Replica} {conf : Config} {id : Nat} {run : List Call}

/-- In a run of a replica the lists of votes hold distinct configured replicas exactly when
every accepted vote is the first of a configured replica on its list. A quorum test that
succeeds then stands for as many of them as a quorum needs. -/
theorem one_vote_iff (ran : exec (step c) (start conf id) run = some r) :
    (Always (step c) (fun r => r.handler.OneVote) (start conf id) run ↔
        Meets (step c) (fun r a => r.handler.NewVoter c a) (start conf id) run) ∧
      (r.handler.OneVote → ∀ s t, (r.handler.proposal s).checkVotes t = true →
        ∃ phase digest, ∃ voters : Finset Nat, 2 * r.handler.f + 1 ≤ voters.card ∧
          ∀ id ∈ voters, id ∈ (r.handler.proposal s).votesOf phase digest ∧
            r.handler.Configured id) := by
  constructor
  · have atStart : (start conf id).handler.OneVote := by
      intro s t digest
      simp [start]
    refine always_iff_meets atStart ?_ (meets_true _ run) ran
    intro r a r' _ before _ taken
    obtain ⟨effects, called, -⟩ := step_call taken
    exact oneVote_step called before
  · intro one s t enough
    have counted : r.handler.Counted := by
      apply Reach.invariant (P := fun r => r.handler.Counted) _ _
        (reach_of_exec (meets_true _ run) ran)
      · rintro s (raised | raised) <;> cases raised
      · intro r a r' _ before _ taken
        obtain ⟨effects, called, -⟩ := step_call taken
        exact counted_step called before
    rcases quorum_of_checkVotes (counted s) enough with quorum | quorum
    · exact ⟨.prepare, voters_of_quorum one quorum⟩
    · exact ⟨.commit, voters_of_quorum one quorum⟩

theorem one_vote_orderly :
    ∃ r, exec (step sampleCrypto) (start (sampleConfig 4) 0) (orderlyCalls "d" "A") = some r ∧
      (r.handler.proposal 0).votesOf .commit "d" = [0, 1, 2] ∧ r.handler.OneVote := by
  obtain ⟨r, ran, votes⟩ := exec_of_run (step sampleCrypto) (start (sampleConfig 4) 0)
    (orderlyCalls "d" "A")
    (p := fun r => decide ((r.handler.proposal 0).votesOf .commit "d" = [0, 1, 2]))
    (by decide +kernel)
  have always := (one_vote_iff ran).1.mpr (by decide +kernel)
  exact ⟨r, ran, of_decide_eq_true votes, always.last ran⟩

/-- One Prepare three times, from a replica that is not configured. -/
def repeatedCalls : List Call :=
  List.replicate 3 (.commit { sampleMessage .prepare 1 "d" "" with replicaId := 9 })

/-- The message is accepted each time, and its three entries pass for a quorum. -/
theorem one_vote_broken :
    (∀ a ∈ repeatedCalls, a.Accepted sampleCrypto) ∧
      ∃ r, exec (step sampleCrypto) (start (sampleConfig 4) 0) repeatedCalls = some r ∧
        (r.handler.proposal 0).votesOf .prepare "d" = [9, 9, 9] ∧
        (r.handler.proposal 0).prepared = true ∧ ¬r.handler.Configured 9 ∧
        ¬r.handler.OneVote := by
  refine ⟨by decide +kernel, ?_⟩
  obtain ⟨r, ran, ends⟩ := exec_of_run (step sampleCrypto) (start (sampleConfig 4) 0)
    repeatedCalls (p := fun r => decide ((r.handler.proposal 0).votesOf .prepare "d" = [9, 9, 9] ∧
      (r.handler.proposal 0).prepared = true ∧ ¬r.handler.Configured 9)) (by decide +kernel)
  obtain ⟨votes, prepared, unknown⟩ := of_decide_eq_true ends
  refine ⟨r, ran, votes, prepared, unknown, fun one => ?_⟩
  exact unknown ((one 0 .prepare "d").2 9 (by simp [votes]))

end Replica

end Ruccoin.Pbft
