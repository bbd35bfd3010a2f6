import Ruccoin.Pbft.Calls

/-!
# Votes of one call

A call counts at most one vote: the sender of its message, under the message's own type
and digest. Each flag is raised by the call that finds the quorum, and every message a
handler broadcasts passes the check its receivers make.
-/

namespace Ruccoin.Pbft

/-- The message a call counts as a vote, if it is of a type that votes. -/
def Call.ballot : Call → Option Message
  | .commit m => some m
  | .reply m => some m
  | _ => none

namespace PBFTHandler

variable {c : Crypto} {h h' : PBFTHandler} {m : Message} {effects : List Effect}

theorem SameVotes.votesOf {p q : Proposal} (same : SameVotes p q) (t : MType)
    (digest : String) : p.votesOf t digest = q.votesOf t digest := by
  cases t <;> simp [Proposal.votesOf, same.prepareVotes, same.commitVotes]

/-- One vote appended, or none. -/
inductive VoteStep (a : Call) (s : Nat) (t : MType) (digest : String) :
    List Nat → List Nat → Prop where
  | kept (ids : List Nat) : VoteStep a s t digest ids ids
  | counted (ids : List Nat) {m : Message} (ballot : a.ballot = some m) (seq : m.seq = s)
      (type : m.mtype = t) (digest_eq : m.digest = digest) :
      VoteStep a s t digest ids (ids ++ [m.replicaId])

theorem VoteStep.initial {a : Call} {s : Nat} {t : MType} {digest : String} {ids ids' : List Nat}
    (step : VoteStep a s t digest ids ids') : ids <+: ids' := by
  cases step with
  | kept => exact List.prefix_rfl
  | counted => exact List.prefix_append _ _

/-- The entry `Commit` and `Reply` rewrite has the votes of the table and that of the
message. -/
private theorem updated_votes {a : Call} (ballot : a.ballot = some m) (t : MType)
    (digest : String) :
    VoteStep a m.seq t digest ((h.proposal m.seq).votesOf t digest)
      (((h.findOrCreate m).updateInfo m).votesOf t digest) := by
  rw [Proposal.updateInfo_votesOf, (h.findOrCreate_votes m).votesOf]
  split
  next counts => exact .counted _ ballot rfl counts.1 counts.2.1
  next =>
    -- the vote is of another type or for another digest
    exact .kept _

/-- Whatever the call, each list of votes grows by the vote of its message or stays. -/
theorem call_votes {a : Call} (ran : h.call c a = .ok (h', effects)) (s : Nat) (t : MType)
    (digest : String) :
    VoteStep a s t digest ((h.proposal s).votesOf t digest)
      ((h'.proposal s).votesOf t digest) := by
  have written : ∀ (m : Message) (p : Proposal) (same : p.f = h.f),
      h' = h.setProposal m.seq p same →
      VoteStep a m.seq t digest ((h.proposal m.seq).votesOf t digest) (p.votesOf t digest) →
      VoteStep a s t digest ((h.proposal s).votesOf t digest)
        ((h'.proposal s).votesOf t digest) := by
    intro m p same wrote votes
    subst wrote
    rw [setProposal_proposal]
    by_cases here : s = m.seq
    · subst here
      rw [if_pos rfl]
      exact votes
    · rw [if_neg here]
      exact .kept _
  cases a with
  | getRequest req =>
    rw [(preprepare_cases ran).1]
    rw [(h.addRequest_votes req s).votesOf]
    exact .kept _
  | prepare master m =>
    rcases prepare_cases ran with ⟨rfl, -⟩ | ⟨p, same, wrote, votes, -⟩
    · exact .kept _
    · -- `Prepare` stores a body and counts nothing
      apply written m p same wrote
      rw [votes.votesOf]
      exact .kept _
  | commit m =>
    rcases commit_cases ran with ⟨rfl, -⟩ | ⟨p, same, rfl, ⟨wrote, -⟩ | ⟨-, -, wrote, -⟩⟩
    · -- rejected, so not counted
      exact .kept _
    · exact written m _ same wrote (updated_votes rfl t digest)
    · apply written m { (h.findOrCreate m).updateInfo m with prepared := true } same wrote
      rw [Proposal.votesOf_prepared]
      exact updated_votes rfl t digest
  | reply m =>
    rcases reply_cases ran with ⟨rfl, -⟩ | ⟨p, same, rfl, ⟨wrote, -⟩ | ⟨-, -, -, wrote, -⟩⟩
    · -- rejected, so not counted
      exact .kept _
    · exact written m _ same wrote (updated_votes rfl t digest)
    · apply written m { (h.findOrCreate m).updateInfo m with committed := true } same wrote
      rw [Proposal.votesOf_committed]
      exact updated_votes rfl t digest

/-- Votes are never taken back. -/
theorem call_quorum_kept {a : Call} (ran : h.call c a = .ok (h', effects)) {s : Nat}
    {t : MType} (quorum : (h.proposal s).Quorum t) : (h'.proposal s).Quorum t := by
  obtain ⟨digest, large⟩ := quorum
  have grows := (call_votes ran s t digest).initial.length_le
  have same : (h'.proposal s).f = (h.proposal s).f := by
    rw [proposal_f, proposal_f, (call_settings ran).f]
  exact ⟨digest, by rw [same]; omega⟩

/-- A proposal becomes prepared when a Prepare message completes a quorum of them. -/
theorem commit_quorum (ran : h.commit c m = .ok (h', effects)) (type : m.mtype = .prepare)
    {s : Nat} (reported : .setPrepared s ∈ effects) : (h'.proposal s).Quorum .prepare := by
  rcases commit_cases ran with
    ⟨-, rfl, -⟩ | ⟨p, same, -, ⟨-, rfl, -⟩ | ⟨quorum, unset, rfl, sig, rfl⟩⟩
  · simp at reported
  · simp at reported
  · obtain rfl : s = m.seq := by simpa using reported
    rw [type, Proposal.checkVotes_prepare, unset] at quorum
    rw [setProposal_proposal, if_pos rfl]
    -- the flag was not set, so the quorum is one of votes
    rcases quorum with impossible | quorum
    · exact absurd impossible Bool.false_ne_true
    · exact quorum

/-- A proposal is executed when a Commit message completes a quorum of them. -/
theorem reply_quorum (ran : h.reply c m = .ok (h', effects)) (type : m.mtype = .commit)
    {s : Nat} {b : String} (reported : .commitAction s b ∈ effects) :
    (h'.proposal s).Quorum .commit := by
  rcases reply_cases ran with
    ⟨-, rfl, -⟩ | ⟨p, same, -, ⟨-, rfl, -⟩ | ⟨quorum, unset, -, rfl, rfl⟩⟩
  · simp at reported
  · simp at reported
  · obtain ⟨rfl, -⟩ : s = m.seq ∧ b = p.body := by simpa using reported
    rw [type, Proposal.checkVotes_commit, unset] at quorum
    rw [setProposal_proposal, if_pos rfl]
    -- the flag was not set, so the quorum is one of votes
    rcases quorum with impossible | quorum
    · exact absurd impossible Bool.false_ne_true
    · exact quorum

/-- A quorum that was not there before is completed by the vote being counted. -/
theorem call_quorum {a : Call} (ran : h.call c a = .ok (h', effects)) {s : Nat} {t : MType}
    (quorum : (h'.proposal s).Quorum t) :
    (h.proposal s).Quorum t ∨ ∃ m, a.ballot = some m ∧ m.seq = s ∧ m.mtype = t := by
  obtain ⟨digest, large⟩ := quorum
  have votes := call_votes ran s t digest
  rw [proposal_f, (call_settings ran).f, ← proposal_f h s] at large
  generalize before : (h.proposal s).votesOf t digest = ids at votes
  generalize after : (h'.proposal s).votesOf t digest = ids' at votes large
  cases votes with
  | kept =>
    -- no vote was added, so the quorum is an old one
    exact Or.inl ⟨digest, by rw [before]; exact large⟩
  | counted ballot seq type => exact Or.inr ⟨_, ballot, seq, type⟩

/-- `Commit` and `Reply` count the vote of a message they accept. -/
theorem updated_counts (votes : m.mtype = .prepare ∨ m.mtype = .commit) :
    m.replicaId ∈ ((h.findOrCreate m).updateInfo m).votesOf m.mtype m.digest := by
  rw [Proposal.updateInfo_votesOf, if_pos ⟨rfl, rfl, votes⟩]
  exact List.mem_append_right _ (List.mem_singleton.mpr rfl)

theorem commit_counts (ran : h.commit c m = .ok (h', effects))
    (valid : m.checkSignature c = .ok true) (votes : m.mtype = .prepare ∨ m.mtype = .commit) :
    m.replicaId ∈ (h'.proposal m.seq).votesOf m.mtype m.digest := by
  have counts := updated_counts (h := h) votes
  rcases commit_cases ran with ⟨-, -, invalid⟩ | ⟨p, same, rfl, ⟨rfl, -⟩ | ⟨-, -, rfl, -⟩⟩
  · rw [valid] at invalid; cases invalid
  · rw [setProposal_proposal, if_pos rfl]
    exact counts
  · rw [setProposal_proposal, if_pos rfl, Proposal.votesOf_prepared]
    exact counts

theorem reply_counts (ran : h.reply c m = .ok (h', effects))
    (valid : m.checkSignature c = .ok true) (votes : m.mtype = .prepare ∨ m.mtype = .commit) :
    m.replicaId ∈ (h'.proposal m.seq).votesOf m.mtype m.digest := by
  have counts := updated_counts (h := h) votes
  rcases reply_cases ran with ⟨-, -, invalid⟩ | ⟨p, same, rfl, ⟨rfl, -⟩ | ⟨-, -, -, rfl, -⟩⟩
  · rw [valid] at invalid; cases invalid
  · rw [setProposal_proposal, if_pos rfl]
    exact counts
  · rw [setProposal_proposal, if_pos rfl, Proposal.votesOf_committed]
    exact counts

/-! ### Signatures of broadcasts -/

theorem sign_valid {sm : Message} (signed : h.sign c m = .ok sm) :
    sm.checkSignature c = .ok true := by
  obtain ⟨sm₁, -, checked⟩ := Result.bind_ok.mp signed
  obtain ⟨valid, verified, asserted⟩ := Result.bind_ok.mp checked
  cases valid with
  | false => simp at asserted
  | true =>
    have same : sm₁ = sm := by simpa using asserted
    rw [← same]
    exact verified

/-- A message sent with the result of `Signate` is that result. -/
theorem signed_of_map {h₁ : PBFTHandler} {m sm : Message}
    {build : Message → PBFTHandler × List Effect}
    (ran : (sign c h₁ m).map build = .ok (h', effects))
    (sends : ∀ signed, .sendMessage sm ∈ (build signed).2 → sm = signed)
    (reported : .sendMessage sm ∈ effects) : sign c h₁ m = .ok sm := by
  obtain ⟨signed, ran, result⟩ := Result.map_ok.mp ran
  have built : (build signed).2 = effects := congrArg Prod.snd result
  rw [sends signed (built ▸ reported)]
  exact ran

/-- What a call broadcasts it has signed. -/
theorem call_signed {a : Call} (ran : h.call c a = .ok (h', effects)) {sm : Message}
    (reported : .sendMessage sm ∈ effects) : ∃ h₁ m, sign c h₁ m = .ok sm := by
  cases a with
  | getRequest req => exact ⟨_, _, signed_of_map ran (by simp) reported⟩
  | prepare master m =>
    obtain ⟨valid, -, ran⟩ := Result.bind_ok.mp ran
    split_ifs at ran
    · cases ran
      simp at reported
    · cases ran
      simp at reported
    · dsimp only at ran
      split_ifs at ran
      · cases ran
        simp at reported
      · exact ⟨_, _, signed_of_map ran (by simp) reported⟩
  | commit m =>
    obtain ⟨valid, -, ran⟩ := Result.bind_ok.mp ran
    split_ifs at ran
    · cases ran
      simp at reported
    · cases ran
      simp at reported
    · dsimp only at ran
      split_ifs at ran
      · cases ran
        simp at reported
      · exact ⟨_, _, signed_of_map ran (by simp) reported⟩
      · cases ran
        simp at reported
  | reply m =>
    rcases reply_cases ran with ⟨-, rfl, -⟩ | ⟨p, same, -, ⟨-, rfl, -⟩ | ⟨-, -, -, -, rfl⟩⟩ <;>
      simp at reported

end PBFTHandler

end Ruccoin.Pbft
