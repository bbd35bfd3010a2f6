import Ruccoin.Pbft.Replica

/-!
# Votes and the executed body

Votes are kept by digest so that those for different messages are told apart, but a quorum
under any digest prepares the proposal, and the digest is never compared with the body. The
body is the one of the first message that brought one, before or after the quorum.
-/

namespace Ruccoin.Pbft

/-- There is a quorum of Prepare votes under the digest of the proposal's body. -/
def Proposal.BodyQuorum (c : Crypto) (p : Proposal) : Prop :=
  2 * p.f + 1 ≤ (p.votesOf .prepare (Message.getDigest c p.body)).length

instance (c : Crypto) (p : Proposal) : Decidable (p.BodyQuorum c) :=
  inferInstanceAs (Decidable (_ ≤ _))

namespace PBFTHandler

/-- The body of a prepared proposal has the quorum under its digest. -/
def Bound (c : Crypto) (h : PBFTHandler) : Prop :=
  ∀ s, (h.proposal s).prepared = true → (h.proposal s).body ≠ "" → (h.proposal s).BodyQuorum c

/-- The quorum is there when a message prepares a proposal with a body, and when a
pre-prepare fills in the body of a prepared one. -/
def Binds (c : Crypto) (h : PBFTHandler) : Call → Prop
  | .prepare _ m => m.checkSignature c = .ok true → (h.proposal m.seq).prepared = true →
      (h.proposal m.seq).body = "" → m.body ≠ "" →
        ({ h.proposal m.seq with body := m.body } : Proposal).BodyQuorum c
  | .commit m => m.checkSignature c = .ok true → (h.counting m).checkVotes m.mtype = true →
      (h.counting m).prepared = false → (h.counting m).body ≠ "" → (h.counting m).BodyQuorum c
  | _ => True

instance (c : Crypto) (h : PBFTHandler) : ∀ a, Decidable (Binds c h a)
  | .getRequest _ => inferInstanceAs (Decidable True)
  | .prepare _ m => inferInstanceAs (Decidable (m.checkSignature c = .ok true →
      (h.proposal m.seq).prepared = true → (h.proposal m.seq).body = "" → m.body ≠ "" →
        ({ h.proposal m.seq with body := m.body } : Proposal).BodyQuorum c))
  | .commit m => inferInstanceAs (Decidable (m.checkSignature c = .ok true →
      (h.counting m).checkVotes m.mtype = true → (h.counting m).prepared = false →
        (h.counting m).body ≠ "" → (h.counting m).BodyQuorum c))
  | .reply _ => inferInstanceAs (Decidable True)

variable {c : Crypto} {h h' : PBFTHandler} {m : Message} {a : Call} {effects : List Effect}

/-- A quorum under the digest of a body stays while the body does. -/
theorem bodyQuorum_kept (ran : h.call c a = .ok (h', effects)) {s : Nat}
    (body : (h'.proposal s).body = (h.proposal s).body)
    (quorum : (h.proposal s).BodyQuorum c) : (h'.proposal s).BodyQuorum c := by
  unfold Proposal.BodyQuorum at quorum ⊢
  have grows := (call_votes ran s .prepare
    (Message.getDigest c (h.proposal s).body)).initial.length_le
  rw [proposal_f] at quorum ⊢
  rw [body, (call_settings ran).f]
  omega

/-- Only a proposal that becomes prepared, or gets its body while it is, has to be looked
at. -/
theorem bound_iff_new (ran : h.call c a = .ok (h', effects)) (before : Bound c h) :
    Bound c h' ↔ ∀ s, (.setPrepared s ∈ effects ∨
        (h.proposal s).prepared = true ∧ (h.proposal s).body = "") →
      (h'.proposal s).body ≠ "" → (h'.proposal s).BodyQuorum c := by
  constructor
  · intro after s new filled
    refine after s ((call_flags ran s).prepared.mpr ?_) filled
    exact new.elim Or.inr fun old => Or.inl old.1
  · intro new s prepared filled
    rcases (call_flags ran s).prepared.mp prepared with old | reported
    · by_cases empty : (h.proposal s).body = ""
      · exact new s (Or.inr ⟨old, empty⟩) filled
      · exact bodyQuorum_kept ran (call_body_kept ran empty) (before s old empty)
    · exact new s (Or.inl reported) filled

theorem call_body_of_prepared (ran : h.call c a = .ok (h', effects)) (ballot : a.ballot = some m)
    {s : Nat} (prepared : (h.proposal s).prepared = true) :
    (h'.proposal s).body = (h.proposal s).body := by
  apply call_body_of_present ran ballot
  intro missing
  rw [proposal, missing] at prepared
  cases prepared

theorem bound_prepare {master : Master} (ran : h.prepare c master m = .ok (h', effects))
    (before : Bound c h) : Bound c h' ↔ Binds c h (.prepare master m) := by
  rw [bound_iff_new (a := .prepare master m) ran before]
  have reports : ∀ s, .setPrepared s ∉ effects := by
    intro s reported
    obtain ⟨m', same, -⟩ := call_setPrepared (a := .prepare master m) ran reported
    cases same
  simp only [reports, false_or]
  rcases prepare_cases ran with ⟨rfl, -, rejected⟩ | ⟨p, same, rfl, votes, body, -⟩
  · refine iff_of_true (fun s prepared filled => absurd prepared.2 filled) fun accepted => ?_
    rw [rejected] at accepted
    cases accepted
  · -- the quorum is counted in the votes that were there
    have quorum : (h.proposal m.seq).body = "" → (p.BodyQuorum c ↔
        ({ h.proposal m.seq with body := m.body } : Proposal).BodyQuorum c) := by
      intro empty
      unfold Proposal.BodyQuorum
      rw [votes.votesOf, body, if_pos empty, same]
      exact iff_of_eq (congrArg (2 * · + 1 ≤ _) (h.proposal_f m.seq).symm)
    constructor
    · intro new _ prepared empty filled
      have found := new m.seq ⟨prepared, empty⟩
      rw [setProposal_proposal, if_pos rfl, body, if_pos empty] at found
      exact (quorum empty).mp (found filled)
    · rintro binds s ⟨prepared, empty⟩ filled
      rw [setProposal_proposal] at filled ⊢
      split at filled
      next here =>
        subst here
        rw [if_pos rfl]
        rw [body, if_pos empty] at filled
        refine (quorum empty).mpr (binds ?_ prepared empty filled)
        -- a message that is not accepted fills in no body
        by_contra rejected
        have kept := prepare_body ran m.seq
        rw [if_neg fun all => rejected all.1, setProposal_proposal, if_pos rfl, body,
          if_pos empty, empty] at kept
        exact filled kept
      next => exact absurd empty filled

theorem bound_commit (ran : h.commit c m = .ok (h', effects)) (before : Bound c h) :
    Bound c h' ↔ Binds c h (.commit m) := by
  rw [bound_iff_new (a := .commit m) ran before]
  -- no body is filled in
  have old : ∀ s, (h.proposal s).prepared = true ∧ (h.proposal s).body = "" →
      (h'.proposal s).body = "" := fun s found =>
    (call_body_of_prepared (a := .commit m) ran rfl found.1).trans found.2
  rcases commit_cases ran with
    ⟨-, rfl, rejected⟩ | ⟨p, same, updated, ⟨-, rfl, quiet⟩ | ⟨enough, unset, rfl, sig, rfl⟩⟩
  · refine iff_of_true (fun s new filled => ?_) fun accepted => ?_
    · exact absurd (old s (new.resolve_left List.not_mem_nil)) filled
    · rw [rejected] at accepted
      cases accepted
  · refine iff_of_true (fun s new filled => ?_) fun _ enough unset => ?_
    · exact absurd (old s (new.resolve_left List.not_mem_nil)) filled
    · rw [counting, ← updated] at enough unset
      rw [quiet enough] at unset
      cases unset
  · have accepted := (call_accepted (a := .commit m) ran).resolve_right (by simp)
    have stored : ({ p with prepared := true } : Proposal).BodyQuorum c ↔ p.BodyQuorum c := by
      simp only [Proposal.BodyQuorum, Proposal.votesOf_prepared]
    simp only [Binds, counting, ← updated]
    constructor
    · intro new _ _ _ filled
      have found := new m.seq (Or.inl List.mem_cons_self)
      rw [setProposal_proposal, if_pos rfl] at found
      exact stored.mp (found filled)
    · intro binds s new filled
      rcases new with reported | found
      · obtain rfl : s = m.seq := by simpa using reported
        rw [setProposal_proposal, if_pos rfl] at filled ⊢
        exact stored.mpr (binds accepted enough unset filled)
      · exact absurd (old s found) filled

/-- A call keeps the bodies of prepared proposals bound exactly when it binds. -/
theorem bound_step (ran : h.call c a = .ok (h', effects)) (before : Bound c h) :
    Bound c h' ↔ Binds c h a := by
  cases a with
  | getRequest req =>
    rw [bound_iff_new ran before]
    obtain ⟨rfl, sm, -, -, -, -, rfl⟩ := preprepare_cases ran
    refine iff_of_true (fun s new filled => ?_) trivial
    rcases new with reported | ⟨prepared, empty⟩
    · simp at reported
    · rcases h.addRequest_proposal req s with kept | ⟨-, missing, -⟩
      · exact absurd (kept ▸ empty) filled
      · rw [proposal, missing] at prepared
        cases prepared
  | prepare master m => exact bound_prepare ran before
  | commit m => exact bound_commit ran before
  | reply m =>
    rw [bound_iff_new ran before]
    refine iff_of_true (fun s new filled => ?_) trivial
    rcases new with reported | ⟨prepared, empty⟩
    · obtain ⟨m', same, -⟩ := call_setPrepared ran reported
      cases same
    · exact absurd ((call_body_of_prepared ran rfl prepared).trans empty) filled

end PBFTHandler

namespace Replica

open Transition PBFTHandler

variable {c : Crypto} {r r' : Replica} {a : Call} {conf : Config} {id : Nat} {run : List Call}

/-- Whatever was executed while its proposal was prepared had the quorum of Prepare votes
under its digest. -/
def Attested (c : Crypto) (r : Replica) : Prop :=
  ∀ e ∈ r.executed, e.proposal.prepared = true →
    2 * r.handler.f + 1 ≤ (e.proposal.votesOf .prepare (Message.getDigest c e.body)).length

theorem attested_step (before : Attested c r) (bound : Bound c r'.handler)
    (taken : step c r a = some r') : Attested c r' := by
  obtain ⟨effects, called, executed⟩ := step_call taken
  intro e member prepared
  rw [executed, List.mem_append] at member
  rw [(call_settings called).f]
  rcases member with old | new
  · exact before e old prepared
  · obtain ⟨reported, state⟩ := mem_executions.mp new
    obtain ⟨-, filled, body⟩ := (call_flags called e.seq).commitAction e.body reported
    rw [state] at prepared ⊢
    have quorum := bound e.seq prepared (body ▸ filled)
    rwa [Proposal.BodyQuorum, proposal_f, (call_settings called).f, body] at quorum

/-- The bodies of prepared proposals have quorums under their digests all along a run exactly
when every call binds; and in such a run nothing else is executed for a prepared proposal. -/
theorem executed_bound_iff (ran : exec (step c) (start conf id) run = some r) :
    (Always (step c) (fun r => Bound c r.handler) (start conf id) run ↔
        Meets (step c) (fun r a => Binds c r.handler a) (start conf id) run) ∧
      (Meets (step c) (fun r a => Binds c r.handler a) (start conf id) run →
        Always (step c) (Attested c) (start conf id) run) := by
  have atStart : Bound c (start conf id).handler := by
    intro s prepared
    cases prepared
  constructor
  · refine always_iff_meets atStart ?_ (meets_true _ run) ran
    intro r a r' _ before _ taken
    obtain ⟨effects, called, -⟩ := step_call taken
    exact bound_step called before
  · intro binds
    have both := always_of_kept (P := fun r => Bound c r.handler ∧ Attested c r)
      ⟨atStart, fun e member => nomatch member⟩ (fun r a r' before binds taken => ?_) binds
    · exact both.mono fun _ => And.right
    · obtain ⟨effects, called, -⟩ := step_call taken
      have bound := (bound_step called before.1).mpr binds
      exact ⟨bound, attested_step before.2 bound taken⟩

/-- The votes are under the digest of "A". -/
def attestedCalls : List Call := orderlyCalls (Message.getDigest sampleCrypto "A") "A"

theorem executed_bound_attested :
    ∃ r, exec (step sampleCrypto) (start (sampleConfig 4) 0) attestedCalls = some r ∧
      r.executed.map Execution.body = ["A"] ∧ Attested sampleCrypto r := by
  obtain ⟨r, ran, bodies⟩ := exec_of_run (step sampleCrypto) (start (sampleConfig 4) 0)
    attestedCalls (p := fun r => decide (r.executed.map Execution.body = ["A"]))
    (by decide +kernel)
  have always := (executed_bound_iff ran).2 (by decide +kernel)
  exact ⟨r, ran, of_decide_eq_true bodies, always.last ran⟩

/-- With votes under another digest "A" is executed as well. -/
theorem executed_unbound :
    (∀ a ∈ orderlyCalls "d" "A", a.Accepted sampleCrypto) ∧
      ∃ r, exec (step sampleCrypto) (start (sampleConfig 4) 0) (orderlyCalls "d" "A") = some r ∧
        (∃ e ∈ r.executed, e.body = "A" ∧ e.proposal.prepared = true ∧
          e.proposal.votesOf .prepare (Message.getDigest sampleCrypto "A") = []) ∧
        ¬Attested sampleCrypto r := by
  refine ⟨by decide +kernel, ?_⟩
  obtain ⟨r, ran, ends⟩ := exec_of_run (step sampleCrypto) (start (sampleConfig 4) 0)
    (orderlyCalls "d" "A")
    (p := fun r => decide (∃ e ∈ r.executed, e.body = "A" ∧ e.proposal.prepared = true ∧
      e.proposal.votesOf .prepare (Message.getDigest sampleCrypto "A") = []))
    (by decide +kernel)
  have unbound := of_decide_eq_true ends
  refine ⟨r, ran, unbound, fun attested => ?_⟩
  obtain ⟨e, member, body, prepared, noVotes⟩ := unbound
  have large := attested e member prepared
  rw [body, noVotes] at large
  exact absurd large (Nat.not_succ_le_zero _)

end Replica

end Ruccoin.Pbft
