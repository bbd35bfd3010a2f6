import Ruccoin.Pbft.Replica

/-!
# Votes and the master's approval

`Prepare` asks its master about the body in the proposal table and votes for the digest of
the body in the message. The two differ when another message has filled the table before,
and a master that cannot be asked counts as one that approves.
-/

namespace Ruccoin.Pbft

namespace PBFTHandler

/-- The body that `Prepare` asks the master about. -/
def checkedBody (h : PBFTHandler) (m : Message) : String :=
  if (h.proposal m.seq).body = "" then m.body else (h.proposal m.seq).body

end PBFTHandler

/-- A replica with what its master has approved and what it has voted for. -/
structure Approving where
  handler : PBFTHandler
  /-- The bodies for which the `CheckProposal` call of the master returned `true`. -/
  approved : List String
  /-- The Prepare messages that were broadcast. -/
  cast : List Message

namespace Approving

open Transition PBFTHandler

def start (conf : Config) (id : Nat) : Approving := ⟨init conf id, [], []⟩

def approvals : Call → List Effect → List String
  | .prepare master _, effects => effects.filterMap fun
    | .checkProposal _ body _ => if master body = .value true then some body else none
    | _ => none
  | _, _ => []

def castVotes (effects : List Effect) : List Message :=
  effects.filterMap fun
    | .sendMessage m => if m.mtype = .prepare then some m else none
    | _ => none

/-- One call, unless it ends in a failed assertion or in an exception. -/
def step (c : Crypto) (r : Approving) (a : Call) : Option Approving :=
  match r.handler.call c a with
  | .ok (h, effects) =>
    some ⟨h, r.approved ++ approvals a effects, r.cast ++ castVotes effects⟩
  | .error _ => none

/-- Every vote is for the digest of a body that the master has approved. -/
def Backed (c : Crypto) (r : Approving) : Prop :=
  ∀ vote ∈ r.cast, ∃ b ∈ r.approved, Message.getDigest c b = vote.digest

/-- A pre-prepare that the master does not refuse is approved by it, and the body it was
asked about has the digest of the one in the message; or the master has approved a body with
that digest before. -/
def Justified (c : Crypto) (r : Approving) : Call → Prop
  | .prepare master m => m.checkSignature c = .ok true →
      master (r.handler.checkedBody m) ≠ .value false →
        master (r.handler.checkedBody m) = .value true ∧
            Message.getDigest c (r.handler.checkedBody m) = Message.getDigest c m.body ∨
          ∃ b ∈ r.approved, Message.getDigest c b = Message.getDigest c m.body
  | _ => True

instance (c : Crypto) (r : Approving) : Decidable (Backed c r) :=
  inferInstanceAs (Decidable (∀ vote ∈ r.cast, ∃ b ∈ r.approved,
    Message.getDigest c b = vote.digest))

instance (c : Crypto) (r : Approving) : ∀ a, Decidable (Justified c r a)
  | .prepare master m => inferInstanceAs (Decidable (m.checkSignature c = .ok true →
      master (r.handler.checkedBody m) ≠ .value false →
        master (r.handler.checkedBody m) = .value true ∧
            Message.getDigest c (r.handler.checkedBody m) = Message.getDigest c m.body ∨
          ∃ b ∈ r.approved, Message.getDigest c b = Message.getDigest c m.body))
  | .getRequest _ => inferInstanceAs (Decidable True)
  | .commit _ => inferInstanceAs (Decidable True)
  | .reply _ => inferInstanceAs (Decidable True)

variable {c : Crypto} {r r' : Approving} {a : Call} {conf : Config} {id : Nat}
  {run : List Call}

theorem step_call (taken : step c r a = some r') :
    ∃ effects, r.handler.call c a = .ok (r'.handler, effects) ∧
      r'.approved = r.approved ++ approvals a effects ∧
      r'.cast = r.cast ++ castVotes effects := by
  unfold step at taken
  cases called : r.handler.call c a with
  | error e => simp [called] at taken
  | ok result =>
    obtain ⟨h, effects⟩ := result
    simp only [called, Option.some.injEq] at taken
    subst taken
    exact ⟨effects, rfl, rfl, rfl⟩

theorem mem_castVotes {effects : List Effect} {vote : Message} :
    vote ∈ castVotes effects ↔ .sendMessage vote ∈ effects ∧ vote.mtype = .prepare := by
  unfold castVotes
  rw [List.mem_filterMap]
  constructor
  · rintro ⟨effect, member, found⟩
    cases effect with
    | sendMessage m =>
      dsimp only at found
      split at found
      next type =>
        obtain rfl := Option.some.inj found
        exact ⟨member, type⟩
      next => cases found
    | numbered => cases found
    | checkProposal => cases found
    | setPrepared => cases found
    | commitAction => cases found
  · rintro ⟨member, type⟩
    exact ⟨_, member, by simp [type]⟩

/-- Only `Prepare` casts votes of this kind. -/
theorem castVotes_eq_nil {h h' : PBFTHandler} {effects : List Effect}
    (called : h.call c a = .ok (h', effects)) (other : ∀ master m, a ≠ .prepare master m) :
    castVotes effects = [] := by
  rw [List.eq_nil_iff_forall_not_mem]
  intro vote member
  obtain ⟨sent, type⟩ := mem_castVotes.mp member
  obtain ⟨-, ⟨type', -⟩ | ⟨-, -, b, asked⟩ | ⟨type', -⟩⟩ := call_broadcast called sent
  · rw [type] at type'
    cases type'
  · obtain ⟨master, m, same, -⟩ := call_checkProposal called asked
    exact other master m same
  · rw [type] at type'
    cases type'

/-- What a call of `Prepare` votes for, and what its master approves. -/
theorem prepare_votes {h h' : PBFTHandler} {master : Master} {m : Message}
    {effects : List Effect} (called : h.call c (.prepare master m) = .ok (h', effects)) :
    if m.checkSignature c = .ok true ∧ master (h.checkedBody m) ≠ .value false then
      (∃ vote, castVotes effects = [vote] ∧ vote.digest = Message.getDigest c m.body) ∧
        approvals (.prepare master m) effects =
          if master (h.checkedBody m) = .value true then [h.checkedBody m] else []
    else castVotes effects = [] := by
  rcases prepare_cases called with ⟨-, rfl, rejected⟩ | ⟨p, same, -, -, body, verdict⟩
  · rw [if_neg (by simp [rejected])]
    rfl
  · have asked : p.body = h.checkedBody m := body
    have refuses : checkProposal master p = false ↔ master (h.checkedBody m) = .value false := by
      unfold checkProposal
      rw [asked]
      cases master (h.checkedBody m) with
      | value verdict => simp
      | rpcError => simp
    rcases verdict with ⟨refused, rfl⟩ | ⟨approved, sig, rfl⟩
    · rw [if_neg (by simp [refuses.mp refused])]
      rfl
    · have accepted := (call_accepted called).resolve_right (by simp)
      have answered : master (h.checkedBody m) ≠ .value false := by
        rw [ne_eq, ← refuses, approved]
        decide
      rw [if_pos ⟨accepted, answered⟩]
      refine ⟨⟨_, rfl, rfl⟩, ?_⟩
      rw [← asked]
      unfold approvals
      by_cases agrees : master p.body = .value true
      · simp [agrees]
      · simp [agrees]

/-- Only the votes of the call have to be looked at. -/
theorem backed_iff_new {effects : List Effect} (before : Backed c r)
    (approved : r'.approved = r.approved ++ approvals a effects)
    (cast : r'.cast = r.cast ++ castVotes effects) :
    Backed c r' ↔ ∀ vote ∈ castVotes effects, ∃ b ∈ r.approved ++ approvals a effects,
      Message.getDigest c b = vote.digest := by
  unfold Backed
  rw [approved, cast]
  constructor
  · exact fun after vote member => after vote (List.mem_append_right _ member)
  · intro new vote member
    rcases List.mem_append.mp member with old | member
    · obtain ⟨b, known, digest⟩ := before vote old
      exact ⟨b, List.mem_append_left _ known, digest⟩
    · exact new vote member

/-- The other calls leave the votes as they are. -/
theorem backed_of_other (before : Backed c r) (taken : step c r a = some r')
    (other : ∀ master m, a ≠ .prepare master m) : Backed c r' := by
  obtain ⟨effects, called, approved, cast⟩ := step_call taken
  rw [backed_iff_new before approved cast, castVotes_eq_nil called other]
  intro vote member
  cases member

theorem backed_step (before : Backed c r) (taken : step c r a = some r') :
    Backed c r' ↔ Justified c r a := by
  cases a with
  | getRequest req => exact iff_of_true (backed_of_other before taken (by simp)) trivial
  | commit m => exact iff_of_true (backed_of_other before taken (by simp)) trivial
  | reply m => exact iff_of_true (backed_of_other before taken (by simp)) trivial
  | prepare master m =>
    obtain ⟨effects, called, approved, cast⟩ := step_call taken
    rw [backed_iff_new before approved cast]
    have votes := prepare_votes called
    split at votes
    next answered =>
      obtain ⟨⟨vote, only, digest⟩, known⟩ := votes
      simp only [only, known, Justified, answered.1, answered.2, List.mem_singleton, forall_eq,
        digest, forall_const, List.mem_append, or_and_right, exists_or, ne_eq, not_false_eq_true]
      by_cases agrees : master (r.handler.checkedBody m) = .value true
      · simp [agrees, or_comm]
      · simp [agrees]
    next unanswered =>
      rw [votes]
      refine iff_of_true (by simp) fun accepted answered => ?_
      exact absurd ⟨accepted, answered⟩ unanswered

/-- In every run each Prepare vote is for the digest of a body that the master has approved,
exactly when every pre-prepare that is not refused is justified. -/
theorem votes_backed_iff (ran : exec (step c) (start conf id) run = some r) :
    Always (step c) (Backed c) (start conf id) run ↔
      Meets (step c) (Justified c) (start conf id) run := by
  have noVotes : Backed c (start conf id) := fun vote member => by cases member
  exact always_iff_meets noVotes (fun _ _ _ _ before _ taken => backed_step before taken)
    (meets_true _ run) ran

/-- A proposal that the master approves, with its votes. -/
def approvedCalls : List Call := orderlyCalls (Message.getDigest sampleCrypto "A") "A"

theorem votes_backed_approved :
    ∃ r, exec (step sampleCrypto) (start (sampleConfig 4) 0) approvedCalls = some r ∧
      r.cast.map Message.digest = [Message.getDigest sampleCrypto "A"] ∧
      Backed sampleCrypto r := by
  obtain ⟨r, ran, digests⟩ := exec_of_run (step sampleCrypto) (start (sampleConfig 4) 0)
    approvedCalls
    (p := fun r => decide (r.cast.map Message.digest = [Message.getDigest sampleCrypto "A"]))
    (by decide +kernel)
  have always := (votes_backed_iff ran).mpr (by decide +kernel)
  exact ⟨r, ran, of_decide_eq_true digests, always.last ran⟩

/-- Two pre-prepares with one number and different bodies. -/
def conflictingCalls : List Call :=
  ["A", "B"].map fun body => .prepare (fun _ => .value true)
    (sampleMessage .preprepare 0 (Message.getDigest sampleCrypto body) body)

/-- A pre-prepare whose body the master is never asked about, because it cannot be reached. -/
def unreachableCalls : List Call :=
  [.prepare (fun _ => .rpcError)
    (sampleMessage .preprepare 0 (Message.getDigest sampleCrypto "A") "A")]

/-- The master is asked about "A" twice, and the second vote is for "B"; and where it gives
no answer there is a vote all the same. -/
theorem votes_unbacked :
    (∃ r, exec (step sampleCrypto) (start (sampleConfig 4) 0) conflictingCalls = some r ∧
        r.approved = ["A", "A"] ∧
        Message.getDigest sampleCrypto "B" ∈ r.cast.map Message.digest ∧
        ¬Backed sampleCrypto r) ∧
      ∃ r, exec (step sampleCrypto) (start (sampleConfig 4) 0) unreachableCalls = some r ∧
        r.approved = [] ∧ r.cast.map Message.digest = [Message.getDigest sampleCrypto "A"] := by
  constructor
  · obtain ⟨r, ran, ends⟩ := exec_of_run (step sampleCrypto) (start (sampleConfig 4) 0)
      conflictingCalls
      (p := fun r => decide (r.approved = ["A", "A"] ∧
        Message.getDigest sampleCrypto "B" ∈ r.cast.map Message.digest ∧ ¬Backed sampleCrypto r))
      (by decide +kernel)
    exact ⟨r, ran, of_decide_eq_true ends⟩
  · obtain ⟨r, ran, ends⟩ := exec_of_run (step sampleCrypto) (start (sampleConfig 4) 0)
      unreachableCalls
      (p := fun r => decide (r.approved = [] ∧
        r.cast.map Message.digest = [Message.getDigest sampleCrypto "A"]))
      (by decide +kernel)
    exact ⟨r, ran, of_decide_eq_true ends⟩

end Approving

end Ruccoin.Pbft
