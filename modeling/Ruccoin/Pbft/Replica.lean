import Ruccoin.Foundation.Transition
import Ruccoin.Pbft.Votes

/-!
# Runs of one replica

A replica that takes calls in any order, with any messages. Messages that are rejected
change nothing, so only accepted ones matter. The run also records what was executed, with
the proposal as it was then.
-/

namespace Ruccoin.Pbft

/-- A `CommitAction` call, and the proposal it was made for. -/
structure Execution where
  seq : Nat
  body : String
  proposal : Proposal

structure Replica where
  handler : PBFTHandler
  executed : List Execution

namespace Replica

def start (conf : Config) (id : Nat) : Replica := ⟨PBFTHandler.init conf id, []⟩

/-- The executions among the effects of a call that left the handler `h`. -/
def executions (h : PBFTHandler) (effects : List Effect) : List Execution :=
  effects.filterMap fun
    | .commitAction s b => some ⟨s, b, h.proposal s⟩
    | _ => none

/-- One call, unless it ends in a failed assertion or in an exception. -/
def step (c : Crypto) (r : Replica) (a : Call) : Option Replica :=
  match r.handler.call c a with
  | .ok (h, effects) => some ⟨h, r.executed ++ executions h effects⟩
  | .error _ => none

variable {c : Crypto} {r r' : Replica} {a : Call}

theorem step_call (taken : step c r a = some r') :
    ∃ effects, r.handler.call c a = .ok (r'.handler, effects) ∧
      r'.executed = r.executed ++ executions r'.handler effects := by
  unfold step at taken
  cases called : r.handler.call c a with
  | error e => simp [called] at taken
  | ok result =>
    obtain ⟨h, effects⟩ := result
    simp only [called, Option.some.injEq] at taken
    subst taken
    exact ⟨effects, rfl, rfl⟩

theorem mem_executions {h : PBFTHandler} {effects : List Effect} {e : Execution} :
    e ∈ executions h effects ↔
      .commitAction e.seq e.body ∈ effects ∧ e.proposal = h.proposal e.seq := by
  unfold executions
  rw [List.mem_filterMap]
  constructor
  · rintro ⟨effect, member, found⟩
    cases effect with
    | commitAction s b =>
      simp only [Option.some.injEq] at found
      subst found
      exact ⟨member, rfl⟩
    | numbered => cases found
    | checkProposal => cases found
    | sendMessage => cases found
    | setPrepared => cases found
  · rintro ⟨member, same⟩
    refine ⟨_, member, ?_⟩
    dsimp only
    rw [← same]

end Replica

namespace PBFTHandler

variable {c : Crypto} {h h' : PBFTHandler} {m : Message} {a : Call} {effects : List Effect}

/-! ### The handlers on an accepted message -/

/-- The entry that `Commit` and `Reply` test: that of the message, with its vote counted. -/
abbrev counting (h : PBFTHandler) (m : Message) : Proposal := (h.findOrCreate m).updateInfo m

theorem prepare_of_accepted {master : Master} (accepted : m.checkSignature c = .ok true) :
    h.prepare c master m =
      let stored := h.setProposal m.seq (h.storeBody m) (h.storeBody_f m)
      let asked := Effect.checkProposal m.seq (h.storeBody m).body
      if checkProposal master (h.storeBody m) = true then
        (stored.sign c (stored.vote c .prepare m)).map fun sm =>
          (stored, [asked true, .sendMessage sm])
      else .ok (stored, [asked false]) := by
  unfold prepare
  simp only [accepted, Except.bind, checkSeqNumber]
  cases checkProposal master (h.storeBody m) <;> rfl

theorem counting_f (h : PBFTHandler) (m : Message) : (h.counting m).f = h.f := by
  rw [Proposal.updateInfo_f, findOrCreate_f]

theorem commit_of_accepted (accepted : m.checkSignature c = .ok true) :
    h.commit c m =
      let raised := h.setProposal m.seq { h.counting m with prepared := true } (h.counting_f m)
      if (h.counting m).checkVotes m.mtype = true ∧ (h.counting m).prepared = false then
        (raised.sign c (raised.vote c .commit m)).map fun sm =>
          (raised, [.setPrepared m.seq, .sendMessage sm])
      else .ok (h.setProposal m.seq (h.counting m) (h.counting_f m), []) := by
  unfold commit
  simp only [accepted, Except.bind, checkSeqNumber]
  cases (h.counting m).checkVotes m.mtype <;> cases (h.counting m).prepared <;> rfl

/-! ### The entries and bodies after a call -/

theorem setProposal_keeps {s seq : Nat} {p : Proposal} (same : p.f = h.f)
    (present : h.proposals s ≠ none) : (h.setProposal seq p same).proposals s ≠ none := by
  unfold setProposal
  by_cases here : s = seq
  · simp [here]
  · simpa [Function.update_of_ne here] using present

/-- No entry is taken out of the table. -/
theorem call_keeps (ran : h.call c a = .ok (h', effects)) {s : Nat}
    (present : h.proposals s ≠ none) : h'.proposals s ≠ none := by
  cases a with
  | getRequest req =>
    rw [(preprepare_cases ran).1]
    unfold addRequest
    dsimp only
    split
    · exact setProposal_keeps _ present
    · exact present
  | prepare master m =>
    rcases prepare_cases ran with ⟨rfl, -⟩ | ⟨p, same, rfl, -⟩
    · exact present
    · exact setProposal_keeps same present
  | commit m =>
    rcases commit_cases ran with ⟨rfl, -⟩ | ⟨p, same, -, ⟨rfl, -⟩ | ⟨-, -, rfl, -⟩⟩
    · exact present
    · exact setProposal_keeps same present
    · exact setProposal_keeps _ present
  | reply m =>
    rcases reply_cases ran with ⟨rfl, -⟩ | ⟨p, same, -, ⟨rfl, -⟩ | ⟨-, -, -, rfl, -⟩⟩
    · exact present
    · exact setProposal_keeps same present
    · exact setProposal_keeps _ present

/-- The messages that `Commit` and `Reply` count give no body to an entry that is there. -/
theorem counting_body (present : h.proposals m.seq ≠ none) :
    (h.counting m).body = (h.proposal m.seq).body := by
  rw [counting, Proposal.updateInfo_body]
  unfold findOrCreate proposal
  cases entry : h.proposals m.seq with
  | none => exact absurd entry present
  | some p => rfl

theorem call_body_of_present (ran : h.call c a = .ok (h', effects)) (ballot : a.ballot = some m)
    {s : Nat} (present : h.proposals s ≠ none) :
    (h'.proposal s).body = (h.proposal s).body := by
  have written : ∀ (p : Proposal) (same : p.f = h.f), p.body = (h.counting m).body →
      ((h.setProposal m.seq p same).proposal s).body = (h.proposal s).body := by
    intro p same body
    rw [setProposal_proposal]
    split
    next here =>
      subst here
      rw [body, counting_body present]
    next => rfl
  cases a with
  | getRequest req => cases ballot
  | prepare master m' => cases ballot
  | commit m' =>
    obtain rfl := Option.some.inj ballot
    rcases commit_cases ran with ⟨rfl, -⟩ | ⟨p, same, rfl, ⟨rfl, -⟩ | ⟨-, -, rfl, -⟩⟩
    · rfl
    · exact written _ _ rfl
    · exact written _ _ rfl
  | reply m' =>
    obtain rfl := Option.some.inj ballot
    rcases reply_cases ran with ⟨rfl, -⟩ | ⟨p, same, rfl, ⟨rfl, -⟩ | ⟨-, -, -, rfl, -⟩⟩
    · rfl
    · exact written _ _ rfl
    · exact written _ _ rfl

/-! ### The votes after a call -/

/-- The lists of votes after the vote of `m` has been counted. -/
def CountedVotes (h h' : PBFTHandler) (m : Message) : Prop :=
  ∀ s t digest, (h'.proposal s).votesOf t digest =
    if s = m.seq ∧ m.mtype = t ∧ m.digest = digest ∧ (t = .prepare ∨ t = .commit) then
      (h.proposal s).votesOf t digest ++ [m.replicaId]
    else (h.proposal s).votesOf t digest

theorem countedVotes_of_setProposal {p : Proposal} {same : p.f = h.f}
    (votes : ∀ t digest, p.votesOf t digest = (h.counting m).votesOf t digest) :
    CountedVotes h (h.setProposal m.seq p same) m := by
  intro s t digest
  rw [setProposal_proposal]
  by_cases here : s = m.seq
  · subst here
    rw [if_pos rfl, votes, Proposal.updateInfo_votesOf, (h.findOrCreate_votes m).votesOf]
    simp only [true_and]
  · rw [if_neg here, if_neg fun counted => here counted.1]

/-- A call that is given a vote it accepts counts it, and no other. -/
theorem call_countedVotes (ran : h.call c a = .ok (h', effects)) (ballot : a.ballot = some m)
    (accepted : m.checkSignature c = .ok true) : CountedVotes h h' m := by
  cases a with
  | getRequest req => cases ballot
  | prepare master m => cases ballot
  | commit m' =>
    obtain rfl := Option.some.inj ballot
    rcases commit_cases ran with ⟨-, -, rejected⟩ | ⟨p, same, rfl, ⟨rfl, -⟩ | ⟨-, -, rfl, -⟩⟩
    · rw [accepted] at rejected
      cases rejected
    · exact countedVotes_of_setProposal fun t digest => rfl
    · exact countedVotes_of_setProposal fun t digest => Proposal.votesOf_prepared ..
  | reply m' =>
    obtain rfl := Option.some.inj ballot
    rcases reply_cases ran with ⟨-, -, rejected⟩ | ⟨p, same, rfl, ⟨rfl, -⟩ | ⟨-, -, -, rfl, -⟩⟩
    · rw [accepted] at rejected
      cases rejected
    · exact countedVotes_of_setProposal fun t digest => rfl
    · exact countedVotes_of_setProposal fun t digest => Proposal.votesOf_committed ..

/-- A call without a vote, or with a message that is rejected, leaves the votes alone. -/
theorem call_sameVotes (ran : h.call c a = .ok (h', effects))
    (quiet : ∀ m, a.ballot = some m → m.checkSignature c ≠ .ok true) (s : Nat) (t : MType)
    (digest : String) : (h'.proposal s).votesOf t digest = (h.proposal s).votesOf t digest := by
  cases a with
  | getRequest req =>
    rw [(preprepare_cases ran).1]
    exact (h.addRequest_votes req s).votesOf t digest
  | prepare master m =>
    rcases prepare_cases ran with ⟨rfl, -⟩ | ⟨p, same, rfl, votes, -⟩
    · rfl
    · exact setProposal_kept (fun p => p.votesOf t digest) same (votes.votesOf t digest) s
  | commit m =>
    rcases call_accepted ran with accepted | ⟨rfl, -⟩
    · exact absurd accepted (quiet m rfl)
    · rfl
  | reply m =>
    rcases call_accepted ran with accepted | ⟨rfl, -⟩
    · exact absurd accepted (quiet m rfl)
    · rfl

end PBFTHandler

/-- A message of one of the sample replicas, signed with its own key. -/
def sampleMessage (t : MType) (id : Nat) (digest body : String) (seq : Nat := 0) : Message :=
  let m : Message :=
    { mtype := t, replicaId := id, clientId := 0, timeStamp := 0,
      pubKey := "04" ++ toString (18090 + id), seq, viewId := 0, digest, body }
  match m.signate sampleCrypto (toString (18090 + id)) with
  | .ok sm => sm
  | .error _ => m

/-- A proposal with its pre-prepare, three Prepares and three Commits, each where it
belongs. -/
def orderlyCalls (digest body : String) : List Call :=
  .prepare (fun _ => .value true) (sampleMessage .preprepare 0 digest body) ::
    [0, 1, 2].map (fun id => .commit (sampleMessage .prepare id digest "")) ++
    [0, 1, 2].map (fun id => .reply (sampleMessage .commit id digest ""))

end Ruccoin.Pbft
