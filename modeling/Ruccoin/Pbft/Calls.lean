import Ruccoin.Foundation.Result
import Ruccoin.Pbft.Handler

/-!
# What one call can do

Each handler is described once, by a case analysis on its result: the call was rejected
and changed nothing, or it rewrote the proposal with the number of its message and left
every other one alone. Later results use these cases and do not unfold the handlers.
-/

namespace Ruccoin.Pbft

/-- The calls a handler serves, with the master as the call finds it. -/
inductive Call where
  | getRequest (req : Request)
  | prepare (master : Master) (m : Message)
  | commit (m : Message)
  | reply (m : Message)

/-- How many requests a call is. -/
def Call.requests : Call → Nat
  | .getRequest _ => 1
  | _ => 0

/-- The message of a call passes the check of its signature. -/
def Call.Accepted (c : Crypto) : Call → Prop
  | .getRequest _ => True
  | .prepare _ m => m.checkSignature c = .ok true
  | .commit m => m.checkSignature c = .ok true
  | .reply m => m.checkSignature c = .ok true

instance (c : Crypto) : ∀ a : Call, Decidable (a.Accepted c)
  | .getRequest _ => inferInstanceAs (Decidable True)
  | .prepare _ m => inferInstanceAs (Decidable (m.checkSignature c = .ok true))
  | .commit m => inferInstanceAs (Decidable (m.checkSignature c = .ok true))
  | .reply m => inferInstanceAs (Decidable (m.checkSignature c = .ok true))

namespace PBFTHandler

variable {c : Crypto} {h h' : PBFTHandler} {m : Message} {effects : List Effect}

def call (c : Crypto) (h : PBFTHandler) : Call → Except Fault (PBFTHandler × List Effect)
  | .getRequest req => h.preprepare c req
  | .prepare master m => h.prepare c master m
  | .commit m => h.commit c m
  | .reply m => h.reply c m

/-! ### The proposal table -/

@[simp] theorem setProposal_proposal (h : PBFTHandler) (seq : Nat) (p : Proposal)
    (same : p.f = h.f) (s : Nat) :
    (h.setProposal seq p same).proposal s = if s = seq then p else h.proposal s := by
  unfold proposal setProposal
  by_cases here : s = seq
  · subst here
    simp only [Function.update_self, Option.getD_some, if_true]
  · simp only [Function.update_of_ne here, if_neg here]

/-- What a rewritten entry has in common with the old one, the whole table keeps. -/
theorem setProposal_kept {α : Type} (get : Proposal → α) {h : PBFTHandler} {seq : Nat}
    {p : Proposal} (same : p.f = h.f) (kept : get p = get (h.proposal seq)) (s : Nat) :
    get ((h.setProposal seq p same).proposal s) = get (h.proposal s) := by
  rw [setProposal_proposal]
  split
  next here =>
    rw [here]
    exact kept
  next => rfl

@[simp] theorem init_proposal (conf : Config) (id s : Nat) :
    (init conf id).proposal s = Proposal.new 0 0 s "" conf.f := rfl

theorem proposal_f (h : PBFTHandler) (s : Nat) : (h.proposal s).f = h.f := by
  unfold proposal
  cases found : h.proposals s with
  | none => rfl
  | some p => exact h.uniform s p found

/-- Two proposals with the same flags and the same votes. -/
structure SameVotes (p q : Proposal) : Prop where
  prepared : p.prepared = q.prepared
  committed : p.committed = q.committed
  prepareVotes : p.prepareVotes = q.prepareVotes
  commitVotes : p.commitVotes = q.commitVotes

theorem storeBody_votes (h : PBFTHandler) (m : Message) :
    SameVotes (h.storeBody m) (h.proposal m.seq) := by
  unfold storeBody proposal
  cases h.proposals m.seq with
  | none => exact ⟨rfl, rfl, rfl, rfl⟩
  | some p =>
    -- filled in or not, only the body is concerned
    dsimp only [Option.getD_some]
    split <;> exact ⟨rfl, rfl, rfl, rfl⟩

theorem storeBody_body (h : PBFTHandler) (m : Message) :
    (h.storeBody m).body =
      if (h.proposal m.seq).body = "" then m.body else (h.proposal m.seq).body := by
  unfold storeBody proposal
  cases h.proposals m.seq with
  | none => rfl
  | some p =>
    dsimp only [Option.getD_some]
    by_cases empty : p.body = ""
    · simp [empty]
    · simp [String.isEmpty_iff, empty]

theorem findOrCreate_votes (h : PBFTHandler) (m : Message) :
    SameVotes (h.findOrCreate m) (h.proposal m.seq) := by
  unfold findOrCreate proposal
  cases h.proposals m.seq with
  | none => exact ⟨rfl, rfl, rfl, rfl⟩
  | some p => exact ⟨rfl, rfl, rfl, rfl⟩

@[simp] theorem findOrCreate_prepared (h : PBFTHandler) (m : Message) :
    (h.findOrCreate m).prepared = (h.proposal m.seq).prepared :=
  (h.findOrCreate_votes m).prepared

@[simp] theorem findOrCreate_committed (h : PBFTHandler) (m : Message) :
    (h.findOrCreate m).committed = (h.proposal m.seq).committed :=
  (h.findOrCreate_votes m).committed

/-- A created entry takes the message's body, a found one keeps its own. -/
theorem findOrCreate_body (h : PBFTHandler) (m : Message) :
    (h.findOrCreate m).body = (h.proposal m.seq).body ∨
      ((h.proposal m.seq).body = "" ∧ (h.findOrCreate m).body = m.body) := by
  unfold findOrCreate proposal
  cases h.proposals m.seq with
  | none => exact Or.inr ⟨rfl, rfl⟩
  | some p => exact Or.inl rfl

@[simp] theorem addRequest_id (h : PBFTHandler) (req : Request) :
    (h.addRequest req).id = h.id := by
  unfold addRequest
  dsimp only
  split <;> rfl

@[simp] theorem addRequest_nextProposalSeq (h : PBFTHandler) (req : Request) :
    (h.addRequest req).nextProposalSeq = h.nextProposalSeq + 1 := by
  unfold addRequest
  dsimp only
  split <;> rfl

/-- Only the new number's proposal can change: it is created with the request's body, or
kept when a message created it before. -/
theorem addRequest_proposal (h : PBFTHandler) (req : Request) (s : Nat) :
    (h.addRequest req).proposal s = h.proposal s ∨
      (s = h.nextProposalSeq ∧ h.proposals s = none ∧
        (h.addRequest req).proposal s =
          Proposal.new req.timeStamp req.clientId s req.body h.f) := by
  unfold addRequest
  dsimp only
  split
  next missing =>
    -- the entry is new
    rw [setProposal_proposal]
    by_cases here : s = h.nextProposalSeq
    · subst here
      exact Or.inr ⟨rfl, missing, if_pos rfl⟩
    · rw [if_neg here]
      exact Or.inl rfl
  next present =>
    -- a message made the entry before the request came
    exact Or.inl rfl

/-- A request moves no flag and counts no vote. -/
theorem addRequest_votes (h : PBFTHandler) (req : Request) (s : Nat) :
    SameVotes ((h.addRequest req).proposal s) (h.proposal s) := by
  rcases h.addRequest_proposal req s with kept | ⟨-, missing, created⟩
  · rw [kept]
    exact ⟨rfl, rfl, rfl, rfl⟩
  · rw [created, proposal, missing]
    exact ⟨rfl, rfl, rfl, rfl⟩

/-- A request whose number has no entry creates it. -/
theorem addRequest_new {h : PBFTHandler} (missing : h.proposals h.nextProposalSeq = none)
    (req : Request) : ((h.addRequest req).proposal h.nextProposalSeq).body = req.body := by
  unfold addRequest
  dsimp only
  split
  next => rw [setProposal_proposal, if_pos rfl, Proposal.new_body]
  next p present => rw [missing] at present; cases present

theorem setProposal_present {h : PBFTHandler} {seq s : Nat} {p : Proposal} (same : p.f = h.f)
    (present : (h.setProposal seq p same).proposals s ≠ none) :
    h.proposals s ≠ none ∨ seq = s := by
  by_cases here : s = seq
  · exact Or.inr here.symm
  · have kept : (h.setProposal seq p same).proposals s = h.proposals s :=
      Function.update_of_ne here _ _
    exact Or.inl (kept ▸ present)

/-! ### Signing -/

theorem sign_frame {sm : Message} (signed : h.sign c m = .ok sm) :
    sm = { m with signature := sm.signature } := by
  obtain ⟨sm₁, hs, checked⟩ := Result.bind_ok.mp signed
  obtain ⟨valid, -, asserted⟩ := Result.bind_ok.mp checked
  have frame := Message.signate_frame hs
  cases valid with
  | false =>
    -- the assertion after `Signate` fails
    simp at asserted
  | true =>
    have same : sm₁ = sm := by simpa using asserted
    rw [← same]
    exact frame

/-- Under a key pair the assertion after `Signate` never fails. -/
theorem sign_ok (pair : c.KeyPair h.privKey m.pubKey) (known : m.mtype.Known) :
    ∃ sm, h.sign c m = .ok sm ∧ sm.checkSignature c = .ok true := by
  obtain ⟨sm, signed, valid⟩ := Message.checkSignature_signate pair known
  exact ⟨sm, by simp [sign, signed, valid, Except.bind], valid⟩

/-! ### The four calls -/

/-- A request takes the next number and broadcasts the body it was given. -/
theorem preprepare_cases {req : Request} (ran : h.preprepare c req = .ok (h', effects)) :
    h' = h.addRequest req ∧
      ∃ sm : Message, sm.mtype = .preprepare ∧ sm.replicaId = h.id ∧
        sm.seq = h.nextProposalSeq ∧ sm.body = req.body ∧
        effects = [.numbered h.nextProposalSeq req, .sendMessage sm] := by
  obtain ⟨sm, signed, result⟩ := Result.map_ok.mp ran
  have frame := sign_frame signed
  obtain ⟨rfl, rfl⟩ := Prod.mk.inj result
  refine ⟨rfl, sm, ?_, ?_, ?_, ?_, rfl⟩
  · rw [frame]
  · rw [frame]
    exact h.addRequest_id req
  · rw [frame]
  · rw [frame]

theorem prepare_cases {master : Master} (ran : h.prepare c master m = .ok (h', effects)) :
    (h' = h ∧ effects = [] ∧ m.checkSignature c = .ok false) ∨
    ∃ p same, h' = h.setProposal m.seq p same ∧ SameVotes p (h.proposal m.seq) ∧
      p.body = (if (h.proposal m.seq).body = "" then m.body else (h.proposal m.seq).body) ∧
      ((checkProposal master p = false ∧ effects = [.checkProposal m.seq p.body false]) ∨
        (checkProposal master p = true ∧ ∃ sig, effects = [.checkProposal m.seq p.body true,
          .sendMessage { h.vote c .prepare m with signature := sig }])) := by
  obtain ⟨valid, checked, ran⟩ := Result.bind_ok.mp ran
  cases valid with
  | false =>
    -- `CheckSignature` rejected the message
    left
    obtain ⟨rfl, rfl⟩ : h' = h ∧ effects = [] := by simpa [eq_comm] using ran
    exact ⟨rfl, rfl, checked⟩
  | true =>
    right
    refine ⟨h.storeBody m, h.storeBody_f m, ?_⟩
    have votes := h.storeBody_votes m
    have body := h.storeBody_body m
    simp only [Bool.not_true, Bool.false_eq_true, if_false, checkSeqNumber] at ran
    split at ran
    next refused =>
      -- the master refused, and the call ends with the entry stored
      obtain ⟨rfl, rfl⟩ := Prod.mk.inj (Except.ok.inj ran)
      exact ⟨rfl, votes, body, Or.inl ⟨by simpa using refused, rfl⟩⟩
    next approved =>
      obtain ⟨sm, signed, result⟩ := Result.map_ok.mp ran
      have frame := sign_frame signed
      obtain ⟨rfl, rfl⟩ := Prod.mk.inj result
      refine ⟨rfl, votes, body, Or.inr ⟨by simpa using approved, sm.signature, ?_⟩⟩
      rw [frame]
      rfl

/-- `Prepare` on a message it accepts, when the master approves and the handler can sign. -/
theorem prepare_of_valid {master : Master} (valid : m.checkSignature c = .ok true)
    (approves : ∀ p, checkProposal master p = true) (pair : c.KeyPair h.privKey h.pubKey) :
    ∃ same effects, h.prepare c master m =
      .ok (h.setProposal m.seq (h.storeBody m) same, effects) := by
  let stored := h.setProposal m.seq (h.storeBody m) (h.storeBody_f m)
  obtain ⟨sm, signed, -⟩ : ∃ sm, stored.sign c (stored.vote c .prepare m) = .ok sm ∧ _ :=
    sign_ok pair MType.known_prepare
  refine ⟨h.storeBody_f m, [.checkProposal m.seq (h.storeBody m).body true, .sendMessage sm], ?_⟩
  simp only [prepare, valid, Except.bind, checkSeqNumber, approves, Bool.not_true,
    Bool.false_eq_true, if_false]
  rw [show (h.setProposal m.seq (h.storeBody m) (h.storeBody_f m)) = stored from rfl, signed]
  rfl

theorem commit_cases (ran : h.commit c m = .ok (h', effects)) :
    (h' = h ∧ effects = [] ∧ m.checkSignature c = .ok false) ∨
    ∃ p same, p = (h.findOrCreate m).updateInfo m ∧
      ((h' = h.setProposal m.seq p same ∧ effects = [] ∧
          (p.checkVotes m.mtype = true → p.prepared = true)) ∨
        (p.checkVotes m.mtype = true ∧ p.prepared = false ∧
          h' = h.setProposal m.seq { p with prepared := true } same ∧
          ∃ sig, effects = [.setPrepared m.seq,
            .sendMessage { h.vote c .commit m with signature := sig }])) := by
  obtain ⟨valid, checked, ran⟩ := Result.bind_ok.mp ran
  cases valid with
  | false =>
    -- `CheckSignature` rejected the message
    left
    obtain ⟨rfl, rfl⟩ : h' = h ∧ effects = [] := by simpa [eq_comm] using ran
    exact ⟨rfl, rfl, checked⟩
  | true =>
    right
    have same : ((h.findOrCreate m).updateInfo m).f = h.f := by
      rw [Proposal.updateInfo_f, findOrCreate_f]
    refine ⟨(h.findOrCreate m).updateInfo m, same, rfl, ?_⟩
    simp only [Bool.not_true, Bool.false_eq_true, if_false, checkSeqNumber] at ran
    split at ran
    next quorum =>
      split at ran
      next already =>
        -- the Commit was sent before
        obtain ⟨rfl, rfl⟩ := Prod.mk.inj (Except.ok.inj ran)
        exact Or.inl ⟨rfl, rfl, fun _ => already⟩
      next first =>
        -- this message completed the quorum
        obtain ⟨sm, signed, result⟩ := Result.map_ok.mp ran
        have frame := sign_frame signed
        obtain ⟨rfl, rfl⟩ := Prod.mk.inj result
        refine Or.inr ⟨quorum, by simpa using first, rfl, sm.signature, ?_⟩
        rw [frame]
        rfl
    next short =>
      obtain ⟨rfl, rfl⟩ := Prod.mk.inj (Except.ok.inj ran)
      exact Or.inl ⟨rfl, rfl, fun quorum => absurd quorum short⟩

/-- `Reply` on a message whose signature is accepted. -/
theorem reply_of_valid (valid : m.checkSignature c = .ok true) :
    ∃ same, h.reply c m =
      let p := (h.findOrCreate m).updateInfo m
      if p.checkVotes m.mtype = true ∧ p.committed = false ∧ p.body ≠ "" then
        .ok (h.setProposal m.seq { p with committed := true } same,
          [.commitAction m.seq p.body])
      else .ok (h.setProposal m.seq p same, []) := by
  have same : ((h.findOrCreate m).updateInfo m).f = h.f := by
    rw [Proposal.updateInfo_f, findOrCreate_f]
  refine ⟨same, ?_⟩
  simp [reply, valid, Except.bind, checkSeqNumber]

theorem reply_cases (ran : h.reply c m = .ok (h', effects)) :
    (h' = h ∧ effects = [] ∧ m.checkSignature c = .ok false) ∨
    ∃ p same, p = (h.findOrCreate m).updateInfo m ∧
      ((h' = h.setProposal m.seq p same ∧ effects = [] ∧
          ¬(p.checkVotes m.mtype = true ∧ p.committed = false ∧ p.body ≠ "")) ∨
        (p.checkVotes m.mtype = true ∧ p.committed = false ∧ p.body ≠ "" ∧
          h' = h.setProposal m.seq { p with committed := true } same ∧
          effects = [.commitAction m.seq p.body])) := by
  obtain ⟨valid, checked, rest⟩ := Result.bind_ok.mp ran
  cases valid with
  | false =>
    -- `CheckSignature` rejected the message
    left
    obtain ⟨rfl, rfl⟩ : h' = h ∧ effects = [] := by simpa [eq_comm] using rest
    exact ⟨rfl, rfl, checked⟩
  | true =>
    right
    obtain ⟨same, runs⟩ := reply_of_valid (h := h) checked
    rw [runs] at ran
    refine ⟨(h.findOrCreate m).updateInfo m, same, rfl, ?_⟩
    dsimp only at ran
    split at ran
    next executes =>
      obtain ⟨rfl, rfl⟩ := Prod.mk.inj (Except.ok.inj ran)
      exact Or.inr ⟨executes.1, executes.2.1, executes.2.2, rfl, rfl⟩
    next waits =>
      obtain ⟨rfl, rfl⟩ := Prod.mk.inj (Except.ok.inj ran)
      exact Or.inl ⟨rfl, rfl, waits⟩

/-! ### Settings -/

/-- Two states of one handler: what `Init` set is the same in both. -/
structure SameSettings (h h' : PBFTHandler) : Prop where
  id : h'.id = h.id
  currentPrimary : h'.currentPrimary = h.currentPrimary
  privKey : h'.privKey = h.privKey
  pubKey : h'.pubKey = h.pubKey
  f : h'.f = h.f
  nodes : h'.nodes = h.nodes

theorem SameSettings.refl (h : PBFTHandler) : SameSettings h h := ⟨rfl, rfl, rfl, rfl, rfl, rfl⟩

theorem SameSettings.symm (same : SameSettings h h') : SameSettings h' h :=
  ⟨same.id.symm, same.currentPrimary.symm, same.privKey.symm, same.pubKey.symm, same.f.symm,
    same.nodes.symm⟩

theorem SameSettings.trans {h₁ h₂ h₃ : PBFTHandler} (first : SameSettings h₁ h₂)
    (second : SameSettings h₂ h₃) : SameSettings h₁ h₃ where
  id := second.id.trans first.id
  currentPrimary := second.currentPrimary.trans first.currentPrimary
  privKey := second.privKey.trans first.privKey
  pubKey := second.pubKey.trans first.pubKey
  f := second.f.trans first.f
  nodes := second.nodes.trans first.nodes

theorem setProposal_settings (h : PBFTHandler) (seq : Nat) (p : Proposal) (same : p.f = h.f) :
    SameSettings h (h.setProposal seq p same) := ⟨rfl, rfl, rfl, rfl, rfl, rfl⟩

theorem addRequest_settings (h : PBFTHandler) (req : Request) :
    SameSettings h (h.addRequest req) := by
  unfold addRequest
  dsimp only
  split <;> exact ⟨rfl, rfl, rfl, rfl, rfl, rfl⟩

/-- No call changes what `Init` set. -/
theorem call_settings {a : Call} (ran : h.call c a = .ok (h', effects)) :
    SameSettings h h' := by
  cases a with
  | getRequest req =>
    rw [(preprepare_cases ran).1]
    exact h.addRequest_settings req
  | prepare master m =>
    rcases prepare_cases ran with ⟨rfl, -⟩ | ⟨p, same, rfl, -⟩
    · exact .refl _
    · exact setProposal_settings ..
  | commit m =>
    rcases commit_cases ran with ⟨rfl, -⟩ | ⟨p, same, -, ⟨rfl, -⟩ | ⟨-, -, rfl, -⟩⟩
    · exact .refl _
    · exact setProposal_settings ..
    · exact setProposal_settings ..
  | reply m =>
    rcases reply_cases ran with ⟨rfl, -⟩ | ⟨p, same, -, ⟨rfl, -⟩ | ⟨-, -, -, rfl, -⟩⟩
    · exact .refl _
    · exact setProposal_settings ..
    · exact setProposal_settings ..

/-! ### The effect of a call on one proposal -/

/-- The body a call offers, and the number it offers it for. -/
def supplies (h : PBFTHandler) : Call → Nat × String
  | .getRequest req => (h.nextProposalSeq, req.body)
  | .prepare _ m => (m.seq, m.body)
  | .commit m => (m.seq, m.body)
  | .reply m => (m.seq, m.body)

/-- The entry that `Commit` and `Reply` rewrite has the body the table had, or was empty
there and takes the body of the message. -/
private theorem updated_body (h : PBFTHandler) (m : Message) :
    ((h.findOrCreate m).updateInfo m).body = (h.proposal m.seq).body ∨
      ((h.proposal m.seq).body = "" ∧ ((h.findOrCreate m).updateInfo m).body = m.body) := by
  rw [Proposal.updateInfo_body]
  exact h.findOrCreate_body m

/-- A body is filled in once and never changes afterwards: whatever the call, a proposal
keeps its body unless that was empty, and then takes the one the call offers. -/
theorem call_body {a : Call} (ran : h.call c a = .ok (h', effects)) (s : Nat) :
    (h'.proposal s).body = (h.proposal s).body ∨
      ((h.proposal s).body = "" ∧ h.supplies a = (s, (h'.proposal s).body)) := by
  have written : ∀ (m : Message) (p : Proposal) (same : p.f = h.f),
      h' = h.setProposal m.seq p same →
      (p.body = (h.proposal m.seq).body ∨ ((h.proposal m.seq).body = "" ∧ p.body = m.body)) →
      (h'.proposal s).body = (h.proposal s).body ∨
        ((h.proposal s).body = "" ∧ (m.seq, m.body) = (s, (h'.proposal s).body)) := by
    intro m p same wrote body
    subst wrote
    rw [setProposal_proposal]
    -- the entry of the message is rewritten and no other
    by_cases here : s = m.seq
    · subst here
      rw [if_pos rfl]
      rcases body with kept | ⟨empty, filled⟩
      · exact Or.inl kept
      · exact Or.inr ⟨empty, by rw [filled]⟩
    · rw [if_neg here]
      exact Or.inl rfl
  cases a with
  | getRequest req =>
    rw [(preprepare_cases ran).1]
    rcases h.addRequest_proposal req s with kept | ⟨rfl, missing, created⟩
    · rw [kept]
      exact Or.inl rfl
    · -- a number without an entry had no body
      rw [created]
      refine Or.inr ⟨?_, rfl⟩
      rw [proposal, missing]
      rfl
  | prepare master m =>
    rcases prepare_cases ran with ⟨rfl, -⟩ | ⟨p, same, wrote, -, body, -⟩
    · exact Or.inl rfl
    · apply written m p same wrote
      rw [body]
      split
      next empty => exact Or.inr ⟨empty, rfl⟩
      next => exact Or.inl rfl
  | commit m =>
    rcases commit_cases ran with ⟨rfl, -⟩ | ⟨p, same, rfl, ⟨wrote, -⟩ | ⟨-, -, wrote, -⟩⟩
    · exact Or.inl rfl
    · exact written m _ same wrote (updated_body h m)
    · exact written m { (h.findOrCreate m).updateInfo m with prepared := true } same wrote
        (updated_body h m)
  | reply m =>
    rcases reply_cases ran with ⟨rfl, -⟩ | ⟨p, same, rfl, ⟨wrote, -⟩ | ⟨-, -, -, wrote, -⟩⟩
    · exact Or.inl rfl
    · exact written m _ same wrote (updated_body h m)
    · exact written m { (h.findOrCreate m).updateInfo m with committed := true } same wrote
        (updated_body h m)

/-- An entry that was not in the table is made for the number of the call. -/
theorem call_present {a : Call} (ran : h.call c a = .ok (h', effects)) {s : Nat}
    (present : h'.proposals s ≠ none) : h.proposals s ≠ none ∨ (h.supplies a).1 = s := by
  cases a with
  | getRequest req =>
    rw [(preprepare_cases ran).1] at present
    unfold addRequest at present
    dsimp only at present
    split at present
    next =>
      have made := setProposal_present _ present
      exact made
    next => exact Or.inl present
  | prepare master m =>
    rcases prepare_cases ran with ⟨rfl, -⟩ | ⟨p, same, rfl, -⟩
    · exact Or.inl present
    · exact setProposal_present _ present
  | commit m =>
    rcases commit_cases ran with ⟨rfl, -⟩ | ⟨p, same, -, ⟨rfl, -⟩ | ⟨-, -, rfl, -⟩⟩
    · exact Or.inl present
    · exact setProposal_present _ present
    · exact setProposal_present _ present
  | reply m =>
    rcases reply_cases ran with ⟨rfl, -⟩ | ⟨p, same, -, ⟨rfl, -⟩ | ⟨-, -, -, rfl, -⟩⟩
    · exact Or.inl present
    · exact setProposal_present _ present
    · exact setProposal_present _ present

/-- A non-empty body stays. -/
theorem call_body_kept {a : Call} (ran : h.call c a = .ok (h', effects)) {s : Nat}
    (filled : (h.proposal s).body ≠ "") : (h'.proposal s).body = (h.proposal s).body := by
  rcases call_body ran s with kept | ⟨empty, -⟩
  · exact kept
  · exact absurd empty filled

/-- The flags of a proposal are raised by the calls that report it, and never lowered. -/
structure FlagStep (h h' : PBFTHandler) (effects : List Effect) (s : Nat) : Prop where
  prepared : (h'.proposal s).prepared = true ↔
    (h.proposal s).prepared = true ∨ .setPrepared s ∈ effects
  committed : (h'.proposal s).committed = true ↔
    (h.proposal s).committed = true ∨ ∃ b, .commitAction s b ∈ effects
  setPrepared : .setPrepared s ∈ effects → (h.proposal s).prepared = false
  commitAction : ∀ b, .commitAction s b ∈ effects →
    (h.proposal s).committed = false ∧ b ≠ "" ∧ (h'.proposal s).body = b

/-- A step that reports no flag and keeps them all. -/
private theorem FlagStep.quiet {s : Nat}
    (prepared : (h'.proposal s).prepared = (h.proposal s).prepared)
    (committed : (h'.proposal s).committed = (h.proposal s).committed)
    (noPrepared : .setPrepared s ∉ effects) (noCommit : ∀ b, .commitAction s b ∉ effects) :
    FlagStep h h' effects s where
  prepared := by simp [prepared, noPrepared]
  committed := by simp [committed, noCommit]
  setPrepared reported := absurd reported noPrepared
  commitAction b reported := absurd reported (noCommit b)

/-- Every call moves the flags of every proposal in the way its effects report. -/
theorem call_flags {a : Call} (ran : h.call c a = .ok (h', effects)) (s : Nat) :
    FlagStep h h' effects s := by
  cases a with
  | getRequest req =>
    obtain ⟨rfl, sm, -, -, -, -, rfl⟩ := preprepare_cases ran
    have votes := h.addRequest_votes req s
    exact FlagStep.quiet votes.prepared votes.committed (by simp) (by simp)
  | prepare master m =>
    rcases prepare_cases ran with ⟨rfl, rfl, -⟩ | ⟨p, same, rfl, votes, -, effects_eq⟩
    · -- rejected
      exact FlagStep.quiet rfl rfl (by simp) (by simp)
    · have reports : .setPrepared s ∉ effects ∧ ∀ b, .commitAction s b ∉ effects := by
        rcases effects_eq with ⟨-, rfl⟩ | ⟨-, sig, rfl⟩ <;> simp
      exact FlagStep.quiet (setProposal_kept Proposal.prepared same votes.prepared s)
        (setProposal_kept Proposal.committed same votes.committed s) reports.1 reports.2
  | commit m =>
    rcases commit_cases ran with
      ⟨rfl, rfl, -⟩ | ⟨p, same, rfl, ⟨rfl, rfl, -⟩ | ⟨-, unset, rfl, sig, rfl⟩⟩
    · -- rejected
      exact FlagStep.quiet rfl rfl (by simp) (by simp)
    · -- the message is counted, and that is all
      exact FlagStep.quiet (setProposal_kept Proposal.prepared same (by simp) s)
        (setProposal_kept Proposal.committed same (by simp) s) (by simp) (by simp)
    · by_cases here : s = m.seq
      · -- the one proposal whose quorum this message completed
        subst here
        refine ⟨?_, ?_, fun _ => ?_, by simp⟩
        · simp
        · simp
        · simpa using unset
      · -- another number
        apply FlagStep.quiet _ _ (by simp [here]) (by simp)
        · rw [setProposal_proposal, if_neg here]
        · rw [setProposal_proposal, if_neg here]
  | reply m =>
    rcases reply_cases ran with
      ⟨rfl, rfl, -⟩ | ⟨p, same, rfl, ⟨rfl, rfl, -⟩ | ⟨-, unset, nonempty, rfl, rfl⟩⟩
    · -- rejected
      exact FlagStep.quiet rfl rfl (by simp) (by simp)
    · -- the message is counted, and that is all
      exact FlagStep.quiet (setProposal_kept Proposal.prepared same (by simp) s)
        (setProposal_kept Proposal.committed same (by simp) s) (by simp) (by simp)
    · by_cases here : s = m.seq
      · -- the one proposal that this message completed
        subst here
        refine ⟨?_, ?_, by simp, ?_⟩
        · simp
        · simp
        · intro b reported
          have executed : b = ((h.findOrCreate m).updateInfo m).body := by simpa using reported
          subst executed
          refine ⟨by simpa using unset, nonempty, ?_⟩
          · rw [setProposal_proposal, if_pos rfl]
      · -- another number
        apply FlagStep.quiet _ _ (by simp) (by simp [here])
        · rw [setProposal_proposal, if_neg here]
        · rw [setProposal_proposal, if_neg here]

/-- A call whose message is not accepted does nothing. -/
theorem call_accepted {a : Call} (ran : h.call c a = .ok (h', effects)) :
    a.Accepted c ∨ (h' = h ∧ effects = []) := by
  have checked : ∀ {m : Message} {rest : Bool → Except Fault (PBFTHandler × List Effect)},
      rest false = .ok (h, []) → (m.checkSignature c).bind rest = .ok (h', effects) →
      m.checkSignature c = .ok true ∨ (h' = h ∧ effects = []) := by
    intro m rest rejects ran
    -- the check comes first in all three handlers
    obtain ⟨valid, signature, ran⟩ := Result.bind_ok.mp ran
    cases valid with
    | true => exact Or.inl signature
    | false =>
      rw [rejects] at ran
      obtain ⟨rfl, rfl⟩ := Prod.mk.inj (Except.ok.inj ran)
      exact Or.inr ⟨rfl, rfl⟩
  cases a with
  | getRequest req => exact Or.inl trivial
  | prepare master m => exact checked rfl ran
  | commit m => exact checked rfl ran
  | reply m => exact checked rfl ran

/-- An accepted pre-prepare fills in the body of its number, if that was empty. -/
theorem prepare_body {master : Master} (ran : h.prepare c master m = .ok (h', effects))
    (s : Nat) :
    (h'.proposal s).body =
      if m.checkSignature c = .ok true ∧ s = m.seq ∧ (h.proposal s).body = "" then m.body
      else (h.proposal s).body := by
  rcases prepare_cases ran with ⟨rfl, -, rejected⟩ | ⟨p, same, rfl, -, body, verdict⟩
  · rw [if_neg (by simp [rejected])]
  · -- the master was asked, so the message had been accepted
    have asked : effects ≠ [] := by
      rcases verdict with ⟨-, rfl⟩ | ⟨-, sig, rfl⟩ <;> simp
    have accepted : m.checkSignature c = .ok true :=
      (call_accepted (a := .prepare master m) ran).resolve_right fun quiet => asked quiet.2
    rw [setProposal_proposal]
    by_cases here : s = m.seq
    · subst here
      simpa [accepted] using body
    · simp [here]

/-! ### What a call broadcasts -/

/-- A number is handed out exactly by a request, and it is the handler's next one. -/
theorem call_numbered {a : Call} (ran : h.call c a = .ok (h', effects)) (s : Nat)
    (req : Request) :
    .numbered s req ∈ effects ↔ a = .getRequest req ∧ s = h.nextProposalSeq := by
  cases a with
  | getRequest req' =>
    obtain ⟨-, sm, -, -, -, -, rfl⟩ := preprepare_cases ran
    simp [and_comm, eq_comm]
  | prepare master m =>
    rcases prepare_cases ran with ⟨-, rfl, -⟩ | ⟨p, same, -, -, -, ⟨-, rfl⟩ | ⟨-, sig, rfl⟩⟩ <;>
      simp
  | commit m =>
    rcases commit_cases ran with ⟨-, rfl, -⟩ | ⟨p, same, -, ⟨-, rfl, -⟩ | ⟨-, -, -, sig, rfl⟩⟩ <;>
      simp
  | reply m =>
    rcases reply_cases ran with ⟨-, rfl, -⟩ | ⟨p, same, -, ⟨-, rfl, -⟩ | ⟨-, -, -, -, rfl⟩⟩ <;>
      simp

/-- The master is asked by `Prepare` only, about the body that the entry then has. -/
theorem call_checkProposal {a : Call} (ran : h.call c a = .ok (h', effects)) {s : Nat}
    {b : String} {verdict : Bool} (reported : .checkProposal s b verdict ∈ effects) :
    ∃ master m, a = .prepare master m ∧ m.seq = s ∧ (h'.proposal s).body = b ∧
      b = (if (h.proposal s).body = "" then m.body else (h.proposal s).body) ∧
      verdict = checkProposal master (h'.proposal s) := by
  cases a with
  | getRequest req =>
    obtain ⟨-, sm, -, -, -, -, rfl⟩ := preprepare_cases ran
    simp at reported
  | prepare master m =>
    refine ⟨master, m, rfl, ?_⟩
    rcases prepare_cases ran with
      ⟨-, rfl, -⟩ | ⟨p, same, rfl, -, body, ⟨refused, rfl⟩ | ⟨approved, sig, rfl⟩⟩
    · simp at reported
    · obtain ⟨rfl, rfl, rfl⟩ : s = m.seq ∧ b = p.body ∧ verdict = false := by
        simpa using reported
      simp [body, refused]
    · obtain ⟨rfl, rfl, rfl⟩ : s = m.seq ∧ b = p.body ∧ verdict = true := by
        simpa using reported
      simp [body, approved]
  | commit m =>
    rcases commit_cases ran with
      ⟨-, rfl, -⟩ | ⟨p, same, -, ⟨-, rfl, -⟩ | ⟨-, -, -, sig, rfl⟩⟩ <;> simp at reported
  | reply m =>
    rcases reply_cases ran with ⟨-, rfl, -⟩ | ⟨p, same, -, ⟨-, rfl, -⟩ | ⟨-, -, -, -, rfl⟩⟩ <;>
      simp at reported

/-- A proposal becomes prepared in `Commit` only. -/
theorem call_setPrepared {a : Call} (ran : h.call c a = .ok (h', effects)) {s : Nat}
    (reported : .setPrepared s ∈ effects) : ∃ m, a = .commit m ∧ m.seq = s := by
  cases a with
  | getRequest req =>
    obtain ⟨-, sm, -, -, -, -, rfl⟩ := preprepare_cases ran
    simp at reported
  | prepare master m =>
    rcases prepare_cases ran with
      ⟨-, rfl, -⟩ | ⟨p, same, -, -, -, ⟨-, rfl⟩ | ⟨-, sig, rfl⟩⟩ <;> simp at reported
  | commit m =>
    rcases commit_cases ran with
      ⟨-, rfl, -⟩ | ⟨p, same, -, ⟨-, rfl, -⟩ | ⟨-, -, -, sig, rfl⟩⟩
    · simp at reported
    · simp at reported
    · exact ⟨m, rfl, by simpa [eq_comm] using reported⟩
  | reply m =>
    rcases reply_cases ran with ⟨-, rfl, -⟩ | ⟨p, same, -, ⟨-, rfl, -⟩ | ⟨-, -, -, -, rfl⟩⟩ <;>
      simp at reported

/-- A proposal is executed in `Reply` only, which then does nothing else. -/
theorem call_commitAction {a : Call} (ran : h.call c a = .ok (h', effects)) {s : Nat}
    {b : String} (reported : .commitAction s b ∈ effects) :
    ∃ m, a = .reply m ∧ m.seq = s ∧ effects = [.commitAction s b] := by
  cases a with
  | getRequest req =>
    obtain ⟨-, sm, -, -, -, -, rfl⟩ := preprepare_cases ran
    simp at reported
  | prepare master m =>
    rcases prepare_cases ran with
      ⟨-, rfl, -⟩ | ⟨p, same, -, -, -, ⟨-, rfl⟩ | ⟨-, sig, rfl⟩⟩ <;> simp at reported
  | commit m =>
    rcases commit_cases ran with
      ⟨-, rfl, -⟩ | ⟨p, same, -, ⟨-, rfl, -⟩ | ⟨-, -, -, sig, rfl⟩⟩ <;> simp at reported
  | reply m =>
    rcases reply_cases ran with ⟨-, rfl, -⟩ | ⟨p, same, -, ⟨-, rfl, -⟩ | ⟨-, -, -, -, rfl⟩⟩
    · simp at reported
    · simp at reported
    · obtain ⟨rfl, rfl⟩ : s = m.seq ∧ b = p.body := by simpa using reported
      exact ⟨m, rfl, rfl, rfl⟩

/-- The numbers go up by one with each request. -/
theorem call_nextProposalSeq {a : Call} (ran : h.call c a = .ok (h', effects)) :
    h'.nextProposalSeq = h.nextProposalSeq + a.requests := by
  cases a with
  | getRequest req => rw [(preprepare_cases ran).1, addRequest_nextProposalSeq, Call.requests]
  | prepare master m =>
    rcases prepare_cases ran with ⟨rfl, -⟩ | ⟨p, same, rfl, -⟩ <;> rfl
  | commit m =>
    rcases commit_cases ran with ⟨rfl, -⟩ | ⟨p, same, -, ⟨rfl, -⟩ | ⟨-, -, rfl, -⟩⟩ <;> rfl
  | reply m =>
    rcases reply_cases ran with ⟨rfl, -⟩ | ⟨p, same, -, ⟨rfl, -⟩ | ⟨-, -, -, rfl, -⟩⟩ <;> rfl

/-- Every broadcast is signed with the handler's own id; only a pre-prepare carries a body,
and each type of message is sent together with what justifies it. -/
theorem call_broadcast {a : Call} (ran : h.call c a = .ok (h', effects)) {sm : Message}
    (reported : .sendMessage sm ∈ effects) :
    sm.replicaId = h.id ∧
      ((sm.mtype = .preprepare ∧ ∃ req, .numbered sm.seq req ∈ effects ∧ req.body = sm.body) ∨
        (sm.mtype = .prepare ∧ sm.body = "" ∧
          ∃ b, .checkProposal sm.seq b true ∈ effects) ∨
        (sm.mtype = .commit ∧ sm.body = "" ∧ .setPrepared sm.seq ∈ effects)) := by
  cases a with
  | getRequest req =>
    obtain ⟨-, sm', type, sender, seq, body, rfl⟩ := preprepare_cases ran
    obtain rfl : sm = sm' := by simpa using reported
    exact ⟨sender, Or.inl ⟨type, req, by simp [seq], body.symm⟩⟩
  | prepare master m =>
    rcases prepare_cases ran with
      ⟨-, rfl, -⟩ | ⟨p, same, -, -, -, ⟨-, rfl⟩ | ⟨-, sig, rfl⟩⟩
    · simp at reported
    · simp at reported
    · obtain rfl : sm = { h.vote c .prepare m with signature := sig } := by
        simpa using reported
      exact ⟨rfl, Or.inr (Or.inl ⟨rfl, rfl, p.body, by simp [vote]⟩)⟩
  | commit m =>
    rcases commit_cases ran with
      ⟨-, rfl, -⟩ | ⟨p, same, -, ⟨-, rfl, -⟩ | ⟨-, -, -, sig, rfl⟩⟩
    · simp at reported
    · simp at reported
    · obtain rfl : sm = { h.vote c .commit m with signature := sig } := by
        simpa using reported
      exact ⟨rfl, Or.inr (Or.inr ⟨rfl, rfl, by simp [vote]⟩)⟩
  | reply m =>
    rcases reply_cases ran with ⟨-, rfl, -⟩ | ⟨p, same, -, ⟨-, rfl, -⟩ | ⟨-, -, -, -, rfl⟩⟩ <;>
      simp at reported

end PBFTHandler

end Ruccoin.Pbft
