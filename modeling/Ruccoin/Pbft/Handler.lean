import Ruccoin.Config
import Ruccoin.Pbft.Proposal
import Mathlib.Logic.Function.Basic

/-!
# The request and message handlers

`PBFTHandler` of `bft_node.cc`. A call is a function from the handler's state to its next
state and the list of what it did on the way, in order: what it asked of its master, what
it broadcast and what it had executed. An assertion that fails, or an exception, ends the
call with a `Fault` instead.
-/

namespace Ruccoin.Pbft

/-- What a call does besides changing the state. `numbered`, `setPrepared` and the sequence
numbers of the two master calls are not visible outside; they mark which proposal a call
worked for. -/
inductive Effect where
  | numbered (seq : Nat) (req : Request)
  | checkProposal (seq : Nat) (body : String) (verdict : Bool)
  | sendMessage (m : Message)
  | setPrepared (seq : Nat)
  | commitAction (seq : Nat) (body : String)
deriving DecidableEq, Repr

/-- The master's answer to the `CheckProposal` call. -/
inductive MasterReply where
  | value (verdict : Bool)
  | rpcError
deriving DecidableEq, Repr

/-- The master process as one call finds it: its answer for each body. -/
abbrev Master := String → MasterReply

structure NodeMeta where
  replicaId : Nat
  hostname : String
  port : Nat
  pubKey : String

structure PBFTHandler where
  id : Nat
  currentPrimary : Nat
  privKey : String
  pubKey : String
  f : Nat
  nextProposalSeq : Nat
  proposals : Nat → Option Proposal
  nodes : List NodeMeta
  /-- Every proposal of the table counts its quorums with the handler's own `f_`. -/
  uniform : ∀ s p, proposals s = some p → p.f = f

namespace PBFTHandler

/-- `Init`. -/
def init (conf : Config) (id : Nat) : PBFTHandler where
  id := id
  currentPrimary := conf.pbftPrimary
  privKey := (conf.keys id).privKey
  pubKey := (conf.keys id).addr
  f := conf.f
  nextProposalSeq := 0
  proposals _ := none
  nodes := conf.nodeAddr.mapIdx fun index addr =>
    { replicaId := index
      hostname := (parseAddr addr).1
      -- the address is that of the coin node; its PBFT process listens 1000 ports above
      port := (parseAddr addr).2 + 1000
      pubKey := (conf.account (parseAddr addr).2).addr }
  uniform := by intro s p found; cases found

/-- `proposals_[seq] = p`. -/
def setProposal (h : PBFTHandler) (seq : Nat) (p : Proposal) (same : p.f = h.f) :
    PBFTHandler :=
  { h with
    proposals := Function.update h.proposals seq (some p)
    uniform := by
      intro s q found
      by_cases here : s = seq
      · subst here
        rw [Function.update_self] at found
        cases found
        exact same
      · rw [Function.update_of_ne here] at found
        exact h.uniform s q found }

/-- What the table holds for a number, an empty proposal when it holds nothing. -/
def proposal (h : PBFTHandler) (seq : Nat) : Proposal :=
  (h.proposals seq).getD (Proposal.new 0 0 seq "" h.f)

/-- The entry a pre-prepare leaves: a new proposal, or the old one with its body filled in
when that was empty. -/
def storeBody (h : PBFTHandler) (m : Message) : Proposal :=
  match h.proposals m.seq with
  | none => Proposal.new m.timeStamp m.clientId m.seq m.body h.f
  -- votes that came first have made an entry without a body
  | some p => if p.body.isEmpty then { p with body := m.body } else p

/-- The entry `Commit` and `Reply` work on: they create it from the message when it is
missing, the body of the message included. -/
def findOrCreate (h : PBFTHandler) (m : Message) : Proposal :=
  (h.proposals m.seq).getD (Proposal.new m.timeStamp m.clientId m.seq m.body h.f)

/-- `CheckProposal`: an RPC error counts as approval. -/
def checkProposal (master : Master) (p : Proposal) : Bool :=
  match master p.body with
  | .value verdict => verdict
  | .rpcError => true

/-- `CheckSeqNumber`. -/
def checkSeqNumber (_m : Message) : Bool := true

/-- The vote that `Prepare` and `Commit` send on: its digest is that of the body of the
message being handled. -/
def vote (c : Crypto) (h : PBFTHandler) (mtype : MType) (m : Message) : Message where
  mtype := mtype
  replicaId := h.id
  clientId := m.clientId
  timeStamp := m.timeStamp
  pubKey := h.pubKey
  seq := m.seq
  viewId := 0
  digest := Message.getDigest c m.body

/-- `Signate` followed by `assert(CheckSignature(..))`. -/
def sign (c : Crypto) (h : PBFTHandler) (m : Message) : Except Fault Message :=
  (m.signate c h.privKey).bind fun sm =>
    (sm.checkSignature c).bind fun valid => if valid then .ok sm else .error .assertFailed

theorem storeBody_f (h : PBFTHandler) (m : Message) : (h.storeBody m).f = h.f := by
  unfold storeBody
  split
  · rfl
  next p found =>
    have same := h.uniform _ _ found
    split <;> exact same

theorem findOrCreate_f (h : PBFTHandler) (m : Message) : (h.findOrCreate m).f = h.f := by
  unfold findOrCreate
  cases found : h.proposals m.seq with
  | none => rfl
  | some p => exact h.uniform _ _ found

/-- The first half of `Preprepare`: take the next number and, unless a message already
made an entry for it, store a proposal with the request's body. -/
def addRequest (h : PBFTHandler) (req : Request) : PBFTHandler :=
  let currentSeq := h.nextProposalSeq
  let h := { h with nextProposalSeq := currentSeq + 1 }
  match h.proposals currentSeq with
  | none =>
    h.setProposal currentSeq
      (Proposal.new req.timeStamp req.clientId currentSeq req.body h.f) (Proposal.new_f ..)
  -- the body of the request is not looked at, also when the entry has none
  | some _ => h

/-- `GetRequest` up to its wait, which is `Preprepare`. That the handler is the primary is
logged when it fails and otherwise not looked at. -/
def preprepare (c : Crypto) (h : PBFTHandler) (req : Request) :
    Except Fault (PBFTHandler × List Effect) :=
  let currentSeq := h.nextProposalSeq
  let h := h.addRequest req
  let m : Message :=
    { mtype := .preprepare
      replicaId := h.id
      clientId := req.clientId
      timeStamp := req.timeStamp
      pubKey := h.pubKey
      seq := currentSeq
      viewId := 0
      digest := Message.getDigest c req.body
      body := req.body }
  (h.sign c m).map fun sm => (h, [.numbered currentSeq req, .sendMessage sm])

/-- What `GetRequest` waits for after `Preprepare` returned the number. -/
def requestCompleted (h : PBFTHandler) (seq : Nat) : Bool := (h.proposal seq).committed

def prepare (c : Crypto) (master : Master) (h : PBFTHandler) (m : Message) :
    Except Fault (PBFTHandler × List Effect) :=
  (m.checkSignature c).bind fun valid =>
    if !valid then .ok (h, [])
    else if !checkSeqNumber m then .ok (h, [])
    else
      let p := h.storeBody m
      let h' := h.setProposal m.seq p (h.storeBody_f m)
      -- a refused proposal stays in the table, and no vote is sent
      if !checkProposal master p then .ok (h', [.checkProposal m.seq p.body false])
      else (h'.sign c (h'.vote c .prepare m)).map fun sm =>
        (h', [.checkProposal m.seq p.body true, .sendMessage sm])

def commit (c : Crypto) (h : PBFTHandler) (m : Message) :
    Except Fault (PBFTHandler × List Effect) :=
  (m.checkSignature c).bind fun valid =>
    if !valid then .ok (h, [])
    else if !checkSeqNumber m then .ok (h, [])
    else
      let p := (h.findOrCreate m).updateInfo m
      have same : p.f = h.f := by simpa [p] using h.findOrCreate_f m
      if p.checkVotes m.mtype then
        -- the vote is sent once, by the message that completed the quorum
        if p.prepared then .ok (h.setProposal m.seq p same, [])
        else
          let h' := h.setProposal m.seq { p with prepared := true } same
          (h'.sign c (h'.vote c .commit m)).map fun sm =>
            (h', [.setPrepared m.seq, .sendMessage sm])
      else .ok (h.setProposal m.seq p same, [])

def reply (c : Crypto) (h : PBFTHandler) (m : Message) :
    Except Fault (PBFTHandler × List Effect) :=
  (m.checkSignature c).bind fun valid =>
    if !valid then .ok (h, [])
    else if !checkSeqNumber m then .ok (h, [])
    else
      let p := (h.findOrCreate m).updateInfo m
      have same : p.f = h.f := by simpa [p] using h.findOrCreate_f m
      -- a quorum without a body is passed over, and only another message looks at it again
      if p.checkVotes m.mtype && (!p.committed && !p.body.isEmpty) then
        .ok (h.setProposal m.seq { p with committed := true } same,
          [.commitAction m.seq p.body])
      else .ok (h.setProposal m.seq p same, [])

end PBFTHandler

end Ruccoin.Pbft
