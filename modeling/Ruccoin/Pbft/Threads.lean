import Ruccoin.Foundation.Threads
import Ruccoin.Pbft.Calls

/-!
# Calls that run at the same time

The process serves its calls on several threads. Here each call is a program over the
handler and the log of what the process did: a lookup in one of the maps, an insertion, a
vote appended is one step, and so are the test of a flag and the few lines under `seq_lock_`.
What is done under one of the other mutexes is several steps between the one that takes it
and the one that gives it back. `CheckSignature` looks at the message only and comes before
the first step. An assertion that fails or an exception that leaves a handler ends the
process, so there is no step. `CommitAction` catches an `rpc_error` and returns; while the call
to the master has no answer the thread has no step either.
-/

namespace Ruccoin.Pbft

/-- The two digest operations that `UpdateInfo` consists of. -/
def VoteTable.insertDigest (table : VoteTable) (digest : String) : VoteTable :=
  if digest ∈ table then table else table.insert digest []

def VoteTable.pushBack (table : VoteTable) (digest : String) (replicaId : Nat) : VoteTable :=
  table.insert digest (table.votes digest ++ [replicaId])

/-- A change to the vote table that a message of type `t` counts in. -/
def Proposal.mapVotes (p : Proposal) (t : MType) (change : VoteTable → VoteTable) : Proposal :=
  match t with
  | .prepare => { p with prepareVotes := change p.prepareVotes }
  | .commit => { p with commitVotes := change p.commitVotes }
  | _ => p

theorem Proposal.mapVotes_f (p : Proposal) (t : MType) (change : VoteTable → VoteTable) :
    (p.mapVotes t change).f = p.f := by
  cases t <;> rfl

theorem Proposal.updateInfo_eq_mapVotes (p : Proposal) (m : Message) :
    p.updateInfo m = (p.mapVotes m.mtype (·.insertDigest m.digest)).mapVotes m.mtype
      (·.pushBack m.digest m.replicaId) := by
  unfold updateInfo mapVotes
  cases m.mtype <;> rfl

namespace PBFTHandler

/-- `proposals_.insert`, which leaves an entry that is there as it is. -/
def insertProposal (h : PBFTHandler) (seq : Nat) (p : Proposal) (same : p.f = h.f) :
    PBFTHandler :=
  match h.proposals seq with
  | none => h.setProposal seq p same
  | some _ => h

/-- A change to the object that the entry points to. -/
def edit (h : PBFTHandler) (seq : Nat) (change : Proposal → Proposal)
    (keeps : ∀ p, (change p).f = p.f) : PBFTHandler :=
  match found : h.proposals seq with
  | none => h
  | some p => h.setProposal seq (change p) ((keeps p).trans (h.uniform seq p found))

/-- The pre-prepare of `Preprepare`. -/
def announcement (c : Crypto) (h : PBFTHandler) (seq : Nat) (req : Request) : Message where
  mtype := .preprepare
  replicaId := h.id
  clientId := req.clientId
  timeStamp := req.timeStamp
  pubKey := h.pubKey
  seq := seq
  viewId := 0
  digest := Message.getDigest c req.body
  body := req.body

end PBFTHandler

/-- `proposals_mutex`, and the `ins_mutex_` of each proposal. -/
inductive Lock where
  | proposals
  | ins (seq : Nat)
deriving DecidableEq, Repr

/-- What the threads share. -/
structure Shared where
  handler : PBFTHandler
  log : List Effect

namespace Shared

def insert (σ : Shared) (seq : Nat) (p : Proposal) (same : p.f = σ.handler.f) : Shared :=
  { σ with handler := σ.handler.insertProposal seq p same }

def edit (σ : Shared) (seq : Nat) (change : Proposal → Proposal)
    (keeps : ∀ p, (change p).f = p.f) : Shared :=
  { σ with handler := σ.handler.edit seq change keeps }

def report (σ : Shared) (effect : Effect) : Shared :=
  { σ with log := σ.log ++ [effect] }

end Shared

/-- The two handlers that count a vote. -/
inductive Phase where
  | commit
  | reply
deriving DecidableEq, Repr

/-- What a thread does next, with the variables it needs for it. -/
inductive Point where
  -- `GetRequest`
  | takeNumber (req : Request)
  | findRequest (seq : Nat) (req : Request)
  | insertRequest (seq : Nat) (req : Request)
  | sendPreprepare (seq : Nat) (req : Request)
  | lockWait (seq : Nat)
  | testWait (seq : Nat)
  -- `Prepare`
  | lockTable (master : Master) (m : Message)
  | findPrepare (master : Master) (m : Message)
  | insertPrepare (master : Master) (m : Message)
  | lockBody (master : Master) (m : Message)
  | testBody (master : Master) (m : Message)
  | fillBody (master : Master) (m : Message)
  | unlockTable (master : Master) (m : Message)
  | askMaster (master : Master) (m : Message)
  | sendPrepare (m : Message)
  -- `Commit` and `Reply`
  | findEntry (phase : Phase) (m : Message)
  | insertEntry (phase : Phase) (m : Message)
  | findDigest (phase : Phase) (m : Message)
  | insertDigest (phase : Phase) (m : Message)
  | pushVote (phase : Phase) (m : Message)
  | lockVotes (phase : Phase) (m : Message)
  | testVotes (phase : Phase) (m : Message)
  | lockFlag (phase : Phase) (m : Message)
  | testFlag (phase : Phase) (m : Message)
  -- `Commit` after its test
  | setPrepared (m : Message)
  | sendCommit (m : Message)
  -- `Reply` after its test
  | callMaster (m : Message)
  | setCommitted (m : Message)

namespace Point

/-- `CheckSignature` raises an exception for the message of the call. -/
def fatal (c : Crypto) : Call → Bool
  | .getRequest _ => false
  | .prepare _ m | .commit m | .reply m => !(m.checkSignature c).isOk

/-- The point of a call at which it has read its argument. A message whose signature is not
accepted ends its call. -/
def enter (c : Crypto) : Call → Option Point
  | .getRequest req => some (.takeNumber req)
  | .prepare master m => if m.checkSignature c = .ok true then some (.lockTable master m) else none
  | .commit m => if m.checkSignature c = .ok true then some (.findEntry .commit m) else none
  | .reply m => if m.checkSignature c = .ok true then some (.findEntry .reply m) else none

/-- Where `UpdateInfo` begins. A message that is no vote is not counted. -/
def counting (phase : Phase) (m : Message) : Point :=
  match m.mtype with
  | .prepare => .findDigest phase m
  | .commit => .findDigest phase m
  | _ => .lockVotes phase m

/-- The entry for the digest is there. -/
def digestFound (p : Proposal) (m : Message) : Bool :=
  match m.mtype with
  | .prepare => decide (m.digest ∈ p.prepareVotes)
  | .commit => decide (m.digest ∈ p.commitVotes)
  | _ => false

/-- One step, at most one operation on a lock. -/
abbrev Step := Threads.Action Lock Shared Point

/-- A step to `next` without a lock. -/
def go (σ : Shared) (next : Point) : Option Step := some ⟨.keep, σ, some next⟩

/-- `Signate`, the assertion and `SendMessage`. -/
def send (c : Crypto) (σ : Shared) (m : Message) (next : Option Point) : Option Step :=
  match σ.handler.sign c m with
  | .ok sm => some ⟨.keep, σ.report (.sendMessage sm), next⟩
  | .error _ => none

def act (c : Crypto) (σ : Shared) : Point → Option Step
  | .takeNumber req =>
    let seq := σ.handler.nextProposalSeq
    let σ := σ.report (.numbered seq req)
    go { σ with handler := { σ.handler with nextProposalSeq := seq + 1 } } (.findRequest seq req)
  | .findRequest seq req =>
    go σ (if (σ.handler.proposals seq).isNone then .insertRequest seq req
      else .sendPreprepare seq req)
  | .insertRequest seq req =>
    go (σ.insert seq (Proposal.new req.timeStamp req.clientId seq req.body σ.handler.f) rfl)
      (.sendPreprepare seq req)
  | .sendPreprepare seq req =>
    send c σ (σ.handler.announcement c seq req) (some (.lockWait seq))
  | .lockWait seq => some ⟨.acquire (.ins seq), σ, some (.testWait seq)⟩
  | .testWait seq =>
    -- `wait` gives the mutex back, and may wake up without being notified
    some ⟨.release (.ins seq), σ,
      if σ.handler.requestCompleted seq then none else some (.lockWait seq)⟩
  | .lockTable master m => some ⟨.acquire .proposals, σ, some (.findPrepare master m)⟩
  | .findPrepare master m =>
    go σ (if (σ.handler.proposals m.seq).isNone then .insertPrepare master m
      else .lockBody master m)
  | .insertPrepare master m =>
    go (σ.insert m.seq (Proposal.new m.timeStamp m.clientId m.seq m.body σ.handler.f) rfl)
      (.unlockTable master m)
  | .lockBody master m => some ⟨.acquire (.ins m.seq), σ, some (.testBody master m)⟩
  | .testBody master m =>
    if (σ.handler.proposal m.seq).body.isEmpty then go σ (.fillBody master m)
    else some ⟨.release (.ins m.seq), σ, some (.unlockTable master m)⟩
  | .fillBody master m =>
    some ⟨.release (.ins m.seq), σ.edit m.seq (fun p => { p with body := m.body }) fun _ => rfl,
      some (.unlockTable master m)⟩
  | .unlockTable master m => some ⟨.release .proposals, σ, some (.askMaster master m)⟩
  | .askMaster master m =>
    -- the body is read without the mutex
    let p := σ.handler.proposal m.seq
    let verdict := PBFTHandler.checkProposal master p
    some ⟨.keep, σ.report (.checkProposal m.seq p.body verdict),
      if verdict then some (.sendPrepare m) else none⟩
  | .sendPrepare m => send c σ (σ.handler.vote c .prepare m) none
  | .findEntry phase m =>
    go σ (if (σ.handler.proposals m.seq).isNone then .insertEntry phase m else counting phase m)
  | .insertEntry phase m =>
    go (σ.insert m.seq (Proposal.new m.timeStamp m.clientId m.seq m.body σ.handler.f) rfl)
      (counting phase m)
  | .findDigest phase m =>
    go σ (if digestFound (σ.handler.proposal m.seq) m then .pushVote phase m
      else .insertDigest phase m)
  | .insertDigest phase m =>
    go (σ.edit m.seq (fun p => p.mapVotes m.mtype (·.insertDigest m.digest))
      fun p => p.mapVotes_f ..) (.pushVote phase m)
  | .pushVote phase m =>
    go (σ.edit m.seq (fun p => p.mapVotes m.mtype (·.pushBack m.digest m.replicaId))
      fun p => p.mapVotes_f ..) (.lockVotes phase m)
  | .lockVotes phase m => some ⟨.acquire (.ins m.seq), σ, some (.testVotes phase m)⟩
  | .testVotes phase m =>
    some ⟨.release (.ins m.seq), σ,
      if (σ.handler.proposal m.seq).checkVotes m.mtype then some (.lockFlag phase m) else none⟩
  | .lockFlag phase m => some ⟨.acquire (.ins m.seq), σ, some (.testFlag phase m)⟩
  | .testFlag .commit m =>
    if (σ.handler.proposal m.seq).prepared then some ⟨.release (.ins m.seq), σ, none⟩
    else go σ (.setPrepared m)
  | .testFlag .reply m =>
    let p := σ.handler.proposal m.seq
    if !p.committed && !p.body.isEmpty then go σ (.callMaster m)
    else some ⟨.release (.ins m.seq), σ, none⟩
  | .setPrepared m =>
    some ⟨.release (.ins m.seq),
      (σ.edit m.seq (fun p => { p with prepared := true }) fun _ => rfl).report
        (.setPrepared m.seq),
      some (.sendCommit m)⟩
  | .sendCommit m => send c σ (σ.handler.vote c .commit m) none
  | .callMaster m =>
    -- the mutex is held while the master works
    go (σ.report (.commitAction m.seq (σ.handler.proposal m.seq).body)) (.setCommitted m)
  | .setCommitted m =>
    some ⟨.release (.ins m.seq), σ.edit m.seq (fun p => { p with committed := true }) fun _ => rfl,
      none⟩

/-- The mutexes that a thread holds. -/
def held : Point → List Lock
  | .testWait seq => [.ins seq]
  | .findPrepare .. => [.proposals]
  | .insertPrepare .. => [.proposals]
  | .lockBody .. => [.proposals]
  | .testBody _ m => [.proposals, .ins m.seq]
  | .fillBody _ m => [.proposals, .ins m.seq]
  | .unlockTable .. => [.proposals]
  | .testVotes _ m => [.ins m.seq]
  | .testFlag _ m => [.ins m.seq]
  | .setPrepared m => [.ins m.seq]
  | .callMaster m => [.ins m.seq]
  | .setCommitted m => [.ins m.seq]
  | _ => []

abbrev Holds (p : Point) (l : Lock) : Prop := l ∈ p.held

theorem enter_free {c : Crypto} {a : Call} {p : Point} (entered : enter c a = some p) :
    p.held = [] := by
  cases a with
  | getRequest req =>
    cases entered
    rfl
  | prepare master m =>
    obtain ⟨-, same⟩ := Option.ite_none_right_eq_some.mp entered
    cases same
    rfl
  | commit m =>
    obtain ⟨-, same⟩ := Option.ite_none_right_eq_some.mp entered
    cases same
    rfl
  | reply m =>
    obtain ⟨-, same⟩ := Option.ite_none_right_eq_some.mp entered
    cases same
    rfl

@[simp] theorem counting_held (phase : Phase) (m : Message) : (counting phase m).held = [] := by
  unfold counting
  split <;> rfl

theorem send_eq {c : Crypto} {σ : Shared} {m : Message} {next : Option Point} {d : Step} :
    send c σ m next = some d ↔
      ∃ sm, σ.handler.sign c m = .ok sm ∧ ⟨.keep, σ.report (.sendMessage sm), next⟩ = d := by
  unfold send
  cases σ.handler.sign c m with
  | error e => simp
  | ok sm => simp

/-- A body that is there is left alone. -/
theorem testBody_cases {c : Crypto} {σ : Shared} {master : Master} {m : Message}
    {d : Step} (acts : (testBody master m).act c σ = some d) :
    ((σ.handler.proposal m.seq).body = "" ∧ d = ⟨.keep, σ, some (.fillBody master m)⟩) ∨
      d = ⟨.release (.ins m.seq), σ, some (.unlockTable master m)⟩ := by
  simp only [act] at acts
  split at acts
  next empty =>
    cases acts
    exact Or.inl ⟨String.isEmpty_iff.mp empty, rfl⟩
  next =>
    cases acts
    exact Or.inr rfl

/-- A thread whose test of the flag fails gives the mutex back. -/
theorem testFlag_cases {c : Crypto} {σ : Shared} {phase : Phase} {m : Message}
    {d : Step} (acts : (testFlag phase m).act c σ = some d) :
    d = ⟨.release (.ins m.seq), σ, none⟩ ∨
      ((σ.handler.proposal m.seq).prepared = false ∧ d = ⟨.keep, σ, some (.setPrepared m)⟩) ∨
      ((σ.handler.proposal m.seq).committed = false ∧ (σ.handler.proposal m.seq).body ≠ "" ∧
        d = ⟨.keep, σ, some (.callMaster m)⟩) := by
  cases phase with
  | commit =>
    simp only [act] at acts
    split at acts
    next =>
      cases acts
      exact Or.inl rfl
    next unset =>
      cases acts
      exact Or.inr (Or.inl ⟨by simpa using unset, rfl⟩)
  | reply =>
    simp only [act] at acts
    split at acts
    next ready =>
      cases acts
      obtain ⟨uncommitted, filled⟩ : (σ.handler.proposal m.seq).committed = false ∧
          (σ.handler.proposal m.seq).body ≠ "" := by
        simpa [String.isEmpty_iff] using ready
      exact Or.inr (Or.inr ⟨uncommitted, filled, rfl⟩)
    next =>
      cases acts
      exact Or.inl rfl

/-- The mutexes held at the next point. -/
def heldNext : Option Point → List Lock
  | some p => p.held
  | none => []

/-- Mutexes are taken and given back in the order of a stack. -/
def Stacked (before after : List Lock) : Threads.LockOp Lock → Prop
  | .keep => after = before
  | .acquire k => after = before ++ [k] ∧ k ∉ before
  | .release k => before = after ++ [k] ∧ k ∉ after

theorem act_stacked {c : Crypto} {σ : Shared} {p : Point} {d : Step}
    (acts : p.act c σ = some d) : Stacked p.held (heldNext d.next) d.lock := by
  have both : ∀ {b : Prop} [Decidable b] {x y : Point} {l : List Lock}, x.held = l → y.held = l →
      (if b then x else y).held = l := by
    intro b _ x y l left right
    split
    · exact left
    · exact right
  cases p with
  | findRequest | findPrepare | findDigest =>
    cases acts
    exact both rfl rfl
  | findEntry =>
    cases acts
    exact both rfl (counting_held ..)
  | insertEntry =>
    cases acts
    exact counting_held ..
  | testWait | testVotes | askMaster =>
    cases acts
    dsimp only
    split <;> simp [Stacked, held, heldNext]
  | testBody =>
    rcases testBody_cases acts with ⟨-, rfl⟩ | rfl
    · rfl
    · simp [Stacked, held, heldNext]
  | testFlag =>
    rcases testFlag_cases acts with rfl | ⟨-, rfl⟩ | ⟨-, -, rfl⟩
    · simp [Stacked, held, heldNext]
    · rfl
    · rfl
  | sendPreprepare | sendPrepare | sendCommit =>
    obtain ⟨sm, -, rfl⟩ := send_eq.mp acts
    rfl
  | _ =>
    cases acts
    simp [Stacked, held, heldNext]

end Point

/-- The program of the process. -/
def program (c : Crypto) : Threads.Program Lock Shared Point Call where
  fatal := Point.fatal c
  enter := Point.enter c
  act := Point.act c

theorem Point.heldAt_iff {next : Option Point} {l : Lock} :
    Threads.HeldAt Holds next l ↔ l ∈ heldNext next := by
  cases next with
  | none => simp [Threads.HeldAt, heldNext]
  | some p => simp [Threads.HeldAt, heldNext]

theorem program_disciplined (c : Crypto) : Threads.Disciplined (program c) Point.Holds where
  enter := by
    intro a p l entered held
    rw [Point.Holds, Point.enter_free entered] at held
    cases held
  act := by
    intro σ p d acts
    have stacked := Point.act_stacked acts
    cases op : d.lock with
    | keep =>
      rw [op] at stacked
      intro l
      rw [Point.heldAt_iff, show Point.heldNext d.next = p.held from stacked]
    | acquire k =>
      rw [op] at stacked
      obtain ⟨after, fresh⟩ := stacked
      refine ⟨fresh, fun l => ?_⟩
      rw [Point.heldAt_iff, after, List.mem_append, List.mem_singleton]
    | release k =>
      rw [op] at stacked
      obtain ⟨before, gone⟩ := stacked
      refine ⟨?_, fun l => ?_⟩
      · rw [Point.Holds, before]
        exact List.mem_append_right _ List.mem_cons_self
      · rw [Point.heldAt_iff, Point.Holds, before, List.mem_append, List.mem_singleton]
        constructor
        · intro kept
          exact ⟨Or.inl kept, fun same => gone (same ▸ kept)⟩
        · rintro ⟨kept | same, different⟩
          · exact kept
          · exact absurd same different

end Ruccoin.Pbft
