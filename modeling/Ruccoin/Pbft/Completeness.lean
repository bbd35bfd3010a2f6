import Ruccoin.Pbft.Arrivals

/-!
# What is completed when every message has arrived

A Commit that arrives before the pre-prepare is counted and then forgotten: `Reply` looks at
the quorum again only when a further Commit arrives, and `Prepare`, which fills in the body,
does not look at it at all. So a replica other than the primary completes a proposal exactly
when the last Commit to arrive there arrives after the pre-prepare.

A handler call is one step: a message arrives when its handler takes it up, and of two that
wait on different threads the one whose call takes effect first has arrived first.
-/

namespace Ruccoin.Pbft.World

open Transition PBFTHandler

variable {c : Crypto} {conf : Config} {w w' : World}

/-- Requests have a body, and no master refuses one; an RPC error counts as approval. -/
def Agreeable : Label → Prop
  | .request _ req => req.body ≠ ""
  | .deliver _ _ master => ∀ b, master b ≠ .value false
  | .inject .. => True

/-- A fault-free run in which every proposal is approved of. -/
def Supportive (conf : Config) (w : World) (a : Label) : Prop :=
  w.Benign conf a ∧ Agreeable a

/-- Every broadcast has arrived at every replica. -/
def Quiescent (conf : Config) (w : World) : Prop :=
  ∀ k < w.sent.length, ∀ i < conf.n, w.Arrived k i

instance (conf : Config) (w : World) : Decidable (w.Quiescent conf) :=
  inferInstanceAs (Decidable (∀ k < w.sent.length, ∀ i < conf.n, w.Arrived k i))

/-- Every replica has committed and executed every proposal the primary numbered. -/
def Completed (conf : Config) (w : World) : Prop :=
  ∀ s req, Did w.history conf.pbftPrimary (.numbered s req) → ∀ i < conf.n,
    ((w.replicas i).proposal s).committed = true ∧ Did w.history i (.commitAction s req.body)

/-! ### Only numbered proposals are in the tables -/

theorem sent_numbered (reached : Reach (step c conf) (Benign conf) (init conf) w) {m : Message}
    (sent : m ∈ w.sent) : ∃ req, Did w.history conf.pbftPrimary (.numbered m.seq req) := by
  have ofPrepare : ∀ m ∈ w.sent, m.mtype = .prepare →
      ∃ req, Did w.history conf.pbftPrimary (.numbered m.seq req) := by
    intro m sent type
    obtain ⟨-, b, checked⟩ := (sent_justified reached sent).2.2.prepare type
    obtain ⟨req, did, -⟩ := checked_primary reached checked
    exact ⟨req, did⟩
  obtain ⟨-, -, ⟨type, -⟩ | ⟨type, -⟩ | ⟨-, -, flagged⟩⟩ := sent_justified reached sent
  · obtain ⟨-, req, did, -⟩ := preprepare_numbered (Benign.trusted reached) sent type
    exact ⟨req, did⟩
  · exact ofPrepare m sent type
  · -- a Commit stands on a quorum of Prepare messages
    have flag := (flags_reported reached _ _).prepared.mpr flagged
    obtain ⟨digest, voters, large, voted⟩ := quorum_backed reached (prepared_quorum reached flag)
    obtain ⟨v, member⟩ : voters.Nonempty := Finset.card_pos.mp (by omega)
    obtain ⟨k, m', found, type', seq, -⟩ := voted v member
    rw [← seq]
    exact ofPrepare m' (List.mem_of_getElem? found) type'

theorem table_numbered (reached : Reach (step c conf) (Benign conf) (init conf) w) {i s : Nat}
    (present : (w.replicas i).proposals s ≠ none) :
    ∃ req, Did w.history conf.pbftPrimary (.numbered s req) := by
  induction reached with
  | start => exact absurd rfl present
  | @step before after label reached allowed taken ih =>
    have later : (∃ req, Did before.history conf.pbftPrimary (.numbered s req)) →
        ∃ req, Did after.history conf.pbftPrimary (.numbered s req) := by
      rintro ⟨req, did⟩
      exact ⟨req, did_mono taken did⟩
    obtain ⟨j, source, h, effects, -, rfl, ran⟩ := step_cases taken
    rw [record_replicas] at present
    split at present
    next here =>
      subst here
      -- what creates an entry is its request, or a message with its number
      cases source with
      | none =>
        obtain ⟨req, rfl, called⟩ := ran.requests allowed.1
        rcases call_present (a := .getRequest req) called present with old | number
        · exact later (ih old)
        · have primary : i = conf.pbftPrimary := allowed.2.1
          have did := (call_numbered (a := .getRequest req) called s req).mpr ⟨rfl, number.symm⟩
          exact ⟨req, (did_record ..).mpr (Or.inl ⟨primary, did⟩)⟩
      | some k =>
        obtain ⟨m, master, -, found, runs⟩ := ran.delivers
        have ofMessage : (before.replicas i).proposals s ≠ none ∨ m.seq = s := by
          rcases runs with ⟨-, ran⟩ | ⟨-, ran⟩ | ⟨-, ran⟩
          · exact call_present (a := .prepare master m) ran present
          · exact call_present (a := .commit m) ran present
          · exact call_present (a := .reply m) ran present
        rcases ofMessage with old | rfl
        · exact later (ih old)
        · exact later (sent_numbered reached (List.mem_of_getElem? found))
    next => exact later (ih present)

/-! ### Who knows the body -/

theorem Supportive.benign (reached : Reach (step c conf) (Supportive conf) (init conf) w) :
    Reach (step c conf) (Benign conf) (init conf) w :=
  reached.mono fun _ _ allowed => allowed.1

theorem numbered_nonempty (reached : Reach (step c conf) (Supportive conf) (init conf) w)
    {i s : Nat} {req : Request} (did : Did w.history i (.numbered s req)) : req.body ≠ "" := by
  induction reached with
  | start => simp [init, Did] at did
  | step _ allowed taken ih =>
    obtain ⟨j, source, h, effects, -, rfl, ran⟩ := step_cases taken
    rcases (did_record ..).mp did with ⟨rfl, new⟩ | old
    · -- numbered by this step, which is a request
      have agreeable := allowed.2
      rw [ran.numbers allowed.1.1 new] at agreeable
      exact agreeable
    · exact ih old

/-- A body that is known stays known. -/
private theorem body_kept {a : Label} (taken : step c conf w a = some w') {i s : Nat}
    (known : ((w.replicas i).proposal s).body ≠ "") :
    ((w'.replicas i).proposal s).body ≠ "" := by
  rcases replica_step taken i with same | ⟨call, effects, called⟩
  · rw [same]
    exact known
  · rw [call_body_kept called known]
    exact known

/-- The primary knows the body of a proposal from its request on. -/
theorem primary_knows (reached : Reach (step c conf) (Supportive conf) (init conf) w) {s : Nat}
    {req : Request} (did : Did w.history conf.pbftPrimary (.numbered s req)) :
    ((w.replicas conf.pbftPrimary).proposal s).body ≠ "" := by
  induction reached with
  | start => simp [init, Did] at did
  | @step before after label reached allowed taken ih =>
    have taken' := taken
    obtain ⟨j, source, h, effects, -, rfl, ran⟩ := step_cases taken
    rcases (did_record ..).mp did with ⟨rfl, new⟩ | old
    · obtain rfl := ran.numbers allowed.1.1 new
      have nonempty : req.body ≠ "" := allowed.2
      cases ran with
      | request ran =>
        obtain ⟨-, number⟩ := (call_numbered (a := .getRequest req) ran s req).mp new
        -- no message mentioned the number before, so the request makes the entry
        have missing : (before.replicas conf.pbftPrimary).proposals s = none := by
          by_contra present
          obtain ⟨req', used⟩ := table_numbered (Supportive.benign reached) present
          have below := (numbering reached conf.pbftPrimary).below s req' used
          omega
        rw [number] at missing ⊢
        rw [record_self, (preprepare_cases ran).1, addRequest_new missing req]
        exact nonempty
    · exact body_kept taken' (ih old)

/-- A pre-prepare that arrived was stored and answered. -/
theorem preprepare_answered (reached : Reach (step c conf) (Supportive conf) (init conf) w)
    {k i : Nat} {m : Message} (found : w.sent[k]? = some m) (type : m.mtype = .preprepare)
    (arrived : w.Arrived k i) :
    ((w.replicas i).proposal m.seq).body ≠ "" ∧
      ∃ sm ∈ w.sent, sm.mtype = .prepare ∧ sm.seq = m.seq ∧ sm.replicaId = i ∧
        sm.digest = Message.getDigest c m.body := by
  refine arrived_rule (P := fun w i m => m.mtype = .preprepare →
    ((w.replicas i).proposal m.seq).body ≠ "" ∧
      ∃ sm ∈ w.sent, sm.mtype = .prepare ∧ sm.seq = m.seq ∧ sm.replicaId = i ∧
        sm.digest = Message.getDigest c m.body) ?_ ?_ reached found arrived type
  · intro w a i k m h effects reached allowed found ran type
    rw [record_self]
    obtain ⟨master, rfl, runs⟩ := ran.delivery found
    have sent := List.mem_of_getElem? found
    have valid := sent_valid reached sent
    obtain ⟨-, req, did, bodyEq⟩ := preprepare_numbered
      (Benign.trusted (Supportive.benign reached)) sent type
    have nonempty : m.body ≠ "" := by
      rw [← bodyEq]
      exact numbered_nonempty reached did
    rw [type] at runs
    rcases runs with ⟨-, ran⟩ | ⟨wrong, -⟩ | ⟨wrong, -⟩
    · rcases prepare_cases ran with
        ⟨-, -, invalid⟩ | ⟨p, same, rfl, -, body, ⟨refused, -⟩ | ⟨-, sig, rfl⟩⟩
      · rw [valid] at invalid; cases invalid
      · -- no master refuses
        have agreeable : ∀ b, master b ≠ .value false := allowed.2
        unfold checkProposal at refused
        cases answer : master p.body with
        | value verdict =>
          rw [answer] at refused
          exact absurd (by rw [answer]; exact congrArg _ refused) (agreeable p.body)
        | rpcError =>
          rw [answer] at refused
          cases refused
      · constructor
        · rw [setProposal_proposal, if_pos rfl, body]
          split
          next => exact nonempty
          next known => exact known
        · refine ⟨_, (mem_record_sent ..).mpr (Or.inr (List.mem_cons_of_mem _
            List.mem_cons_self)), rfl, rfl, (settings_kept reached i).id, rfl⟩
    · cases wrong
    · cases wrong
  · intro w a w' i m _ _ taken answered type
    obtain ⟨known, sm, sent, rest⟩ := answered type
    refine ⟨body_kept taken known, sm, ?_, rest⟩
    obtain ⟨j, source, h, effects, -, rfl, -⟩ := step_cases taken
    exact (mem_record_sent ..).mpr (Or.inl sent)

/-- Any other replica knows a body only from the pre-prepare. -/
theorem known_arrived (reached : Reach (step c conf) (Supportive conf) (init conf) w)
    {i s : Nat} (known : ((w.replicas i).proposal s).body ≠ "") :
    i = conf.pbftPrimary ∨ .preprepare ∈ w.arrivals i s := by
  induction reached with
  | start => exact absurd rfl known
  | @step before after label reached allowed taken ih =>
    obtain ⟨j, source, h, effects, -, rfl, ran⟩ := step_cases taken
    by_cases here : j = i
    · subst here
      rw [record_self] at known
      cases source with
      | none =>
        obtain ⟨req, rfl, -⟩ := ran.requests allowed.1.1
        exact Or.inl allowed.1.2.1
      | some k =>
        obtain ⟨m, master, -, found, runs⟩ := ran.delivers
        rw [arrivals_deliver reached found]
        have old : ((before.replicas j).proposal s).body ≠ "" →
            j = conf.pbftPrimary ∨
              .preprepare ∈ (if m.seq = s then m.mtype :: before.arrivals j s
                else before.arrivals j s) := by
          intro before_known
          rcases ih before_known with primary | member
          · exact Or.inl primary
          · right
            split
            · exact List.mem_cons_of_mem _ member
            · exact member
        -- a vote has no body to offer
        have vote : ∀ call : Call, m.mtype ≠ .preprepare →
            (before.replicas j).supplies call = (m.seq, m.body) →
            (before.replicas j).call c call = .ok (h, effects) →
            ((before.replicas j).proposal s).body ≠ "" := by
          intro call type supplied called
          rcases call_body called s with kept | ⟨-, filled⟩
          · rwa [kept] at known
          · rw [supplied, Prod.mk.injEq] at filled
            obtain ⟨-, -, justified⟩ := sent_justified reached (List.mem_of_getElem? found)
            exact absurd (filled.2.symm.trans (justified.vote_body type)) known
        rcases runs with ⟨type, ran⟩ | ⟨type, ran⟩ | ⟨type, ran⟩
        · -- the pre-prepare itself arrives
          rcases call_body (a := .prepare master m) ran s with kept | ⟨-, filled⟩
          · exact old (by rwa [kept] at known)
          · right
            rw [if_pos (Prod.mk.inj filled).1, type]
            exact List.mem_cons_self
        · exact old (vote (.commit m) (by rw [type]; decide) rfl ran)
        · exact old (vote (.reply m) (by rw [type]; decide) rfl ran)
    · rw [record_other here] at known
      rw [arrivals_other reached here]
      exact ih known

/-! ### When a proposal is committed -/

/-- The last Commit for `s` to arrive at replica `i` arrived after the pre-prepare. -/
def InTime (w : World) (i s : Nat) : Prop :=
  [MType.commit, MType.preprepare].Sublist (w.arrivals i s)

instance (w : World) (i s : Nat) : Decidable (w.InTime i s) :=
  inferInstanceAs (Decidable (List.Sublist _ _))

theorem InTime.mono {guard : World → Label → Prop} {a : Label}
    (reached : Reach (step c conf) guard (init conf) w) (taken : step c conf w a = some w')
    {i s : Nat} (inTime : w.InTime i s) : w'.InTime i s := by
  obtain ⟨j, source, h, effects, -, rfl, -⟩ := step_cases taken
  unfold InTime
  rw [arrivals_record reached]
  exact inTime.trans (List.sublist_append_right _ _)

/-- A replica that is not the primary executes in time or not at all. -/
theorem executed_in_time (reached : Reach (step c conf) (Supportive conf) (init conf) w)
    {i s : Nat} {b : String} (executed : Did w.history i (.commitAction s b)) :
    i = conf.pbftPrimary ∨ w.InTime i s := by
  induction reached with
  | start => simp [init, Did] at executed
  | @step before after label reached allowed taken ih =>
    have taken' := taken
    obtain ⟨j, source, h, effects, -, rfl, ran⟩ := step_cases taken
    rcases (did_record ..).mp executed with ⟨rfl, new⟩ | old
    · obtain ⟨k, m, master, -, rfl, found, type, rfl, -, ran⟩ := ran.executes allowed.1.1 new
      obtain ⟨-, nonempty, body⟩ := (call_flags (a := .reply m) ran m.seq).commitAction b new
      -- the Commit brought no body, so the replica knew it before
      have known : ((before.replicas j).proposal m.seq).body ≠ "" := by
        rcases call_body (a := .reply m) ran m.seq with kept | ⟨-, filled⟩
        · rw [← kept, body]
          exact nonempty
        · obtain ⟨-, -, justified⟩ := sent_justified reached (List.mem_of_getElem? found)
          have offered : m.body = (h.proposal m.seq).body := (Prod.mk.inj filled).2
          rw [(justified.commit type).1, body] at offered
          exact absurd offered.symm nonempty
      rcases known_arrived reached known with primary | member
      · exact Or.inl primary
      · right
        unfold InTime
        rw [arrivals_deliver reached found, if_pos rfl, type]
        exact List.Sublist.cons_cons _ (List.singleton_sublist.mpr member)
    · rcases ih old with primary | inTime
      · exact Or.inl primary
      · exact Or.inr (inTime.mono reached taken')

/-- A step that is not the arrival of a Commit for `s` does not bring anything in time. -/
private theorem InTime.before {a : Label} {i s : Nat} {source : Option Nat} {h : PBFTHandler}
    {effects : List Effect} (reached : Reach (step c conf) (Supportive conf) (init conf) w)
    (ran : Ran c w a i source h effects)
    (quiet : ∀ k m, source = some k → w.sent[k]? = some m → m.mtype = .commit → m.seq ≠ s)
    (inTime : (w.record i source h effects).InTime i s) : w.InTime i s := by
  unfold InTime at inTime ⊢
  cases source with
  | none => rwa [arrivals_request reached] at inTime
  | some k =>
    obtain ⟨m, -, -, found, -⟩ := ran.delivers
    rw [arrivals_deliver reached found] at inTime
    split at inTime
    next seq =>
      -- another type for `s` is put in front of the arrivals, where it does not help
      have other : m.mtype ≠ .commit := fun type => quiet k m rfl found type seq
      rcases List.sublist_cons_iff.mp inTime with old | ⟨rest, split, -⟩
      · exact old
      · exact absurd (List.cons.inj split).1.symm other
    next => exact inTime

/-- Where a Commit arrives in time, or at the primary, the body is known by then. -/
private theorem known_in_time {i k : Nat} {m : Message} {h : PBFTHandler}
    {effects : List Effect} (reached : Reach (step c conf) (Supportive conf) (init conf) w)
    (found : w.sent[k]? = some m) (type : m.mtype = .commit)
    (inTime : i = conf.pbftPrimary ∨ (w.record i (some k) h effects).InTime i m.seq) :
    ((w.replicas i).proposal m.seq).body ≠ "" := by
  rcases inTime with rfl | inTime
  · obtain ⟨req, did⟩ := sent_numbered (Supportive.benign reached) (List.mem_of_getElem? found)
    exact primary_knows reached did
  · unfold InTime at inTime
    rw [arrivals_deliver reached found, if_pos rfl] at inTime
    have earlier : MType.preprepare ∈ w.arrivals i m.seq := by
      have member : MType.preprepare ∈ m.mtype :: w.arrivals i m.seq :=
        inTime.subset (by simp)
      rw [type] at member
      simpa using member
    obtain ⟨k', m', found', type', seq, arrived⟩ := (mem_arrivals ..).mp earlier
    rw [← seq]
    exact (preprepare_answered reached found' type' arrived).1

/-- At the primary, and wherever the last Commit came in time, a quorum of them commits. -/
theorem quorum_committed (reached : Reach (step c conf) (Supportive conf) (init conf) w)
    {i s : Nat} (inTime : i = conf.pbftPrimary ∨ w.InTime i s)
    (quorum : ((w.replicas i).proposal s).Quorum .commit) :
    ((w.replicas i).proposal s).committed = true := by
  induction reached with
  | start =>
    obtain ⟨digest, large⟩ := quorum
    simp [init] at large
  | @step before after label reached allowed taken ih =>
    obtain ⟨j, source, h, effects, -, rfl, ran⟩ := step_cases taken
    by_cases here : j = i
    · subst here
      rw [record_self] at quorum ⊢
      obtain ⟨call, called⟩ := ran.call
      by_cases already : ((before.replicas j).proposal s).committed = true
      · exact (call_flags called s).committed.mpr (Or.inl already)
      -- not committed before, so the step is the arrival of a Commit for `s`
      have counts : ∃ k m, source = some k ∧ before.sent[k]? = some m ∧ m.mtype = .commit ∧
          m.seq = s := by
        rcases ran.completes allowed.1.1 quorum with quorumBefore | counted
        · by_contra none
          refine already (ih (inTime.imp_right ?_) quorumBefore)
          exact InTime.before reached ran fun k m origin found type seq =>
            none ⟨k, m, origin, found, type, seq⟩
        · exact counted
      obtain ⟨k, m, rfl, found, type, rfl⟩ := counts
      have known := known_in_time reached found type inTime
      -- `Reply` accepts the Commit, sees the quorum and knows the body
      obtain ⟨master, -, runs⟩ := ran.delivery found
      rw [type] at runs
      rcases runs with ⟨wrong, -⟩ | ⟨wrong, -⟩ | ⟨-, ran⟩
      · cases wrong
      · cases wrong
      · rcases reply_cases ran with
          ⟨-, -, invalid⟩ | ⟨p, same, rfl, ⟨rfl, -, waits⟩ | ⟨-, -, -, rfl, -⟩⟩
        · rw [sent_valid reached (List.mem_of_getElem? found)] at invalid; cases invalid
        · rw [setProposal_proposal, if_pos rfl] at quorum ⊢
          by_contra unset
          refine waits ⟨?_, Bool.not_eq_true _ ▸ unset, ?_⟩
          · rw [type, Proposal.checkVotes_commit]
            exact Or.inr quorum
          · rw [Proposal.updateInfo_body]
            rcases (before.replicas j).findOrCreate_body m with kept | ⟨empty, -⟩
            · rw [kept]
              exact known
            · exact absurd empty known
        · rw [setProposal_proposal, if_pos rfl]
    · -- nothing arrived at this replica
      rw [record_other here] at quorum ⊢
      exact ih (by unfold InTime at inTime ⊢; rwa [arrivals_other reached here] at inTime) quorum

/-- When every message has arrived, each replica has a Commit quorum for every number. -/
theorem quiescent_quorum (reached : Reach (step c conf) (Supportive conf) (init conf) w)
    (quiet : w.Quiescent conf) {s : Nat} {req : Request}
    (did : Did w.history conf.pbftPrimary (.numbered s req)) {i : Nat} (bound : i < conf.n) :
    ((w.replicas i).proposal s).Quorum .commit := by
  have benign := Supportive.benign reached
  have nonempty : 1 ≤ conf.n := by omega
  have arrives : ∀ {m : Message}, m ∈ w.sent → ∀ i < conf.n,
      ∃ k, w.sent[k]? = some m ∧ w.Arrived k i := by
    intro m sent i bound
    obtain ⟨k, below, found⟩ := List.getElem_of_mem sent
    exact ⟨k, List.getElem?_eq_some_iff.mpr ⟨below, found⟩, quiet k below i bound⟩
  -- the pre-prepare is answered by everyone
  obtain ⟨pm, pmSent, pmType, rfl, pmBody⟩ := numbered_sent benign did
  have prepares : ∀ i < conf.n, ∀ v < conf.n,
      w.Voted i pm.seq .prepare (Message.getDigest c pm.body) v := by
    intro i bound v member
    obtain ⟨k, found, arrived⟩ := arrives pmSent v member
    obtain ⟨-, sm, sent, type, seq, owner, digest⟩ :=
      preprepare_answered reached found pmType arrived
    obtain ⟨k', found', arrived'⟩ := arrives sent i bound
    exact ⟨k', sm, found', type, seq, digest, owner, arrived'⟩
  -- so everyone is prepared and says so
  have commits : ∀ v < conf.n, w.Voted i pm.seq .commit (Message.getDigest c "") v := by
    intro v member
    have prepared := quorum_prepared benign
      (quorum_of_all benign (Or.inl rfl) nonempty (prepares v member))
    obtain ⟨m, sent, type, seq, owner, digest⟩ := prepared_sent benign prepared
    obtain ⟨k, found, arrived⟩ := arrives sent i bound
    exact ⟨k, m, found, type, seq, digest, owner, arrived⟩
  exact quorum_of_all benign (Or.inr rfl) nonempty commits

/-- When every message has arrived, the run is complete exactly if every replica other than
the primary received its last Commit for each number after the pre-prepare. -/
theorem completed_iff (reached : Reach (step c conf) (Supportive conf) (init conf) w)
    (quiet : w.Quiescent conf) :
    w.Completed conf ↔ ∀ s req, Did w.history conf.pbftPrimary (.numbered s req) →
      ∀ i < conf.n, i ≠ conf.pbftPrimary → w.InTime i s := by
  have benign := Supportive.benign reached
  constructor
  · intro completed s req did i bound other
    rcases executed_in_time reached (completed s req did i bound).2 with primary | inTime
    · exact absurd primary other
    · exact inTime
  · intro inTime s req did i bound
    have timely : i = conf.pbftPrimary ∨ w.InTime i s := by
      by_cases primary : i = conf.pbftPrimary
      · exact Or.inl primary
      · exact Or.inr (inTime s req did i bound primary)
    have committed := quorum_committed reached timely (quiescent_quorum reached quiet did bound)
    obtain ⟨b, executed⟩ := (flags_reported reached i s).committed.mp committed
    -- what was executed is the body of the one request with the number
    have numbered := executed_primary (Benign.trusted benign) executed
    obtain rfl := numbered.unique benign ⟨req, did, rfl⟩
    exact ⟨committed, executed⟩

/-- One request among two replicas, every message delivered in the order of sending. -/
def orderlyRun : List Label :=
  .request 0 ⟨0, 0, "A"⟩ ::
    (List.range 5).flatMap fun k => [.deliver k 0 approving, .deliver k 1 approving]

/-- The same request, and the pre-prepare reaches replica 1 after every Commit. -/
def latePreprepareRun : List Label :=
  .request 0 ⟨0, 0, "A"⟩ :: ([(0, 0), (1, 0), (1, 1), (2, 0), (2, 1), (3, 0), (3, 1), (0, 1),
    (4, 0), (4, 1)].map fun (k, i) => .deliver k i approving)

private theorem agreeable_of_approving {run : List Label}
    (approves : ∀ a ∈ run, (∃ req, req.body ≠ "" ∧ a = .request 0 req) ∨
      ∃ k i, a = .deliver k i approving) : ∀ a ∈ run, Agreeable a := by
  intro a member
  rcases approves a member with ⟨req, nonempty, rfl⟩ | ⟨k, i, rfl⟩
  · exact nonempty
  · intro b
    simp [approving]

private theorem supportive_reach {run : List Label} {w : World}
    (benign : Meets (step sampleCrypto (sampleConfig 2)) (Benign (sampleConfig 2))
      (init (sampleConfig 2)) run)
    (agreeable : ∀ a ∈ run, Agreeable a)
    (ran : exec (step sampleCrypto (sampleConfig 2)) (init (sampleConfig 2)) run = some w) :
    Reach (step sampleCrypto (sampleConfig 2)) (Supportive (sampleConfig 2))
      (init (sampleConfig 2)) w :=
  reach_of_exec ((meets_and _ _).mpr ⟨benign, meets_of_labels _ agreeable⟩) ran

theorem completed_orderly :
    ∃ w, exec (step sampleCrypto (sampleConfig 2)) (init (sampleConfig 2)) orderlyRun = some w ∧
      w.Quiescent (sampleConfig 2) ∧ Did w.history 0 (.numbered 0 ⟨0, 0, "A"⟩) ∧
      w.Completed (sampleConfig 2) := by
  obtain ⟨w, ran, facts⟩ := exec_of_run
    (step sampleCrypto (sampleConfig 2)) (init (sampleConfig 2))
    orderlyRun
    (p := fun w => decide (w.Quiescent (sampleConfig 2) ∧
      Did w.history 0 (.numbered 0 ⟨0, 0, "A"⟩) ∧ w.InTime 1 0 ∧
      (w.replicas 0).nextProposalSeq = 1)) (by decide +kernel)
  obtain ⟨quiet, did, inTime, next⟩ := of_decide_eq_true facts
  have reached := supportive_reach (by decide +kernel)
    (agreeable_of_approving (by simp [orderlyRun, List.range_succ])) ran
  refine ⟨w, ran, quiet, did, (completed_iff reached quiet).mpr ?_⟩
  intro s req numbered i bound other
  have only : s < 1 := next ▸ (numbering reached 0).below s req numbered
  have primary : (sampleConfig 2).pbftPrimary = 0 := rfl
  have two : (sampleConfig 2).n = 2 := rfl
  obtain rfl : s = 0 := by omega
  obtain rfl : i = 1 := by omega
  exact inTime

theorem lost_to_reordering :
    ∃ w, Reach (step sampleCrypto (sampleConfig 2)) (Supportive (sampleConfig 2))
      (init (sampleConfig 2)) w ∧ w.Quiescent (sampleConfig 2) ∧
      Did w.history 0 (.numbered 0 ⟨0, 0, "A"⟩) ∧
      ((w.replicas 1).proposal 0).committed = false ∧ ¬w.Completed (sampleConfig 2) := by
  obtain ⟨w, ran, facts⟩ := exec_of_run
    (step sampleCrypto (sampleConfig 2)) (init (sampleConfig 2))
    latePreprepareRun
    (p := fun w => decide (w.Quiescent (sampleConfig 2) ∧
      Did w.history 0 (.numbered 0 ⟨0, 0, "A"⟩) ∧
      ((w.replicas 1).proposal 0).committed = false)) (by decide +kernel)
  obtain ⟨quiet, did, unset⟩ := of_decide_eq_true facts
  refine ⟨w, supportive_reach (by decide +kernel)
    (agreeable_of_approving (by simp [latePreprepareRun])) ran, quiet, did, unset, ?_⟩
  intro completed
  have committed := (completed 0 _ did 1 (by decide)).1
  rw [unset] at committed
  exact absurd committed Bool.false_ne_true

end Ruccoin.Pbft.World
