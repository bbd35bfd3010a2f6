import Ruccoin.Pbft.Validity

/-!
# What arrived

In a fault-free run the tables of a replica are determined by the messages that reached it:
it has counted exactly the votes that arrived, and it knows a body once the pre-prepare
arrived. The order of arrival is read off the history.
-/

namespace Ruccoin.Pbft.World

open Transition PBFTHandler

variable {c : Crypto} {conf : Config} {guard : World → Label → Prop} {w w' : World}

/-- The types of the messages for `s` that arrived at replica `i`, the latest first. -/
def arrivals (w : World) (i s : Nat) : List MType :=
  w.history.filterMap fun e =>
    if e.replica = i then
      (e.source.bind (w.sent[·]?)).bind fun m => if m.seq = s then some m.mtype else none
    else none

/-- Only what was sent arrives. -/
theorem arrived_found (reached : Reach (step c conf) guard (init conf) w) {k i : Nat}
    (arrived : w.Arrived k i) : ∃ m, w.sent[k]? = some m := by
  induction reached with
  | start => simp [init, Arrived] at arrived
  | step _ _ taken ih =>
    obtain ⟨j, source, h, effects, -, rfl, ran⟩ := step_cases taken
    rcases (arrived_record ..).mp arrived with ⟨rfl, rfl⟩ | old
    · obtain ⟨m, -, -, found, -⟩ := ran.delivers
      exact ⟨m, sent_record found⟩
    · obtain ⟨m, found⟩ := ih old
      exact ⟨m, sent_record found⟩

/-- What a delivery establishes and later steps keep holds of every message that arrived. -/
theorem arrived_rule {P : World → Nat → Message → Prop}
    (delivered : ∀ w a i k m h effects, Reach (step c conf) guard (init conf) w → guard w a →
      w.sent[k]? = some m → Ran c w a i (some k) h effects →
      P (w.record i (some k) h effects) i m)
    (kept : ∀ w a w' i m, Reach (step c conf) guard (init conf) w → guard w a →
      step c conf w a = some w' → P w i m → P w' i m)
    (reached : Reach (step c conf) guard (init conf) w) {k i : Nat} {m : Message}
    (found : w.sent[k]? = some m) (arrived : w.Arrived k i) : P w i m := by
  induction reached with
  | start => simp [init, Arrived] at arrived
  | @step before after label reached allowed taken ih =>
    -- a message has its index from the step that sent it on
    have same : ∀ {m' : Message}, before.sent[k]? = some m' → m' = m := by
      intro m' old
      obtain ⟨j, source, h, effects, -, rfl, -⟩ := step_cases taken
      exact Option.some.inj ((sent_record old).symm.trans found)
    obtain ⟨j, source, h, effects, -, eq, ran⟩ := step_cases taken
    rw [eq] at arrived
    rcases (arrived_record ..).mp arrived with ⟨rfl, rfl⟩ | old
    · -- delivered by this step
      obtain ⟨m', -, -, earlier, -⟩ := ran.delivers
      obtain rfl := same earlier
      rw [eq]
      exact delivered before label j k m' h effects reached allowed earlier ran
    · obtain ⟨m', earlier⟩ := arrived_found reached old
      obtain rfl := same earlier
      exact kept before label after i m' reached allowed taken (ih earlier old)

/-! ### The order of arrival -/

/-- A delivery puts its message's type in front of the arrivals with its number. -/
theorem arrivals_record (reached : Reach (step c conf) guard (init conf) w) {j : Nat}
    {source : Option Nat} {h : PBFTHandler} {effects : List Effect} (i s : Nat) :
    (w.record j source h effects).arrivals i s =
      (if j = i then
        ((source.bind ((w.record j source h effects).sent[·]?)).bind fun m =>
          if m.seq = s then some m.mtype else none).toList
      else []) ++ w.arrivals i s := by
  -- the messages that arrived before are found where they were
  have old : ∀ e ∈ w.history, e.source.bind ((w.record j source h effects).sent[·]?) =
      e.source.bind (w.sent[·]?) := by
    intro e member
    cases origin : e.source with
    | none => rfl
    | some k =>
      obtain ⟨m, found⟩ := arrived_found reached ⟨e, member, rfl, origin⟩
      simp only [Option.bind_some]
      rw [found, sent_record found]
  have tail : w.history.filterMap (fun e =>
      if e.replica = i then
        (e.source.bind ((w.record j source h effects).sent[·]?)).bind fun m =>
          if m.seq = s then some m.mtype else none
      else none) = w.arrivals i s := by
    apply List.filterMap_congr
    intro e member
    rw [old e member]
  rw [← tail]
  unfold arrivals
  rw [show (w.record j source h effects).history = ⟨j, source, effects⟩ :: w.history from rfl,
    List.filterMap_cons]
  by_cases here : j = i
  · rw [if_pos here]
    dsimp only
    rw [if_pos here]
    cases (source.bind ((w.record j source h effects).sent[·]?)).bind fun m =>
      if m.seq = s then some m.mtype else none with
    | none => rfl
    | some t => rfl
  · simp only [if_neg here, List.nil_append]

theorem arrivals_other (reached : Reach (step c conf) guard (init conf) w) {i j s : Nat}
    {source : Option Nat} {h : PBFTHandler} {effects : List Effect} (other : j ≠ i) :
    (w.record j source h effects).arrivals i s = w.arrivals i s := by
  rw [arrivals_record reached, if_neg other, List.nil_append]

theorem arrivals_request (reached : Reach (step c conf) guard (init conf) w) {i s : Nat}
    {h : PBFTHandler} {effects : List Effect} :
    (w.record i none h effects).arrivals i s = w.arrivals i s := by
  rw [arrivals_record reached, if_pos rfl]
  rfl

theorem arrivals_deliver (reached : Reach (step c conf) guard (init conf) w) {i s k : Nat}
    {m : Message} (found : w.sent[k]? = some m) {h : PBFTHandler} {effects : List Effect} :
    (w.record i (some k) h effects).arrivals i s =
      if m.seq = s then m.mtype :: w.arrivals i s else w.arrivals i s := by
  rw [arrivals_record reached, if_pos rfl, Option.bind_some, sent_record found,
    Option.bind_some]
  split <;> rfl

theorem mem_arrivals (i s : Nat) (t : MType) :
    t ∈ w.arrivals i s ↔
      ∃ k m, w.sent[k]? = some m ∧ m.mtype = t ∧ m.seq = s ∧ w.Arrived k i := by
  unfold arrivals
  rw [List.mem_filterMap]
  constructor
  · rintro ⟨e, member, kind⟩
    split at kind
    next own =>
      obtain ⟨m, origin, kind⟩ := Option.bind_eq_some_iff.mp kind
      obtain ⟨k, source, found⟩ := Option.bind_eq_some_iff.mp origin
      split at kind
      next seq => exact ⟨k, m, found, Option.some.inj kind, seq, e, member, own, source⟩
      next => cases kind
    next => cases kind
  · rintro ⟨k, m, found, rfl, rfl, e, member, own, source⟩
    exact ⟨e, member, by simp [own, source, found]⟩

/-! ### Votes -/

/-- Every vote that arrived is counted. -/
theorem votes_counted (reached : Reach (step c conf) (Benign conf) (init conf) w) {k i : Nat}
    {m : Message} (found : w.sent[k]? = some m) (arrived : w.Arrived k i)
    (votes : m.mtype = .prepare ∨ m.mtype = .commit) :
    m.replicaId ∈ ((w.replicas i).proposal m.seq).votesOf m.mtype m.digest := by
  refine arrived_rule (P := fun w i m => m.mtype = .prepare ∨ m.mtype = .commit →
    m.replicaId ∈ ((w.replicas i).proposal m.seq).votesOf m.mtype m.digest)
    ?_ ?_ reached found arrived votes
  · intro w a i k m h effects reached allowed found ran votes
    rw [record_self]
    have valid := sent_valid reached (List.mem_of_getElem? found)
    obtain ⟨master, -, runs⟩ := ran.delivery found
    rcases runs with ⟨type, -⟩ | ⟨-, ran⟩ | ⟨-, ran⟩
    · -- a pre-prepare is no vote
      rw [type] at votes
      simp at votes
    · exact commit_counts ran valid votes
    · exact reply_counts ran valid votes
  · intro w a w' i m _ _ taken counted votes
    rcases replica_step taken i with same | ⟨call, effects, called⟩
    · rw [same]
      exact counted votes
    · -- the list only grows
      exact (call_votes called m.seq m.mtype m.digest).initial.subset (counted votes)

/-- A vote of every replica makes a quorum at whoever received them all. -/
theorem quorum_of_all (reached : Reach (step c conf) (Benign conf) (init conf) w) {i s : Nat}
    {t : MType} (votes : t = .prepare ∨ t = .commit) {digest : String} (nonempty : 1 ≤ conf.n)
    (all : ∀ v < conf.n, w.Voted i s t digest v) : ((w.replicas i).proposal s).Quorum t := by
  have counted : List.range conf.n ⊆ ((w.replicas i).proposal s).votesOf t digest := by
    intro v member
    obtain ⟨k, m, found, rfl, rfl, rfl, rfl, arrived⟩ := all v (List.mem_range.mp member)
    exact votes_counted reached found arrived votes
  -- the ids of all replicas are on the list, so it has `n` entries at least
  have many := (List.subperm_of_subset List.nodup_range counted).length_le
  rw [List.length_range] at many
  have same : ((w.replicas i).proposal s).f = conf.f := proposal_f_kept reached i s
  have enough := conf.quorum_le nonempty
  exact ⟨digest, by rw [same]; omega⟩

/-- The call of a fault-free step that completes a quorum counts a message of its type. -/
theorem Ran.completes {a : Label} {i s : Nat} {source : Option Nat} {h : PBFTHandler}
    {effects : List Effect} {t : MType} (ran : Ran c w a i source h effects)
    (noFault : w.FaultFree a) (quorum : (h.proposal s).Quorum t) :
    ((w.replicas i).proposal s).Quorum t ∨ ∃ k m, source = some k ∧ w.sent[k]? = some m ∧
      m.mtype = t ∧ m.seq = s := by
  obtain ⟨call, called, delivers⟩ := ran.ballot noFault
  rcases call_quorum called quorum with before | ⟨m, ballot, seq, type⟩
  · exact Or.inl before
  · obtain ⟨k, origin, found⟩ := delivers m ballot
    exact Or.inr ⟨k, m, origin, found, type, seq⟩

/-- A quorum of Prepare votes makes a proposal prepared. -/
theorem quorum_prepared (reached : Reach (step c conf) (Benign conf) (init conf) w) {i s : Nat}
    (quorum : ((w.replicas i).proposal s).Quorum .prepare) :
    ((w.replicas i).proposal s).prepared = true := by
  induction reached with
  | start =>
    obtain ⟨digest, large⟩ := quorum
    simp [init] at large
  | @step before after label reached allowed taken ih =>
    obtain ⟨j, source, h, effects, -, rfl, ran⟩ := step_cases taken
    rw [record_replicas] at quorum ⊢
    split at quorum
    next here =>
      subst here
      rw [if_pos rfl]
      obtain ⟨call, called⟩ := ran.call
      rcases ran.completes allowed.1 quorum with already | ⟨k, m, rfl, found, type, rfl⟩
      · exact (call_flags called s).prepared.mpr (Or.inl (ih already))
      · -- the vote went through `Commit`, which looks for the quorum
        obtain ⟨master, -, runs⟩ := ran.delivery found
        rw [type] at runs
        rcases runs with ⟨wrong, -⟩ | ⟨-, ran⟩ | ⟨wrong, -⟩
        · cases wrong
        · have valid := sent_valid reached (List.mem_of_getElem? found)
          rcases commit_cases ran with
            ⟨-, -, invalid⟩ | ⟨p, same, -, ⟨rfl, -, flagged⟩ | ⟨-, -, rfl, -⟩⟩
          · rw [valid] at invalid; cases invalid
          · -- with the quorum there, the flag was set already
            rw [setProposal_proposal, if_pos rfl] at quorum ⊢
            apply flagged
            rw [type, Proposal.checkVotes_prepare]
            exact Or.inr quorum
          · rw [setProposal_proposal, if_pos rfl]
        · cases wrong
    next other =>
      rw [if_neg other]
      exact ih quorum

/-- A prepared replica broadcast a Commit; its digest is that of the empty text, since a
Prepare carries no body. -/
theorem prepared_sent (reached : Reach (step c conf) (Benign conf) (init conf) w) {i s : Nat}
    (prepared : ((w.replicas i).proposal s).prepared = true) :
    ∃ m ∈ w.sent, m.mtype = .commit ∧ m.seq = s ∧ m.replicaId = i ∧
      m.digest = Message.getDigest c "" := by
  induction reached with
  | start => simp [init, Proposal.new] at prepared
  | @step before after label reached allowed taken ih =>
    obtain ⟨j, source, h, effects, -, rfl, ran⟩ := step_cases taken
    have old : ((before.replicas i).proposal s).prepared = true →
        ∃ m ∈ (before.record j source h effects).sent, m.mtype = .commit ∧ m.seq = s ∧
          m.replicaId = i ∧ m.digest = Message.getDigest c "" := by
      intro flag
      obtain ⟨m, sent, rest⟩ := ih flag
      exact ⟨m, (mem_record_sent ..).mpr (Or.inl sent), rest⟩
    rw [record_replicas] at prepared
    split at prepared
    next here =>
      subst here
      obtain ⟨call, called⟩ := ran.call
      rcases (call_flags called s).prepared.mp prepared with already | new
      · exact old already
      · obtain ⟨k, m, master, -, -, found, type, rfl, ran⟩ := ran.prepares allowed.1 new
        obtain ⟨-, -, justified⟩ := sent_justified reached (List.mem_of_getElem? found)
        obtain ⟨body, -⟩ := justified.prepare type
        rcases commit_cases ran with
          ⟨-, rfl, -⟩ | ⟨p, same, -, ⟨-, rfl, -⟩ | ⟨-, -, -, sig, rfl⟩⟩
        · cases new
        · cases new
        · refine ⟨_, (mem_record_sent ..).mpr (Or.inr (List.mem_cons_of_mem _
            List.mem_cons_self)), rfl, rfl, (settings_kept reached i).id, ?_⟩
          simp only [vote, body]
    next => exact old prepared

end Ruccoin.Pbft.World
