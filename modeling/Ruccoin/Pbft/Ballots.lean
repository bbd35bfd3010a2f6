import Ruccoin.Pbft.Votes
import Ruccoin.Pbft.FaultFree
import Mathlib.Data.Finset.Card

/-!
# Ballots of fault-free runs

When no replica is faulty, requests go to the primary and no message arrives twice at a
replica, each replica casts at most one vote of a type for a number. So the ids that a
proposal has counted are distinct, and each of them stands for a message that its owner
broadcast.
-/

namespace Ruccoin.Pbft

/-- Two messages of one type for one number from one sender. -/
def SameBallot (m m' : Message) : Prop :=
  m.mtype = m'.mtype ∧ m.seq = m'.seq ∧ m.replicaId = m'.replicaId

namespace World

open Transition PBFTHandler

variable {c : Crypto} {conf : Config} {w w' : World}

/-- Every replica runs the handlers, requests go to the primary, and messages are delayed,
reordered or lost but not repeated. -/
def Benign (conf : Config) (w : World) (a : Label) : Prop :=
  w.FaultFree a ∧ w.ToPrimary conf a ∧ w.Once a

instance (conf : Config) (w : World) (a : Label) : Decidable (w.Benign conf a) :=
  inferInstanceAs (Decidable (_ ∧ _ ∧ _))

theorem Benign.trusted (reached : Reach (step c conf) (Benign conf) (init conf) w) :
    Reach (step c conf) (Trusted conf) (init conf) w :=
  reached.mono fun _ _ allowed => ⟨allowed.1, allowed.2.1⟩

/-! ### Where votes come from -/

theorem Ran.fresh {a : Label} {i k : Nat} {h : PBFTHandler} {effects : List Effect}
    (ran : Ran c w a i (some k) h effects) (once : w.Once a) : ¬w.Arrived k i := by
  cases ran with
  | prepare => exact once
  | commit => exact once
  | reply => exact once

/-- A call broadcasts one message at most. -/
theorem record_sent (w : World) (i : Nat) (source : Option Nat) {h h' : PBFTHandler}
    {call : Call} {effects : List Effect} (ran : h.call c call = .ok (h', effects)) :
    (w.record i source h' effects).sent = w.sent ∨
      ∃ sm, .sendMessage sm ∈ effects ∧
        (w.record i source h' effects).sent = w.sent ++ [sm] := by
  cases call with
  | getRequest req =>
    obtain ⟨-, sm, -, -, -, -, rfl⟩ := preprepare_cases ran
    exact Or.inr ⟨sm, by simp, rfl⟩
  | prepare master m =>
    -- rejected, refused by the master, or answered
    rcases prepare_cases ran with
      ⟨-, rfl, -⟩ | ⟨p, same, -, -, -, ⟨-, rfl⟩ | ⟨-, sig, rfl⟩⟩
    · exact Or.inl (List.append_nil _)
    · exact Or.inl (List.append_nil _)
    · exact Or.inr ⟨_, by simp, rfl⟩
  | commit m =>
    -- rejected, counted only, or counted as the last vote that was missing
    rcases commit_cases ran with
      ⟨-, rfl, -⟩ | ⟨p, same, -, ⟨-, rfl, -⟩ | ⟨-, -, -, sig, rfl⟩⟩
    · exact Or.inl (List.append_nil _)
    · exact Or.inl (List.append_nil _)
    · exact Or.inr ⟨_, by simp, rfl⟩
  | reply m =>
    rcases reply_cases ran with ⟨-, rfl, -⟩ | ⟨p, same, -, ⟨-, rfl, -⟩ | ⟨-, -, -, -, rfl⟩⟩ <;>
      exact Or.inl (List.append_nil _)

/-- A vote answers the message whose delivery made its sender cast it: a Prepare answers a
pre-prepare, a Commit answers a Prepare, and its digest is that of the answered body. -/
theorem Ran.answers {a : Label} {i : Nat} {source : Option Nat} {h : PBFTHandler}
    {effects : List Effect} (ran : Ran c w a i source h effects) (noFault : w.FaultFree a)
    {sm : Message} (reported : .sendMessage sm ∈ effects) :
    sm.mtype = .preprepare ∨ ∃ k m, source = some k ∧ w.sent[k]? = some m ∧
      m.seq = sm.seq ∧ sm.digest = Message.getDigest c m.body ∧
      ((sm.mtype = .prepare ∧ m.mtype = .preprepare) ∨
        (sm.mtype = .commit ∧ m.mtype = .prepare)) := by
  cases ran with
  | request ran =>
    obtain ⟨-, sm', type, -, -, -, rfl⟩ := preprepare_cases ran
    obtain rfl : sm = sm' := by simpa using reported
    exact Or.inl type
  | @prepare i k m master h effects found type ran =>
    right
    refine ⟨k, m, rfl, found, ?_⟩
    rcases prepare_cases ran with
      ⟨-, rfl, -⟩ | ⟨p, same, -, -, -, ⟨-, rfl⟩ | ⟨-, sig, rfl⟩⟩
    · simp at reported
    · simp at reported
    · obtain rfl : sm = { (w.replicas i).vote c .prepare m with signature := sig } := by
        simpa using reported
      exact ⟨rfl, rfl, Or.inl ⟨rfl, type⟩⟩
  | @commit i k m master h effects found type ran =>
    right
    refine ⟨k, m, rfl, found, ?_⟩
    rcases commit_cases ran with
      ⟨-, rfl, -⟩ | ⟨p, same, -, ⟨-, rfl, -⟩ | ⟨-, -, -, sig, rfl⟩⟩
    · simp at reported
    · simp at reported
    · obtain rfl : sm = { (w.replicas i).vote c .commit m with signature := sig } := by
        simpa using reported
      exact ⟨rfl, rfl, Or.inr ⟨rfl, type⟩⟩
  | reply found type ran =>
    rcases reply_cases ran with
      ⟨-, rfl, -⟩ | ⟨p, same, -, ⟨-, rfl, -⟩ | ⟨-, -, -, -, rfl⟩⟩ <;>
      simp at reported
  | inject => exact noFault.elim

/-! ### One ballot each -/

structure Sole (c : Crypto) (w : World) : Prop where
  /-- No two broadcasts are the same ballot. -/
  distinct : w.sent.Pairwise fun m m' => ¬SameBallot m m'
  /-- The pre-prepare that a Prepare answers has arrived at its sender. -/
  source : ∀ m ∈ w.sent, m.mtype = .prepare → ∃ k pm, w.sent[k]? = some pm ∧
    pm.mtype = .preprepare ∧ pm.seq = m.seq ∧ m.digest = Message.getDigest c pm.body ∧
      w.Arrived k m.replicaId

theorem Sole.index {k k' : Nat} {m m' : Message} (sole : Sole c w)
    (found : w.sent[k]? = some m) (found' : w.sent[k']? = some m')
    (same : SameBallot m m') : k = k' := by
  obtain ⟨bound, rfl⟩ := List.getElem?_eq_some_iff.mp found
  obtain ⟨bound', rfl⟩ := List.getElem?_eq_some_iff.mp found'
  have distinct := List.pairwise_iff_getElem.mp sole.distinct
  rcases Nat.lt_trichotomy k k' with less | equal | more
  · exact absurd same (distinct k k' bound bound' less)
  · exact equal
  · have back : SameBallot w.sent[k'] w.sent[k] := ⟨same.1.symm, same.2.1.symm, same.2.2.symm⟩
    exact absurd back (distinct k' k bound' bound more)

/-- A step casts no ballot that was cast before. -/
private theorem ballot_fresh {a : Label} {i : Nat} {source : Option Nat} {h : PBFTHandler}
    {effects : List Effect} (reached : Reach (step c conf) (Benign conf) (init conf) w)
    (sole : Sole c w) (allowed : w.Benign conf a) (ran : Ran c w a i source h effects)
    {m sm : Message} (sent : m ∈ w.sent) (reported : .sendMessage sm ∈ effects) :
    ¬SameBallot m sm := by
  rintro ⟨type, seq, owner⟩
  obtain ⟨call, called⟩ := ran.call
  obtain ⟨sender, reports⟩ := call_broadcast called reported
  have own : sm.replicaId = i := sender.trans (settings_kept reached i).id
  obtain ⟨-, -, justified⟩ := sent_justified reached sent
  rcases reports with ⟨type', req, new, -⟩ | ⟨type', -⟩ | ⟨type', -, new⟩
  · -- a second pre-prepare would take a number that is in use
    obtain ⟨req', old, -⟩ := justified.preprepare (type.trans type')
    rw [owner, own, seq] at old
    have used := (numbering reached i).below _ _ old
    have fresh := ((call_numbered called _ req).mp new).2
    omega
  · -- a second Prepare would answer a pre-prepare that has arrived already
    rcases ran.answers allowed.1 reported with wrong | ⟨k, pm, rfl, found, seq₁, -, answer⟩
    · rw [type'] at wrong; cases wrong
    · rcases answer with ⟨-, pmType⟩ | ⟨wrong, -⟩
      · obtain ⟨k₁, pm₁, found₁, pmType₁, seq₂, -, old⟩ := sole.source m sent (type.trans type')
        have trusted := Benign.trusted reached
        have primary := (preprepare_numbered trusted (List.mem_of_getElem? found) pmType).1
        have primary₁ := (preprepare_numbered trusted (List.mem_of_getElem? found₁) pmType₁).1
        have sameSource : SameBallot pm₁ pm :=
          ⟨pmType₁.trans pmType.symm, seq₂.trans (seq.trans seq₁.symm),
            primary₁.trans primary.symm⟩
        obtain rfl : k₁ = k := sole.index found₁ found sameSource
        rw [owner, own] at old
        exact ran.fresh allowed.2.2 old
      · rw [type'] at wrong; cases wrong
  · -- a second Commit would come from a proposal that is prepared already
    obtain ⟨-, old⟩ := justified.commit (type.trans type')
    rw [owner, own, seq] at old
    have unset := (call_flags called _).setPrepared new
    have set := (flags_reported reached i sm.seq).prepared.mpr old
    rw [unset] at set
    exact absurd set Bool.false_ne_true

theorem sole_step {a : Label} (reached : Reach (step c conf) (Benign conf) (init conf) w)
    (sole : Sole c w) (allowed : w.Benign conf a) (taken : step c conf w a = some w') :
    Sole c w' := by
  obtain ⟨i, source, h, effects, -, rfl, ran⟩ := step_cases taken
  obtain ⟨call, called⟩ := ran.call
  have sourceOld : ∀ m ∈ w.sent, m.mtype = .prepare →
      ∃ k pm, (w.record i source h effects).sent[k]? = some pm ∧
        pm.mtype = .preprepare ∧ pm.seq = m.seq ∧ m.digest = Message.getDigest c pm.body ∧
          (w.record i source h effects).Arrived k m.replicaId := by
    intro m sent type
    obtain ⟨k, pm, found, rest, seq, digest, old⟩ := sole.source m sent type
    exact ⟨k, pm, sent_record found, rest, seq, digest, (arrived_record ..).mpr (Or.inr old)⟩
  rcases w.record_sent i source called with none | ⟨sm, reported, one⟩
  · -- nothing was broadcast
    exact ⟨by rw [none]; exact sole.distinct, fun m sent => sourceOld m (none ▸ sent)⟩
  · constructor
    · rw [one, List.pairwise_append]
      refine ⟨sole.distinct, List.pairwise_singleton _ _, ?_⟩
      intro m sent sm' member
      obtain rfl : sm' = sm := List.mem_singleton.mp member
      exact ballot_fresh reached sole allowed ran sent reported
    · intro m sent type
      rw [one] at sent
      rcases List.mem_append.mp sent with old | new
      · exact sourceOld m old type
      · -- a new Prepare answers the pre-prepare that arrives now
        obtain rfl : m = sm := List.mem_singleton.mp new
        have own : m.replicaId = i :=
          (call_broadcast called reported).1.trans (settings_kept reached i).id
        rcases ran.answers allowed.1 reported with wrong | ⟨k, pm, rfl, found, seq, digest, answer⟩
        · rw [type] at wrong; cases wrong
        · rcases answer with ⟨-, pmType⟩ | ⟨wrong, -⟩
          · refine ⟨k, pm, sent_record found, pmType, seq, digest, ?_⟩
            exact (arrived_record ..).mpr (Or.inl ⟨own.symm, rfl⟩)
          · rw [type] at wrong; cases wrong

/-- In a fault-free run no ballot is cast twice. -/
theorem sole (reached : Reach (step c conf) (Benign conf) (init conf) w) : Sole c w := by
  apply reached.invariant (P := Sole c)
  · exact ⟨List.Pairwise.nil, by simp [init]⟩
  · intro w a w' reached sole allowed taken
    exact sole_step reached sole allowed taken

/-! ### The votes a proposal has counted -/

/-- Replica `v` broadcast this vote and it arrived at replica `i`. -/
def Voted (w : World) (i s : Nat) (t : MType) (digest : String) (v : Nat) : Prop :=
  ∃ k m, w.sent[k]? = some m ∧ m.mtype = t ∧ m.seq = s ∧ m.digest = digest ∧
    m.replicaId = v ∧ w.Arrived k i

/-- The message a fault-free call counts is the one being delivered. -/
theorem Ran.ballot {a : Label} {i : Nat} {source : Option Nat} {h : PBFTHandler}
    {effects : List Effect} (ran : Ran c w a i source h effects) (noFault : w.FaultFree a) :
    ∃ call, (w.replicas i).call c call = .ok (h, effects) ∧
      ∀ m, call.ballot = some m → ∃ k, source = some k ∧ w.sent[k]? = some m := by
  cases ran with
  | request ran => exact ⟨.getRequest _, ran, by simp [Call.ballot]⟩
  | prepare found type ran => exact ⟨.prepare _ _, ran, by simp [Call.ballot]⟩
  | commit found type ran => exact ⟨.commit _, ran, by simpa [Call.ballot] using found⟩
  | reply found type ran => exact ⟨.reply _, ran, by simpa [Call.ballot] using found⟩
  | inject => exact noFault.elim

/-- The ids a proposal has counted are distinct, and each of them voted. -/
structure Backed (w : World) (i s : Nat) (t : MType) (digest : String) : Prop where
  nodup : (((w.replicas i).proposal s).votesOf t digest).Nodup
  voted : ∀ v ∈ ((w.replicas i).proposal s).votesOf t digest, w.Voted i s t digest v

theorem votes_step {a : Label} (reached : Reach (step c conf) (Benign conf) (init conf) w)
    (allowed : w.Benign conf a) (taken : step c conf w a = some w') {i s : Nat} {t : MType}
    {digest : String} (backed : w.Backed i s t digest) : w'.Backed i s t digest := by
  obtain ⟨j, source, h, effects, -, rfl, ran⟩ := step_cases taken
  have kept : ∀ v ∈ ((w.replicas i).proposal s).votesOf t digest,
      (w.record j source h effects).Voted i s t digest v := by
    intro v member
    obtain ⟨k, m, found, type, seq, digest, owner, old⟩ := backed.voted v member
    exact ⟨k, m, sent_record found, type, seq, digest, owner,
      (arrived_record ..).mpr (Or.inr old)⟩
  obtain ⟨call, called, delivers⟩ := ran.ballot allowed.1
  by_cases here : j = i
  · subst here
    have votes := call_votes called s t digest
    generalize after : (h.proposal s).votesOf t digest = ids at votes
    cases votes with
    | kept =>
      constructor
      · rw [record_self, after]
        exact backed.nodup
      · rw [record_self, after]
        exact kept
    | @counted m ballot seq type digest_eq =>
      obtain ⟨k, rfl, found⟩ := delivers m ballot
      constructor
      · rw [record_self, after]
        refine List.Nodup.append backed.nodup (List.nodup_singleton _) ?_
        intro v member single
        -- a second vote of the sender would be this very message
        obtain rfl : v = m.replicaId := List.mem_singleton.mp single
        obtain ⟨k₁, m₁, found₁, type₁, seq₁, -, owner₁, old⟩ := backed.voted _ member
        have same : SameBallot m₁ m := ⟨type₁.trans type.symm, seq₁.trans seq.symm, owner₁⟩
        obtain rfl : k₁ = k := (sole reached).index found₁ found same
        exact ran.fresh allowed.2.2 old
      · rw [record_self, after]
        intro v member
        rcases List.mem_append.mp member with old | new
        · exact kept v old
        · obtain rfl : v = m.replicaId := List.mem_singleton.mp new
          exact ⟨k, m, sent_record found, type, seq, digest_eq, rfl,
            (arrived_record ..).mpr (Or.inl ⟨rfl, rfl⟩)⟩
  · -- the votes at another replica
    constructor
    · rw [record_other here]
      exact backed.nodup
    · rw [record_other here]
      exact kept

theorem votes_backed (reached : Reach (step c conf) (Benign conf) (init conf) w)
    (i s : Nat) (t : MType) (digest : String) : w.Backed i s t digest := by
  apply reached.invariant (P := fun w => w.Backed i s t digest)
  · constructor <;> simp [init]
  · intro w a w' reached backed allowed taken
    exact votes_step reached allowed taken backed

/-- A quorum counted at a replica is `2f + 1` replicas that voted. -/
theorem quorum_backed (reached : Reach (step c conf) (Benign conf) (init conf) w) {i s : Nat}
    {t : MType} (quorum : ((w.replicas i).proposal s).Quorum t) :
    ∃ digest, ∃ voters : Finset Nat, 2 * conf.f + 1 ≤ voters.card ∧
      ∀ v ∈ voters, w.Voted i s t digest v := by
  obtain ⟨digest, large⟩ := quorum
  obtain ⟨nodup, backed⟩ := votes_backed reached i s t digest
  have same : ((w.replicas i).proposal s).f = conf.f := proposal_f_kept reached i s
  refine ⟨digest, (((w.replicas i).proposal s).votesOf t digest).toFinset, ?_, ?_⟩
  · rw [List.toFinset_card_of_nodup nodup, ← same]
    exact large
  · intro v member
    exact backed v (List.mem_toFinset.mp member)

/-- A prepared proposal has a quorum of Prepare votes. -/
theorem prepared_quorum (reached : Reach (step c conf) (Benign conf) (init conf) w) {i s : Nat}
    (prepared : ((w.replicas i).proposal s).prepared = true) :
    ((w.replicas i).proposal s).Quorum .prepare := by
  induction reached with
  | start => simp [init, Proposal.new] at prepared
  | @step before after label reached allowed taken ih =>
    obtain ⟨j, source, h, effects, -, rfl, ran⟩ := step_cases taken
    rw [record_replicas] at prepared ⊢
    split at prepared
    next here =>
      subst here
      rw [if_pos rfl]
      obtain ⟨call, called⟩ := ran.call
      rcases (call_flags called s).prepared.mp prepared with already | new
      · exact call_quorum_kept called (ih already)
      · -- the flag was raised by a Prepare that completed a quorum
        obtain ⟨k, m, master, -, -, -, type, -, ran⟩ := ran.prepares allowed.1 new
        exact commit_quorum ran type new
    next other =>
      rw [if_neg other]
      exact ih prepared

end World

end Ruccoin.Pbft
