import Ruccoin.Pbft.Arrivals

/-!
# One number by itself

What the replicas do for one number depends on the messages for this number only. When every
replica has approved of the body and the messages come in phase by phase, each replica is
prepared by the Prepares, and executes the body when the Commits have come in.
-/

namespace Ruccoin.Pbft.World

open Transition PBFTHandler

variable {c : Crypto} {conf : Config} {guard : World → Label → Prop} {w w' : World} {i s : Nat}
  {b : String}

/-- Messages are delivered to replicas that are there. -/
theorem deliver_bound {k : Nat} {master : Master}
    (taken : step c conf w (.deliver k i master) = some w') : i < conf.n := by
  obtain ⟨j, source, call, h, effects, resolved, bound, -, -⟩ := step_resolve taken
  obtain ⟨m, -, resolved⟩ := Option.bind_eq_some_iff.mp resolved
  obtain ⟨endpoint, -, resolved⟩ := Option.map_eq_some_iff.mp resolved
  cases resolved
  exact bound

/-- A replica knows the body that its master was asked about. -/
theorem checked_body (reached : Reach (step c conf) guard (init conf) w) {verdict : Bool}
    (did : Did w.history i (.checkProposal s b verdict)) (nonempty : b ≠ "") :
    ((w.replicas i).proposal s).body = b := by
  induction reached with
  | start => simp [init, Did] at did
  | step _ _ taken ih =>
    obtain ⟨j, source, h, effects, -, rfl, ran⟩ := step_cases taken
    obtain ⟨call, called⟩ := ran.call
    rcases (did_record ..).mp did with ⟨rfl, new⟩ | old
    · obtain ⟨_, _, -, -, body, -, -⟩ := call_checkProposal called new
      rw [record_self]
      exact body
    · have known := ih old
      rw [record_replicas]
      split
      next here =>
        subst here
        rw [call_body_kept called (by rw [known]; exact nonempty), known]
      next => exact known

/-- A replica broadcasts a Prepare as soon as its master has approved. -/
theorem approved_sent (reached : Reach (step c conf) (Benign conf) (init conf) w)
    (did : Did w.history i (.checkProposal s b true)) :
    ∃ m ∈ w.sent, m.mtype = .prepare ∧ m.seq = s ∧ m.replicaId = i := by
  induction reached with
  | start => simp [init, Did] at did
  | @step before after label reached allowed taken ih =>
    obtain ⟨j, source, h, effects, -, rfl, ran⟩ := step_cases taken
    rcases (did_record ..).mp did with ⟨rfl, new⟩ | old
    · obtain ⟨k, m, master, -, -, -, -, rfl, ran⟩ := ran.checks allowed.1 new
      rcases prepare_cases ran with
        ⟨-, rfl, -⟩ | ⟨p, same, -, -, -, ⟨-, rfl⟩ | ⟨-, sig, rfl⟩⟩
      · cases new
      · simp at new
      · exact ⟨_, (mem_record_sent ..).mpr (Or.inr (List.mem_cons_of_mem _
          List.mem_cons_self)), rfl, rfl, (settings_kept reached j).id⟩
    · obtain ⟨m, sent, rest⟩ := ih old
      exact ⟨m, (mem_record_sent ..).mpr (Or.inl sent), rest⟩

/-- The Prepares for a number have one digest, that of the body which the primary numbered. -/
theorem prepare_digest (reached : Reach (step c conf) (Benign conf) (init conf) w)
    (numbered : NumberedBody w.history conf.pbftPrimary s b) {m : Message} (sent : m ∈ w.sent)
    (type : m.mtype = .prepare) (seq : m.seq = s) : m.digest = Message.getDigest c b := by
  obtain ⟨k, pm, found, type', seq', digest, -⟩ := (sole reached).source m sent type
  have number := (preprepare_numbered (Benign.trusted reached)
    (List.mem_of_getElem? found) type').2
  rw [seq', seq] at number
  rw [digest, number.unique reached numbered]

/-- A replica takes over the body that the primary numbered. -/
theorem stored_body (reached : Reach (step c conf) (Benign conf) (init conf) w)
    (numbered : NumberedBody w.history conf.pbftPrimary s b) {m : Message} (sent : m ∈ w.sent)
    (type : m.mtype = .preprepare) (seq : m.seq = s) :
    ((w.replicas i).storeBody m).body = b := by
  have trusted := Benign.trusted reached
  subst seq
  rw [storeBody_body]
  split
  next => exact (preprepare_numbered trusted sent type).2.unique reached numbered
  next filled => exact (body_primary trusted filled).unique reached numbered

/-- All messages of this type for the number have arrived. -/
def AllArrived (w : World) (i s : Nat) (t : MType) : Prop :=
  ∀ k m, w.sent[k]? = some m → m.seq = s → m.mtype = t → w.Arrived k i

theorem AllArrived.voted {t : MType} (all : w.AllArrived i s t) {m : Message} (sent : m ∈ w.sent)
    (type : m.mtype = t) (seq : m.seq = s) : w.Voted i s t m.digest m.replicaId := by
  obtain ⟨k, bound, found⟩ := List.getElem_of_mem sent
  have found : w.sent[k]? = some m := List.getElem?_eq_some_iff.mpr ⟨bound, found⟩
  exact ⟨k, m, found, type, seq, rfl, rfl, all k m found seq type⟩

/-- A replica that has received the Prepares of all is prepared. -/
theorem prepared_of_arrived (reached : Reach (step c conf) (Benign conf) (init conf) w)
    (numbered : NumberedBody w.history conf.pbftPrimary s b) (nonempty : 1 ≤ conf.n)
    (approved : ∀ v < conf.n, Did w.history v (.checkProposal s b true))
    (all : w.AllArrived i s .prepare) : ((w.replicas i).proposal s).prepared = true := by
  have voted : ∀ v < conf.n, w.Voted i s .prepare (Message.getDigest c b) v := by
    intro v member
    obtain ⟨m, sent, type, seq, rfl⟩ := approved_sent reached (approved v member)
    rw [← prepare_digest reached numbered sent type seq]
    exact all.voted sent type seq
  exact quorum_prepared reached (quorum_of_all reached (Or.inl rfl) nonempty voted)

/-- A replica that has received the Commits of all has a quorum of them. -/
theorem quorum_of_arrived (reached : Reach (step c conf) (Benign conf) (init conf) w)
    (nonempty : 1 ≤ conf.n) (prepared : ∀ v < conf.n, ((w.replicas v).proposal s).prepared = true)
    (all : w.AllArrived i s .commit) : ((w.replicas i).proposal s).Quorum .commit := by
  have voted : ∀ v < conf.n, w.Voted i s .commit (Message.getDigest c "") v := by
    intro v member
    obtain ⟨m, sent, type, seq, rfl, digest⟩ := prepared_sent reached (prepared v member)
    rw [← digest]
    exact all.voted sent type seq
  exact quorum_of_all reached (Or.inr rfl) nonempty voted

/-- Where the body is known before a Commit arrives, the quorum of Commits still makes the
proposal committed. -/
theorem committed_step {a : Label} (reached : Reach (step c conf) (Benign conf) (init conf) w)
    (allowed : w.Benign conf a) (taken : step c conf w a = some w')
    (known : ∀ k m master, a = .deliver k i master → w.sent[k]? = some m →
      m.mtype = .commit → m.seq = s → ((w.replicas i).proposal s).body ≠ "")
    (before : ((w.replicas i).proposal s).Quorum .commit →
      ((w.replicas i).proposal s).committed = true)
    (quorum : ((w'.replicas i).proposal s).Quorum .commit) :
    ((w'.replicas i).proposal s).committed = true := by
  obtain ⟨j, source, h, effects, -, rfl, ran⟩ := step_cases taken
  by_cases here : j = i
  · subst here
    rw [record_self] at quorum ⊢
    obtain ⟨call, called⟩ := ran.call
    rcases ran.completes allowed.1 quorum with already | ⟨k, m, rfl, found, type, rfl⟩
    · exact (call_flags called s).committed.mpr (Or.inl (before already))
    · obtain ⟨master, rfl, runs⟩ := ran.delivery found
      have body := known k m master rfl found type rfl
      rw [type] at runs
      rcases runs with ⟨wrong, -⟩ | ⟨wrong, -⟩ | ⟨-, ran⟩
      · cases wrong
      · cases wrong
      · rcases reply_cases ran with
          ⟨-, -, invalid⟩ | ⟨p, same, rfl, ⟨rfl, -, waits⟩ | ⟨-, -, -, rfl, -⟩⟩
        · rw [sent_valid reached (List.mem_of_getElem? found)] at invalid
          cases invalid
        · -- with the quorum and the body there, it was committed before
          rw [setProposal_proposal, if_pos rfl] at quorum ⊢
          by_contra unset
          refine waits ⟨?_, Bool.not_eq_true _ ▸ unset, ?_⟩
          · rw [type, Proposal.checkVotes_commit]
            exact Or.inr quorum
          · rw [Proposal.updateInfo_body]
            rcases (w.replicas j).findOrCreate_body m with kept | ⟨empty, -⟩
            · rw [kept]
              exact body
            · exact absurd empty body
        · rw [setProposal_proposal, if_pos rfl]
  · rw [record_other here] at quorum ⊢
    exact before quorum

end Ruccoin.Pbft.World
