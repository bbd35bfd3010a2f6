import Ruccoin.Pbft.Ballots

/-!
# Validity of commits

What stands behind an execution in a fault-free run: the one request with the number, a
quorum of masters that approved its body, and a quorum of replicas that were prepared and
said so, all of it before the execution.
-/

namespace Ruccoin.Pbft.World

open Transition PBFTHandler

variable {c : Crypto} {conf : Config} {w : World}

/-- What the events before an execution of `b` under the number `s` contain. -/
structure Certified (conf : Config) (before : List Event) (s : Nat) (b : String) : Prop where
  /-- The primary gave the number to one request, and `b` is its body. -/
  request : ∃ req, req.body = b ∧
    ∀ req', Did before conf.pbftPrimary (.numbered s req') ↔ req' = req
  approved : ∃ replicas : Finset Nat, 2 * conf.f + 1 ≤ replicas.card ∧
    ∀ v ∈ replicas, v < conf.n ∧ Did before v (.checkProposal s b true)
  prepared : ∃ replicas : Finset Nat, 2 * conf.f + 1 ≤ replicas.card ∧
    ∀ v ∈ replicas, v < conf.n ∧ Did before v (.setPrepared s) ∧
      ∃ m : Message, m.mtype = .commit ∧ m.seq = s ∧ Did before v (.sendMessage m)

/-- A master is asked about the body of the primary's request. -/
theorem checked_primary (reached : Reach (step c conf) (Benign conf) (init conf) w) {i s : Nat}
    {b : String} {verdict : Bool} (did : Did w.history i (.checkProposal s b verdict)) :
    NumberedBody w.history conf.pbftPrimary s b := by
  induction reached with
  | start => simp [init, Did] at did
  | @step before after label reached allowed taken ih =>
    have later : ∀ {b : String}, NumberedBody before.history conf.pbftPrimary s b →
        NumberedBody after.history conf.pbftPrimary s b := by
      rintro b ⟨req, old, body⟩
      exact ⟨req, did_mono taken old, body⟩
    obtain ⟨j, source, h, effects, -, rfl, ran⟩ := step_cases taken
    rcases (did_record ..).mp did with ⟨rfl, new⟩ | old
    · apply later
      obtain ⟨k, m, master, -, -, found, type, rfl, ran⟩ := ran.checks allowed.1 new
      obtain ⟨master', m', same, -, -, rfl, -⟩ := call_checkProposal (a := .prepare _ _) ran new
      cases same
      -- the body comes with the pre-prepare, or was in the table
      split
      next =>
        have sent := List.mem_of_getElem? found
        exact (preprepare_numbered (Benign.trusted reached) sent type).2
      next filled => exact body_primary (Benign.trusted reached) filled
    · exact later (ih old)

/-- Replicas that broadcast a Commit were prepared. -/
private theorem committers (reached : Reach (step c conf) (Benign conf) (init conf) w)
    {i s : Nat} {digest : String} {v : Nat} (voted : w.Voted i s .commit digest v) :
    v < conf.n ∧ Did w.history v (.setPrepared s) ∧
      ∃ m : Message, m.mtype = .commit ∧ m.seq = s ∧ Did w.history v (.sendMessage m) := by
  obtain ⟨k, m, found, type, rfl, -, rfl, -⟩ := voted
  obtain ⟨bound, sent, justified⟩ := sent_justified reached (List.mem_of_getElem? found)
  obtain ⟨-, prepared⟩ := justified.commit type
  exact ⟨bound, prepared, m, type, rfl, sent⟩

/-- Replicas that broadcast a Prepare had their master's approval. -/
private theorem approvers (reached : Reach (step c conf) (Benign conf) (init conf) w)
    {i s : Nat} {digest : String} {v : Nat} (voted : w.Voted i s .prepare digest v) :
    v < conf.n ∧ ∃ b, Did w.history v (.checkProposal s b true) := by
  obtain ⟨k, m, found, type, rfl, -, rfl, -⟩ := voted
  obtain ⟨bound, -, justified⟩ := sent_justified reached (List.mem_of_getElem? found)
  obtain ⟨-, approved⟩ := justified.prepare type
  exact ⟨bound, approved⟩

/-- The step that executes a body finds it certified by what happened before. -/
theorem executes_certified {a : Label} {i : Nat} {source : Option Nat} {h : PBFTHandler}
    {effects : List Effect} (reached : Reach (step c conf) (Benign conf) (init conf) w)
    (allowed : w.Benign conf a)
    (taken : step c conf w a = some (w.record i source h effects))
    (ran : Ran c w a i source h effects) {s : Nat} {b : String}
    (reported : .commitAction s b ∈ effects) : Certified conf w.history s b := by
  have after := Reach.step reached allowed taken
  have executed : Did (w.record i source h effects).history i (.commitAction s b) :=
    (did_record ..).mpr (Or.inl ⟨rfl, reported⟩)
  -- an execution sends nothing, so the quorum was cast before
  obtain ⟨k, m, master, -, -, -, type, -, only, ran⟩ := ran.executes allowed.1 reported
  have quorum := reply_quorum ran type reported
  have earlier : ∀ {j : Nat} {e : Effect}, (∀ s b, e ≠ .commitAction s b) →
      Did (w.record i source h effects).history j e → Did w.history j e := by
    intro j e other did
    rcases (did_record ..).mp did with ⟨-, new⟩ | old
    · rw [only] at new
      exact absurd (List.mem_singleton.mp new) (other s b)
    · exact old
  -- the body is that of the primary's request
  obtain ⟨req, did, reqBody⟩ := executed_primary (Benign.trusted after) executed
  have numbered : NumberedBody w.history conf.pbftPrimary s b :=
    ⟨req, earlier (by simp) did, reqBody⟩
  -- the Commit quorum, and the Prepare quorum of one of its members
  obtain ⟨digest, committed, large, voted⟩ :=
    quorum_backed after (i := i) (s := s) (t := .commit) (by rw [record_self]; exact quorum)
  have prepared : ∀ v ∈ committed, v < conf.n ∧ Did w.history v (.setPrepared s) ∧
      ∃ m : Message, m.mtype = .commit ∧ m.seq = s ∧ Did w.history v (.sendMessage m) := by
    intro v member
    obtain ⟨known, flagged, m, type, seq, sent⟩ := committers after (voted v member)
    exact ⟨known, earlier (by simp) flagged, m, type, seq, earlier (by simp) sent⟩
  obtain ⟨v, member⟩ : committed.Nonempty := Finset.card_pos.mp (by omega)
  have flag := (flags_reported reached v s).prepared.mpr (prepared v member).2.1
  obtain ⟨digest', approved, large', voted'⟩ :=
    quorum_backed reached (prepared_quorum reached flag)
  refine ⟨⟨req, reqBody, ?_⟩, ⟨approved, large', ?_⟩, ⟨committed, large, prepared⟩⟩
  · intro req'
    have first := earlier (by simp) did
    constructor
    · intro did'
      exact (numbering reached conf.pbftPrimary).unique s req' req did' first
    · rintro rfl
      exact first
  · intro u votes
    obtain ⟨known, b', checked⟩ := approvers reached (voted' u votes)
    obtain rfl : b' = b := (checked_primary reached checked).unique reached numbered
    exact ⟨known, checked⟩

/-- In a fault-free run every execution is certified by the events before it, and no two
replicas execute different bodies for one number. -/
theorem commits_valid (reached : Reach (step c conf) (Benign conf) (init conf) w) :
    (∀ (e : Event) (before : List Event) (s : Nat) (b : String), e :: before <:+ w.history →
      .commitAction s b ∈ e.effects → Certified conf before s b) ∧ OneExecution w := by
  constructor
  · induction reached with
    | start => simp [init]
    | step reached allowed taken ih =>
      obtain ⟨i, source, h, effects, -, rfl, ran⟩ := step_cases taken
      intro e before s b suffix reported
      rcases List.suffix_cons_iff.mp suffix with latest | older
      · -- the event of this step
        obtain ⟨rfl, rfl⟩ := List.cons.inj latest
        exact executes_certified reached allowed taken ran reported
      · exact ih e before s b older reported
  · exact one_execution (Benign.trusted reached)

/-- One request among four replicas, of which the last hears nothing. -/
def quorumRun : List Label :=
  .request 0 ⟨7, 1, "A"⟩ :: (List.range 3).map (.deliver 0 · approving) ++
    (List.range 3).flatMap (fun i => (List.range 3).map fun k => .deliver (k + 1) i approving) ++
    (List.range 3).map (fun k => .deliver (k + 4) 0 approving)

theorem commits_valid_quorum :
    ∃ w, exec (step sampleCrypto (sampleConfig 4)) (init (sampleConfig 4)) quorumRun = some w ∧
      (∃ e before, e :: before <:+ w.history ∧ .commitAction 0 "A" ∈ e.effects ∧
        Certified (sampleConfig 4) before 0 "A") ∧ OneExecution w := by
  obtain ⟨w, ran, facts⟩ := exec_of_run
    (step sampleCrypto (sampleConfig 4)) (init (sampleConfig 4))
    quorumRun
    (p := fun w => match w.history with
      | e :: _ => decide (.commitAction 0 "A" ∈ e.effects)
      | [] => false) (by decide +kernel)
  have benign : Meets (step sampleCrypto (sampleConfig 4)) (Benign (sampleConfig 4))
      (init (sampleConfig 4)) quorumRun := by decide +kernel
  have valid := commits_valid (reach_of_exec benign ran)
  refine ⟨w, ran, ?_, valid.2⟩
  cases history : w.history with
  | nil => simp [history] at facts
  | cons e before =>
    have executed : .commitAction 0 "A" ∈ e.effects := by simpa [history] using facts
    have here : e :: before <:+ w.history := by rw [history]
    exact ⟨e, before, history ▸ here, executed, valid.1 e before 0 "A" here executed⟩

end Ruccoin.Pbft.World
