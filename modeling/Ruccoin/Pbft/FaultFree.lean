import Ruccoin.Pbft.History

/-!
# Runs without faulty replicas

Every replica runs the handlers; messages are delayed, lost, reordered or repeated. A body
that a replica holds for a number was then given to some replica in the request it numbered
so: votes carry no body, and a pre-prepare carries the one of its request.
-/

namespace Ruccoin.Pbft.World

open Transition PBFTHandler

variable {c : Crypto} {conf : Config} {guard : World → Label → Prop} {w : World}

/-- Every replica runs the handlers and requests go to the primary; messages are delayed,
reordered, lost or repeated. -/
def Trusted (conf : Config) (w : World) (a : Label) : Prop :=
  w.FaultFree a ∧ w.ToPrimary conf a

/-! ### Which delivery reports what -/

section Reports

variable {a : Label} {i : Nat} {source : Option Nat} {h : PBFTHandler} {effects : List Effect}

/-- A number is handed out to a request. -/
theorem Ran.numbers (ran : Ran c w a i source h effects) (noFault : w.FaultFree a) {s : Nat}
    {req : Request} (reported : .numbered s req ∈ effects) : a = .request i req := by
  have requested : ∀ call : Call, (w.replicas i).call c call = .ok (h, effects) →
      call = .getRequest req := fun _ called => ((call_numbered called s req).mp reported).1
  cases ran with
  | request ran => rw [Call.getRequest.inj (requested (.getRequest _) ran)]
  | prepare _ _ ran => cases requested (.prepare _ _) ran
  | commit _ _ ran => cases requested (.commit _) ran
  | reply _ _ ran => cases requested (.reply _) ran
  | inject => exact noFault.elim

/-- The master is asked when a pre-prepare arrives. -/
theorem Ran.checks (ran : Ran c w a i source h effects) (noFault : w.FaultFree a) {s : Nat}
    {b : String} {verdict : Bool} (reported : .checkProposal s b verdict ∈ effects) :
    ∃ k m master, a = .deliver k i master ∧ source = some k ∧ w.sent[k]? = some m ∧
      m.mtype = .preprepare ∧ m.seq = s ∧
      (w.replicas i).prepare c master m = .ok (h, effects) := by
  have asked : ∀ call : Call, (w.replicas i).call c call = .ok (h, effects) →
      ∃ master m, call = .prepare master m ∧ m.seq = s := by
    intro call called
    obtain ⟨master, m, eq, seq, -⟩ := call_checkProposal called reported
    exact ⟨master, m, eq, seq⟩
  cases ran with
  | request ran =>
    obtain ⟨_, _, wrong, _⟩ := asked (.getRequest _) ran
    cases wrong
  | @prepare i k m master h effects found type ran =>
    obtain ⟨master', m', same, seq⟩ := asked (.prepare _ _) ran
    cases same
    exact ⟨k, m, master, rfl, rfl, found, type, seq, ran⟩
  | commit _ _ ran =>
    obtain ⟨_, _, wrong, _⟩ := asked (.commit _) ran
    cases wrong
  | reply _ _ ran =>
    obtain ⟨_, _, wrong, _⟩ := asked (.reply _) ran
    cases wrong
  | inject => exact noFault.elim

/-- A proposal becomes prepared when a Prepare arrives. -/
theorem Ran.prepares (ran : Ran c w a i source h effects) (noFault : w.FaultFree a) {s : Nat}
    (reported : .setPrepared s ∈ effects) :
    ∃ k m master, a = .deliver k i master ∧ source = some k ∧ w.sent[k]? = some m ∧
      m.mtype = .prepare ∧ m.seq = s ∧ (w.replicas i).commit c m = .ok (h, effects) := by
  have counted : ∀ call : Call, (w.replicas i).call c call = .ok (h, effects) →
      ∃ m, call = .commit m ∧ m.seq = s := fun _ called => call_setPrepared called reported
  cases ran with
  | request ran =>
    obtain ⟨_, wrong, _⟩ := counted (.getRequest _) ran
    cases wrong
  | prepare _ _ ran =>
    obtain ⟨_, wrong, _⟩ := counted (.prepare _ _) ran
    cases wrong
  | @commit i k m master h effects found type ran =>
    obtain ⟨m', same, seq⟩ := counted (.commit _) ran
    cases same
    exact ⟨k, m, master, rfl, rfl, found, type, seq, ran⟩
  | reply _ _ ran =>
    obtain ⟨_, wrong, _⟩ := counted (.reply _) ran
    cases wrong
  | inject => exact noFault.elim

/-- A proposal is executed when a Commit arrives. -/
theorem Ran.executes (ran : Ran c w a i source h effects) (noFault : w.FaultFree a) {s : Nat}
    {b : String} (reported : .commitAction s b ∈ effects) :
    ∃ k m master, a = .deliver k i master ∧ source = some k ∧ w.sent[k]? = some m ∧
      m.mtype = .commit ∧ m.seq = s ∧ effects = [.commitAction s b] ∧
      (w.replicas i).reply c m = .ok (h, effects) := by
  have counted : ∀ call : Call, (w.replicas i).call c call = .ok (h, effects) →
      ∃ m, call = .reply m ∧ m.seq = s ∧ effects = [.commitAction s b] :=
    fun _ called => call_commitAction called reported
  cases ran with
  | request ran =>
    obtain ⟨_, wrong, _⟩ := counted (.getRequest _) ran
    cases wrong
  | prepare _ _ ran =>
    obtain ⟨_, wrong, _⟩ := counted (.prepare _ _) ran
    cases wrong
  | commit _ _ ran =>
    obtain ⟨_, wrong, _⟩ := counted (.commit _) ran
    cases wrong
  | @reply i k m master h effects found type ran =>
    obtain ⟨m', same, seq, only⟩ := counted (.reply _) ran
    cases same
    exact ⟨k, m, master, rfl, rfl, found, type, seq, only, ran⟩
  | inject => exact noFault.elim

/-- A delivery runs the procedure that the message's type is sent to. -/
theorem Ran.delivers {k : Nat} (ran : Ran c w a i (some k) h effects) :
    ∃ m master, a = .deliver k i master ∧ w.sent[k]? = some m ∧
      ((m.mtype = .preprepare ∧ (w.replicas i).prepare c master m = .ok (h, effects)) ∨
        (m.mtype = .prepare ∧ (w.replicas i).commit c m = .ok (h, effects)) ∨
        (m.mtype = .commit ∧ (w.replicas i).reply c m = .ok (h, effects))) := by
  cases ran with
  | prepare found type ran => exact ⟨_, _, rfl, found, Or.inl ⟨type, ran⟩⟩
  | commit found type ran => exact ⟨_, _, rfl, found, Or.inr (Or.inl ⟨type, ran⟩)⟩
  | reply found type ran => exact ⟨_, _, rfl, found, Or.inr (Or.inr ⟨type, ran⟩)⟩

/-- The same for a delivery whose message is known. -/
theorem Ran.delivery {k : Nat} {m : Message} (ran : Ran c w a i (some k) h effects)
    (found : w.sent[k]? = some m) :
    ∃ master, a = .deliver k i master ∧
      ((m.mtype = .preprepare ∧ (w.replicas i).prepare c master m = .ok (h, effects)) ∨
        (m.mtype = .prepare ∧ (w.replicas i).commit c m = .ok (h, effects)) ∨
        (m.mtype = .commit ∧ (w.replicas i).reply c m = .ok (h, effects))) := by
  obtain ⟨m', master, label, found', runs⟩ := ran.delivers
  obtain rfl := Option.some.inj (found.symm.trans found')
  exact ⟨master, label, runs⟩

/-- A call that no delivery made is a request. -/
theorem Ran.requests (ran : Ran c w a i none h effects) (noFault : w.FaultFree a) :
    ∃ req, a = .request i req ∧ (w.replicas i).preprepare c req = .ok (h, effects) := by
  cases ran with
  | request ran => exact ⟨_, rfl, ran⟩
  | inject => exact noFault.elim

end Reports

/-! ### Where bodies come from -/

/-- The replica `j` numbered a request with this body. -/
def NumberedBody (history : List Event) (j s : Nat) (b : String) : Prop :=
  ∃ req, Did history j (.numbered s req) ∧ req.body = b

/-- The body a call offers to a table, when there is one, is that of a numbered request: of
the request being numbered, or of the one behind the pre-prepare being delivered. -/
private theorem offered_numbered {label : Label}
    (reached : Reach (step c conf) guard (init conf) w) (noFault : w.FaultFree label)
    {i : Nat} {source : Option Nat} {h : PBFTHandler} {effects : List Effect}
    (ran : Ran c w label i source h effects) :
    ∃ call, (w.replicas i).call c call = .ok (h, effects) ∧
      ∀ s b, (w.replicas i).supplies call = (s, b) → b ≠ "" →
        ∃ j, NumberedBody (w.record i source h effects).history j s b := by
  -- a vote that was broadcast offers nothing
  have noBody : ∀ {k : Nat} {m : Message}, w.sent[k]? = some m → m.mtype ≠ .preprepare →
      m.body = "" := by
    intro k m found type
    exact (sent_justified reached (List.mem_of_getElem? found)).2.2.vote_body type
  cases ran with
  | @request i req h effects ran =>
    refine ⟨.getRequest req, ran, ?_⟩
    rintro s b offers -
    cases offers
    -- the body of the request, which is numbered by this step
    have did := (call_numbered (a := .getRequest req) ran _ req).mpr ⟨rfl, rfl⟩
    exact ⟨i, req, (did_record ..).mpr (Or.inl ⟨rfl, did⟩), rfl⟩
  | @prepare i k m master h effects found type ran =>
    refine ⟨.prepare master m, ran, ?_⟩
    rintro s b offers -
    cases offers
    -- the body of the request that the sender of the pre-prepare numbered
    obtain ⟨-, -, justified⟩ := sent_justified reached (List.mem_of_getElem? found)
    obtain ⟨req, did, body⟩ := justified.preprepare type
    exact ⟨m.replicaId, req, (did_record ..).mpr (Or.inr did), body⟩
  | @commit i k m master h effects found type ran =>
    refine ⟨.commit m, ran, ?_⟩
    rintro s b offers filled
    cases offers
    exact absurd (noBody found (by rw [type]; decide)) filled
  | @reply i k m master h effects found type ran =>
    refine ⟨.reply m, ran, ?_⟩
    rintro s b offers filled
    cases offers
    exact absurd (noBody found (by rw [type]; decide)) filled
  | inject ran => exact noFault.elim

/-- Without faulty replicas every body in a table comes from a numbered request. -/
theorem body_numbered (honest : ∀ w a, guard w a → FaultFree w a)
    (reached : Reach (step c conf) guard (init conf) w) {i s : Nat}
    (filled : ((w.replicas i).proposal s).body ≠ "") :
    ∃ j, NumberedBody w.history j s ((w.replicas i).proposal s).body := by
  induction reached with
  | start => exact absurd rfl filled
  | @step before after label reached allowed taken ih =>
    have mono : ∀ {j : Nat} {b : String}, NumberedBody before.history j s b →
        NumberedBody after.history j s b := by
      rintro j b ⟨req, did, body⟩
      exact ⟨req, did_mono taken did, body⟩
    obtain ⟨j, source, h, effects, -, rfl, ran⟩ := step_cases taken
    obtain ⟨call, called, offers⟩ := offered_numbered reached (honest _ _ allowed) ran
    rw [record_replicas] at filled ⊢
    split at filled
    next here =>
      rw [if_pos here]
      subst here
      rcases call_body called s with kept | ⟨-, supplied⟩
      · rw [kept] at filled ⊢
        obtain ⟨j, numbered⟩ := ih filled
        exact ⟨j, mono numbered⟩
      · -- the body was filled in by this call
        exact offers s _ supplied filled
    next other =>
      rw [if_neg other]
      obtain ⟨j, numbered⟩ := ih filled
      exact ⟨j, mono numbered⟩

/-- Without faulty replicas every executed body comes from a request numbered so. -/
theorem executed_numbered (honest : ∀ w a, guard w a → FaultFree w a)
    (reached : Reach (step c conf) guard (init conf) w) {i s : Nat} {b : String}
    (executed : Did w.history i (.commitAction s b)) :
    ∃ j, NumberedBody w.history j s b := by
  obtain ⟨nonempty, body⟩ := executed_body reached executed
  have filled : ((w.replicas i).proposal s).body ≠ "" := by
    rw [body]
    exact nonempty
  obtain ⟨j, numbered⟩ := body_numbered honest reached filled
  exact ⟨j, body ▸ numbered⟩

/-! ### One primary -/

/-- Only the primary numbers requests. -/
theorem numbered_primary (reached : Reach (step c conf) (Trusted conf) (init conf) w)
    {i s : Nat} {req : Request} (did : Did w.history i (.numbered s req)) :
    i = conf.pbftPrimary := by
  induction reached with
  | start => simp [init, Did] at did
  | step _ allowed taken ih =>
    obtain ⟨j, source, h, effects, -, rfl, ran⟩ := step_cases taken
    rcases (did_record ..).mp did with ⟨rfl, new⟩ | old
    · -- the step was a request, and requests go to the primary
      have toPrimary := allowed.2
      rw [ran.numbers allowed.1 new] at toPrimary
      exact toPrimary
    · exact ih old

/-- Every pre-prepare is the primary's and carries the body of the request it numbered. -/
theorem preprepare_numbered (reached : Reach (step c conf) (Trusted conf) (init conf) w)
    {m : Message} (sent : m ∈ w.sent) (type : m.mtype = .preprepare) :
    m.replicaId = conf.pbftPrimary ∧
      NumberedBody w.history conf.pbftPrimary m.seq m.body := by
  obtain ⟨-, -, justified⟩ := sent_justified reached sent
  obtain ⟨req, did, body⟩ := justified.preprepare type
  have primary := numbered_primary reached did
  exact ⟨primary, req, primary ▸ did, body⟩

theorem NumberedBody.unique (reached : Reach (step c conf) guard (init conf) w)
    {j s : Nat} {b b' : String} (first : NumberedBody w.history j s b)
    (second : NumberedBody w.history j s b') : b = b' := by
  obtain ⟨req, did, rfl⟩ := first
  obtain ⟨req', did', rfl⟩ := second
  rw [(numbering reached j).unique s req req' did did']

/-- A body in a table is that of the primary's request. -/
theorem body_primary (reached : Reach (step c conf) (Trusted conf) (init conf) w) {i s : Nat}
    (filled : ((w.replicas i).proposal s).body ≠ "") :
    NumberedBody w.history conf.pbftPrimary s ((w.replicas i).proposal s).body := by
  obtain ⟨j, req, did, body⟩ := body_numbered (fun _ _ allowed => allowed.1) reached filled
  have primary : j = conf.pbftPrimary := numbered_primary reached did
  exact ⟨req, primary ▸ did, body⟩

/-- An executed body is that of the primary's request. -/
theorem executed_primary (reached : Reach (step c conf) (Trusted conf) (init conf) w)
    {i s : Nat} {b : String} (executed : Did w.history i (.commitAction s b)) :
    NumberedBody w.history conf.pbftPrimary s b := by
  obtain ⟨j, req, did, body⟩ := executed_numbered (fun _ _ allowed => allowed.1) reached executed
  have primary : j = conf.pbftPrimary := numbered_primary reached did
  exact ⟨req, primary ▸ did, body⟩

/-- No two replicas execute different bodies for one number: both execute that of the
primary's request. -/
theorem one_execution (reached : Reach (step c conf) (Trusted conf) (init conf) w) :
    OneExecution w := by
  intro i j s b b' executed executed'
  have first : NumberedBody w.history conf.pbftPrimary s b := executed_primary reached executed
  have second : NumberedBody w.history conf.pbftPrimary s b' :=
    executed_primary reached executed'
  exact first.unique reached second

end Ruccoin.Pbft.World
