import Ruccoin.Pbft.Replica

/-!
# Requests and what is executed for them

`GetRequest` waits until the proposal with its number is committed. The proposal may have
been in the table before the request came, or get its body from a pre-prepare that somebody
else has sent for the same number, and then it is another body that is executed when the
request returns.

`GetRequest` up to its wait is one step, and so is each call of another handler, in the order
in which they find and make the entries.
-/

namespace Ruccoin.Pbft

/-- A replica with the requests it has numbered. -/
structure RequestRun where
  replica : Replica
  requests : List (Nat × Request)

namespace RequestRun

open Transition PBFTHandler

def start (conf : Config) (id : Nat) : RequestRun := ⟨Replica.start conf id, []⟩

/-- The request that a call is, with the number it is given. -/
def numberedBy (h : PBFTHandler) : Call → List (Nat × Request)
  | .getRequest req => [(h.nextProposalSeq, req)]
  | _ => []

def step (c : Crypto) (r : RequestRun) (a : Call) : Option RequestRun :=
  (r.replica.step c a).map fun replica =>
    ⟨replica, r.requests ++ numberedBy r.replica.handler a⟩

/-- When `GetRequest` can return, the body of its request has been executed under the number
it was given. -/
def Completed (r : RequestRun) : Prop :=
  ∀ s req, (s, req) ∈ r.requests → r.replica.handler.requestCompleted s = true →
    ∃ e ∈ r.replica.executed, e.seq = s ∧ e.body = req.body

/-- The proposals of the requests have their bodies, or none yet. -/
def Undisturbed (r : RequestRun) : Prop :=
  ∀ s req, (s, req) ∈ r.requests → (r.replica.handler.proposal s).body = "" ∨
    (r.replica.handler.proposal s).body = req.body

/-- A request finds its number without a body or with its own one, and a pre-prepare that
fills in the body of a numbered proposal brings that of the request. -/
def Respects (c : Crypto) (r : RequestRun) : Call → Prop
  | .getRequest req =>
    let found := r.replica.handler.proposal r.replica.handler.nextProposalSeq
    found.body = "" ∨ found.body = req.body
  | .prepare _ m => m.checkSignature c = .ok true →
      (r.replica.handler.proposal m.seq).body = "" → m.body ≠ "" →
        ∀ entry ∈ r.requests, entry.1 = m.seq → m.body = entry.2.body
  | _ => True

instance (c : Crypto) (r : RequestRun) : ∀ a, Decidable (Respects c r a)
  | .getRequest _ => inferInstanceAs (Decidable (_ ∨ _))
  | .prepare _ m => inferInstanceAs (Decidable (m.checkSignature c = .ok true →
      (r.replica.handler.proposal m.seq).body = "" → m.body ≠ "" →
        ∀ entry ∈ r.requests, entry.1 = m.seq → m.body = entry.2.body))
  | .commit _ => inferInstanceAs (Decidable True)
  | .reply _ => inferInstanceAs (Decidable True)

variable {c : Crypto} {r r' : RequestRun} {a : Call} {conf : Config} {id : Nat}
  {run : List Call}

theorem step_call (taken : step c r a = some r') :
    ∃ effects, r.replica.handler.call c a = .ok (r'.replica.handler, effects) ∧
      r'.replica.executed =
        r.replica.executed ++ Replica.executions r'.replica.handler effects ∧
      r'.requests = r.requests ++ numberedBy r.replica.handler a := by
  obtain ⟨replica, ran, rfl⟩ := Option.map_eq_some_iff.mp taken
  obtain ⟨effects, called, executed⟩ := Replica.step_call ran
  exact ⟨effects, called, executed, rfl⟩

/-! ### What every run keeps -/

/-- The numbers are handed out in order, and each has an entry. -/
def Numbered (r : RequestRun) : Prop :=
  ∀ s req, (s, req) ∈ r.requests →
    s < r.replica.handler.nextProposalSeq ∧ r.replica.handler.proposals s ≠ none

theorem addRequest_present (h : PBFTHandler) (req : Request) :
    (h.addRequest req).proposals h.nextProposalSeq ≠ none := by
  unfold addRequest
  dsimp only
  split
  next =>
    unfold setProposal
    simp
  next p found => simp [found]

theorem numbered_step (before : Numbered r) (taken : step c r a = some r') : Numbered r' := by
  obtain ⟨effects, called, -, requests⟩ := step_call taken
  have next := call_nextProposalSeq called
  have kept : ∀ s req, (s, req) ∈ r.requests →
      s < r'.replica.handler.nextProposalSeq ∧ r'.replica.handler.proposals s ≠ none := by
    intro s req member
    obtain ⟨below, present⟩ := before s req member
    exact ⟨by omega, call_keeps called present⟩
  intro s req member
  rw [requests] at member
  rcases List.mem_append.mp member with old | new
  · exact kept s req old
  · cases a with
    | getRequest req' =>
      obtain ⟨rfl, rfl⟩ := Prod.mk.inj (List.mem_singleton.mp new)
      simp only [Call.requests] at next
      refine ⟨by omega, ?_⟩
      rw [(preprepare_cases called).1]
      exact addRequest_present _ req
    | prepare master m => cases new
    | commit m => cases new
    | reply m => cases new

/-- A committed proposal has been executed with the body it has. -/
def CommitsExecuted (r : RequestRun) : Prop :=
  ∀ s, (r.replica.handler.proposal s).committed = true →
    ∃ e ∈ r.replica.executed, e.seq = s ∧ e.body = (r.replica.handler.proposal s).body ∧
      e.body ≠ ""

theorem commitsExecuted_step (before : CommitsExecuted r) (taken : step c r a = some r') :
    CommitsExecuted r' := by
  obtain ⟨effects, called, executed, -⟩ := step_call taken
  intro s committed
  have flags := call_flags called s
  rw [executed]
  rcases flags.committed.mp committed with old | ⟨b, reported⟩
  · obtain ⟨e, member, seq, body, filled⟩ := before s old
    have kept := call_body_kept called (body ▸ filled)
    exact ⟨e, List.mem_append_left _ member, seq, body.trans kept.symm, filled⟩
  · -- the execution of this call
    obtain ⟨-, filled, body⟩ := flags.commitAction b reported
    have member : (⟨s, b, r'.replica.handler.proposal s⟩ : Execution) ∈
        Replica.executions r'.replica.handler effects :=
      Replica.mem_executions.mpr ⟨reported, rfl⟩
    exact ⟨_, List.mem_append_right _ member, rfl, body.symm, filled⟩

/-- What was executed for an undisturbed request is its body. -/
theorem completed_of_undisturbed (executed : CommitsExecuted r) (kept : Undisturbed r) :
    Completed r := by
  intro s req member committed
  obtain ⟨e, done, seq, body, filled⟩ := executed s committed
  refine ⟨e, done, seq, body.trans ?_⟩
  exact (kept s req member).resolve_left (body ▸ filled)

/-! ### What disturbs a request -/

/-- A request leaves the bodies in the table alone, except for a number without an entry. -/
theorem undisturbed_getRequest {req : Request} (numbered : Numbered r) (before : Undisturbed r)
    (taken : step c r (.getRequest req) = some r') :
    Undisturbed r' ↔ Respects c r (.getRequest req) := by
  obtain ⟨effects, called, -, requests⟩ := step_call taken
  obtain ⟨after, -⟩ := preprepare_cases called
  have old : ∀ s req', (s, req') ∈ r.requests →
      r'.replica.handler.proposal s = r.replica.handler.proposal s := by
    intro s req' member
    rw [after]
    rcases r.replica.handler.addRequest_proposal req s with kept | ⟨here, -⟩
    · exact kept
    · exact absurd (numbered s req' member).1 (here ▸ lt_irrefl _)
  have new : (r'.replica.handler.proposal r.replica.handler.nextProposalSeq).body = "" ∨
        (r'.replica.handler.proposal r.replica.handler.nextProposalSeq).body = req.body ↔
      Respects c r (.getRequest req) := by
    rw [after]
    rcases r.replica.handler.addRequest_proposal req r.replica.handler.nextProposalSeq with
      kept | ⟨-, missing, created⟩
    · rw [kept]
      rfl
    · -- an entry that was missing had no body
      rw [created]
      refine iff_of_true (Or.inr rfl) (Or.inl ?_)
      rw [proposal, missing]
      rfl
  rw [← new]
  unfold Undisturbed
  rw [requests]
  constructor
  · exact fun kept => kept _ _ (List.mem_append_right _ List.mem_cons_self)
  · intro fresh s req' member
    rcases List.mem_append.mp member with member | last
    · rw [old s req' member]
      exact before s req' member
    · obtain ⟨rfl, rfl⟩ := Prod.mk.inj (List.mem_singleton.mp last)
      exact fresh

theorem undisturbed_prepare {master : Master} {m : Message} (before : Undisturbed r)
    (taken : step c r (.prepare master m) = some r') :
    Undisturbed r' ↔ Respects c r (.prepare master m) := by
  obtain ⟨effects, called, -, requests⟩ := step_call taken
  simp only [numberedBy, List.append_nil] at requests
  unfold Undisturbed
  simp only [requests, prepare_body called]
  constructor
  · intro kept accepted empty brings entry member seq
    have after := kept entry.1 entry.2 member
    rw [if_pos ⟨accepted, seq, by rw [seq]; exact empty⟩] at after
    exact after.resolve_left brings
  · intro respects s req member
    split
    next filled =>
      obtain ⟨accepted, rfl, empty⟩ := filled
      by_cases brings : m.body = ""
      · exact Or.inl brings
      · exact Or.inr (respects accepted empty brings (m.seq, req) member rfl)
    next => exact before s req member

/-- The votes that `Commit` and `Reply` count do not disturb a request. -/
theorem undisturbed_ballot {m : Message} (numbered : Numbered r) (before : Undisturbed r)
    (ballot : a.ballot = some m) (taken : step c r a = some r') : Undisturbed r' := by
  obtain ⟨effects, called, -, requests⟩ := step_call taken
  have same : r'.requests = r.requests := by
    cases a with
    | getRequest req => cases ballot
    | prepare master m' => cases ballot
    | commit m' => simpa [numberedBy] using requests
    | reply m' => simpa [numberedBy] using requests
  intro s req member
  rw [same] at member
  rw [call_body_of_present called ballot (numbered s req member).2]
  exact before s req member

theorem undisturbed_step (numbered : Numbered r) (before : Undisturbed r)
    (taken : step c r a = some r') : Undisturbed r' ↔ Respects c r a := by
  cases a with
  | getRequest req => exact undisturbed_getRequest numbered before taken
  | prepare master m => exact undisturbed_prepare before taken
  | commit m => exact iff_of_true (undisturbed_ballot numbered before rfl taken) trivial
  | reply m => exact iff_of_true (undisturbed_ballot numbered before rfl taken) trivial

/-- The proposals of the requests keep to their bodies all along a run exactly when every
call respects the requests, and then nothing else is executed for a request that returns. -/
theorem completed_executed_iff (ran : exec (step c) (start conf id) run = some r) :
    (Always (step c) Undisturbed (start conf id) run ↔
        Meets (step c) (Respects c) (start conf id) run) ∧
      (Meets (step c) (Respects c) (start conf id) run →
        Always (step c) Completed (start conf id) run) := by
  have noRequest : Undisturbed (start conf id) := fun s req member => by cases member
  have noNumber : Numbered (start conf id) := fun s req member => by cases member
  have noCommit : CommitsExecuted (start conf id) := fun s committed => by cases committed
  constructor
  · refine always_iff_meets noRequest ?_ (meets_true _ run) ran
    intro s a s' reached before _ taken
    have numbered : Numbered s := reached.invariant noNumber
      fun _ _ _ _ before _ taken => numbered_step before taken
    exact undisturbed_step numbered before taken
  · intro respects
    have all := always_of_kept
      (P := fun r => Numbered r ∧ CommitsExecuted r ∧ Undisturbed r)
      ⟨noNumber, noCommit, noRequest⟩ ?_ respects
    · exact all.mono fun s kept => completed_of_undisturbed kept.2.1 kept.2.2
    · rintro s a s' ⟨numbered, executed, kept⟩ respects taken
      exact ⟨numbered_step numbered taken, commitsExecuted_step executed taken,
        (undisturbed_step numbered kept taken).mpr respects⟩

/-! ### Two runs -/

/-- A request at the primary, and the messages that complete it. -/
def requestCalls (body first : String) : List Call :=
  .getRequest ⟨0, 0, body⟩ :: orderlyCalls (Message.getDigest sampleCrypto first) first

theorem completed_executed_request :
    ∃ r, exec (step sampleCrypto) (start (sampleConfig 4) 0) (requestCalls "A" "A") = some r ∧
      r.replica.handler.requestCompleted 0 = true ∧ Completed r := by
  obtain ⟨r, ran, returns⟩ := exec_of_run (step sampleCrypto) (start (sampleConfig 4) 0)
    (requestCalls "A" "A") (p := fun r => r.replica.handler.requestCompleted 0)
    (by decide +kernel)
  have always := (completed_executed_iff ran).2 (by decide +kernel)
  exact ⟨r, ran, returns, always.last ran⟩

/-- A pre-prepare for the first number arrives before the request. -/
def overtakenCalls : List Call :=
  orderlyCalls (Message.getDigest sampleCrypto "B") "B" ++ [.getRequest ⟨0, 0, "A"⟩]

/-- The request for "A" returns at once, and only "B" has been executed. -/
theorem completed_other_body :
    (∀ a ∈ overtakenCalls, a.Accepted sampleCrypto) ∧
      ∃ r, exec (step sampleCrypto) (start (sampleConfig 4) 0) overtakenCalls = some r ∧
        r.requests = [(0, ⟨0, 0, "A"⟩)] ∧ r.replica.handler.requestCompleted 0 = true ∧
        r.replica.executed.map Execution.body = ["B"] ∧ ¬Completed r := by
  refine ⟨by decide +kernel, ?_⟩
  obtain ⟨r, ran, ends⟩ := exec_of_run (step sampleCrypto) (start (sampleConfig 4) 0)
    overtakenCalls
    (p := fun r => decide (r.requests = [(0, ⟨0, 0, "A"⟩)] ∧
      r.replica.handler.requestCompleted 0 = true ∧
      r.replica.executed.map Execution.body = ["B"])) (by decide +kernel)
  obtain ⟨requests, returns, bodies⟩ := of_decide_eq_true ends
  refine ⟨r, ran, requests, returns, bodies, fun completed => ?_⟩
  obtain ⟨e, member, -, body⟩ := completed 0 ⟨0, 0, "A"⟩ (by simp [requests]) returns
  have executed : e.body ∈ ["B"] := bodies ▸ List.mem_map_of_mem member
  rw [body] at executed
  exact absurd executed (by decide)

end RequestRun

end Ruccoin.Pbft
