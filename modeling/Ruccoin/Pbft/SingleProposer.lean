import Ruccoin.Pbft.FaultFree

/-!
# One proposer

`GetRequest` numbers requests at any replica, each from its own counter. So two replicas
that are both given requests propose under the same numbers, and whether their proposals
conflict is settled by the requests alone.
-/

namespace Ruccoin.Pbft.World

open Transition PBFTHandler

variable {c : Crypto} {conf : Config} {w : World}

/-- No two pre-prepares with one number and different bodies were broadcast. -/
def OneProposal (w : World) : Prop :=
  ∀ m ∈ w.sent, ∀ m' ∈ w.sent, m.mtype = .preprepare → m'.mtype = .preprepare →
    m.seq = m'.seq → m.body = m'.body

/-- The requests a run gives to replica `i`, in order. -/
def requestsTo (i : Nat) (run : List Label) : List Request :=
  run.filterMap fun
    | .request j req => if j = i then some req else none
    | _ => none

theorem requestsTo_append (i : Nat) (run rest : List Label) :
    requestsTo i (run ++ rest) = requestsTo i run ++ requestsTo i rest :=
  List.filterMap_append

/-- Replica `i` has numbered exactly the given requests, each with its position. -/
structure Numbers (w : World) (i : Nat) (requests : List Request) : Prop where
  counted : (w.replicas i).nextProposalSeq = requests.length
  numbered : ∀ s req, Did w.history i (.numbered s req) ↔ requests[s]? = some req

section Step

variable {i j : Nat} {requests : List Request} {source : Option Nat} {h : PBFTHandler}
  {effects : List Effect}

/-- A call that is no request hands out no number. -/
theorem Numbers.quiet (numbers : w.Numbers i requests) (call : Call)
    (none : call.requests = 0) (ran : (w.replicas i).call c call = .ok (h, effects)) :
    (w.record i source h effects).Numbers i requests := by
  have silent : ∀ s req, .numbered s req ∉ effects := by
    intro s req reported
    obtain ⟨rfl, -⟩ := (call_numbered ran s req).mp reported
    simp [Call.requests] at none
  constructor
  · rw [record_self, call_nextProposalSeq ran, none, Nat.add_zero]
    exact numbers.counted
  · intro s req
    simp [did_record, silent, numbers.numbered]

theorem Numbers.request (numbers : w.Numbers i requests) {req : Request}
    (ran : (w.replicas i).call c (.getRequest req) = .ok (h, effects)) :
    (w.record i source h effects).Numbers i (requests ++ [req]) := by
  constructor
  · rw [record_self, call_nextProposalSeq ran, numbers.counted, Call.requests]
    simp
  · intro s req'
    rw [did_record, numbers.numbered, call_numbered ran, numbers.counted, List.getElem?_append]
    -- an old number, the new one, or one not handed out yet
    by_cases below : s < requests.length
    · have other : s ≠ requests.length := Nat.ne_of_lt below
      simp [below, other]
    · by_cases next : s = requests.length
      · simp [next]
      · have past : s - requests.length ≠ 0 := by omega
        simp [below, next, past]

theorem Numbers.other (numbers : w.Numbers i requests) (other : j ≠ i) :
    (w.record j source h effects).Numbers i requests := by
  constructor
  · rw [record_other other]
    exact numbers.counted
  · intro s req
    rw [did_record_other other]
    exact numbers.numbered s req

end Step

/-- One step more: the requests counted and the numbers reported grow together. -/
private theorem numbers_step {a : Label} {w' : World} {i : Nat} {requests : List Request}
    (taken : step c conf w a = some w') (numbers : w.Numbers i requests) :
    w'.Numbers i (requests ++ requestsTo i [a]) := by
  obtain ⟨j, source, h, effects, -, rfl, ran⟩ := step_cases taken
  -- every step but a request at this replica leaves the list as it is
  have unchanged (nothing : requestsTo i [a] = []) :
      requests ++ requestsTo i [a] = requests := by
    rw [nothing, List.append_nil]
  by_cases here : j = i
  · subst here
    cases ran with
    | @request j req h effects ran =>
      have new : requestsTo j [.request j req] = [req] := by simp [requestsTo]
      rw [new]
      exact numbers.request ran
    | prepare found type ran =>
      rw [unchanged rfl]
      exact numbers.quiet (.prepare _ _) rfl ran
    | commit found type ran =>
      rw [unchanged rfl]
      exact numbers.quiet (.commit _) rfl ran
    | reply found type ran =>
      rw [unchanged rfl]
      exact numbers.quiet (.reply _) rfl ran
    | @inject src i endpoint m master h effects ran =>
      rw [unchanged rfl]
      exact numbers.quiet _ (by cases endpoint <;> rfl) ran
  · have nothing : requestsTo i [a] = [] := by
      cases ran with
      | request ran => simp [requestsTo, here]
      | prepare => rfl
      | commit => rfl
      | reply => rfl
      | inject => rfl
    rw [unchanged nothing]
    exact numbers.other here

/-- The `k`-th request at a replica gets the number `k`. -/
theorem numbered_iff {run : List Label} (ran : exec (step c conf) (init conf) run = some w)
    (i s : Nat) (req : Request) :
    Did w.history i (.numbered s req) ↔ (requestsTo i run)[s]? = some req := by
  have numbers : w.Numbers i (requestsTo i run) := by
    induction run using List.reverseRecOn generalizing w with
    | nil =>
      cases ran
      constructor <;> simp [init, PBFTHandler.init, Did, requestsTo]
    | append_singleton as a ih =>
      obtain ⟨before, ran, taken⟩ := exec_concat.mp ran
      rw [requestsTo_append]
      exact numbers_step taken (ih ran)
  exact numbers.numbered s req

/-- When the requests agree on every number, so do the proposals and the executions; when
they do not, two conflicting pre-prepares are broadcast. -/
theorem single_proposer_iff (run : List Label)
    (meets : Meets (step c conf) FaultFree (init conf) run)
    (ran : exec (step c conf) (init conf) run = some w) :
    (OneProposal w ∧ OneExecution w) ↔
      ∀ (i j k : Nat) (req req' : Request), (requestsTo i run)[k]? = some req →
        (requestsTo j run)[k]? = some req' → req.body = req'.body := by
  have reached := reach_of_exec meets ran
  constructor
  · -- both requests were put on pre-prepares with the number `k`
    rintro ⟨oneProposal, -⟩ i j k req req' atI atJ
    obtain ⟨m, sent, type, seq, body⟩ := numbered_sent reached ((numbered_iff ran i k req).mpr atI)
    obtain ⟨m', sent', type', seq', body'⟩ :=
      numbered_sent reached ((numbered_iff ran j k req').mpr atJ)
    rw [← body, ← body']
    exact oneProposal m sent m' sent' type type' (seq.trans seq'.symm)
  · intro agree
    have sameBody : ∀ i j s b b', NumberedBody w.history i s b → NumberedBody w.history j s b' →
        b = b' := by
      rintro i j s b b' ⟨req, did, rfl⟩ ⟨req', did', rfl⟩
      exact agree i j s req req' ((numbered_iff ran i s req).mp did)
        ((numbered_iff ran j s req').mp did')
    have bodyOf : ∀ m ∈ w.sent, m.mtype = .preprepare →
        NumberedBody w.history m.replicaId m.seq m.body := by
      intro m sent type
      exact (sent_justified reached sent).2.2.preprepare type
    constructor
    · intro m sent m' sent' type type' seq
      exact sameBody _ _ m.seq _ _ (bodyOf m sent type) (seq ▸ bodyOf m' sent' type')
    · -- an executed body is that of a request which was given this number somewhere
      intro i j s b b' executed executed'
      obtain ⟨i', numbered⟩ := executed_numbered (fun _ _ h => h) reached executed
      obtain ⟨j', numbered'⟩ := executed_numbered (fun _ _ h => h) reached executed'
      exact sameBody i' j' s b b' numbered numbered'

/-- A request at the only replica, executed. -/
def loneRun : List Label :=
  [.request 0 ⟨0, 0, "A"⟩, .deliver 0 0 approving, .deliver 1 0 approving,
    .deliver 2 0 approving]

theorem single_proposer_lone :
    ∃ w, exec (step sampleCrypto (sampleConfig 1)) (init (sampleConfig 1)) loneRun = some w ∧
      Did w.history 0 (.commitAction 0 "A") ∧ OneProposal w ∧ OneExecution w := by
  obtain ⟨w, ran, executed⟩ := exec_of_run
    (step sampleCrypto (sampleConfig 1)) (init (sampleConfig 1)) loneRun
    (p := fun w => decide (Did w.history 0 (.commitAction 0 "A"))) (by decide +kernel)
  refine ⟨w, ran, by simpa using executed, ?_⟩
  apply (single_proposer_iff loneRun (by decide +kernel) ran).mpr
  intro i j k req req' atI atJ
  -- one request, so the two are the same one
  have only : ∀ {i k : Nat} {req : Request}, (requestsTo i loneRun)[k]? = some req →
      req = ⟨0, 0, "A"⟩ := by
    intro i k req found
    have member := List.mem_of_getElem? found
    by_cases here : (0 : Nat) = i <;> simp_all [requestsTo, loneRun]
  rw [only atI, only atJ]

/-- Two clients, two replicas and one number: replica 1 executes its own body on the votes
that were cast for the other. -/
def conflictingRun : List Label :=
  [.request 0 ⟨0, 0, "A"⟩, .request 1 ⟨1, 0, "B"⟩, .deliver 0 0 approving,
    .deliver 2 0 approving, .deliver 3 0 approving, .deliver 3 1 approving]

theorem two_proposers :
    ∃ w, Reach (step sampleCrypto (sampleConfig 2)) FaultFree (init (sampleConfig 2)) w ∧
      ¬OneProposal w ∧ ¬OneExecution w := by
  obtain ⟨w, ran, facts⟩ := exec_of_run
    (step sampleCrypto (sampleConfig 2)) (init (sampleConfig 2))
    conflictingRun
    (p := fun w => decide ((Did w.history 0 (.commitAction 0 "A") ∧
        Did w.history 1 (.commitAction 0 "B")) ∧
      (∃ m ∈ w.sent, m.mtype = .preprepare ∧ m.seq = 0 ∧ m.body = "A") ∧
      ∃ m ∈ w.sent, m.mtype = .preprepare ∧ m.seq = 0 ∧ m.body = "B")) (by decide +kernel)
  obtain ⟨⟨executedA, executedB⟩, ⟨m, sent, type, seq, body⟩, m', sent', type', seq', body'⟩ :=
    of_decide_eq_true facts
  refine ⟨w, reach_of_exec (by decide +kernel) ran, ?_, ?_⟩
  · intro oneProposal
    have equal := oneProposal m sent m' sent' type type' (seq.trans seq'.symm)
    rw [body, body'] at equal
    exact absurd equal (by decide)
  · intro oneExecution
    exact absurd (oneExecution 0 1 0 "A" "B" executedA executedB) (by decide)

end Ruccoin.Pbft.World
