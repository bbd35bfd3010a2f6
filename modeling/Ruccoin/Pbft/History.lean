import Ruccoin.Pbft.Votes
import Ruccoin.Pbft.World

/-!
# What the history says about the present

Facts of every run, whatever the guard, so with faulty senders as well: the flags and the
numbers of a replica are what its history reports, an executed body is the proposal's body,
and every broadcast is justified by an earlier or the same event of its sender.
-/

namespace Ruccoin.Pbft.World

open Transition PBFTHandler

variable {c : Crypto} {conf : Config} {guard : World → Label → Prop} {w w' : World}

theorem did_mono {a : Label} (taken : step c conf w a = some w') {i : Nat} {e : Effect}
    (did : Did w.history i e) : Did w'.history i e := by
  obtain ⟨j, source, h, effects, -, rfl, -⟩ := step_cases taken
  exact (did_record ..).mpr (Or.inr did)

/-- The flags of a proposal are the ones its replica reported setting. -/
structure FlagsReported (w : World) (i s : Nat) : Prop where
  prepared : ((w.replicas i).proposal s).prepared = true ↔ Did w.history i (.setPrepared s)
  committed : ((w.replicas i).proposal s).committed = true ↔
    ∃ b, Did w.history i (.commitAction s b)

theorem flags_step {a : Label} (taken : step c conf w a = some w') {i s : Nat}
    (reported : w.FlagsReported i s) : w'.FlagsReported i s := by
  obtain ⟨j, source, h, effects, -, rfl, ran⟩ := step_cases taken
  obtain ⟨call, ran⟩ := ran.call
  by_cases here : j = i
  · subst here
    have flags := call_flags ran s
    constructor
    · rw [record_self, flags.prepared, reported.prepared, did_record]
      simp [or_comm]
    · rw [record_self, flags.committed, reported.committed]
      simp only [did_record, true_and, exists_or]
      exact or_comm
  · -- another replica's call leaves the entry and the reports of this one alone
    constructor
    · simpa only [record_other here, did_record_other here] using reported.prepared
    · simpa only [record_other here, did_record_other here] using reported.committed

theorem flags_reported (reached : Reach (step c conf) guard (init conf) w) (i s : Nat) :
    w.FlagsReported i s := by
  apply reached.invariant (P := fun w => w.FlagsReported i s)
  · constructor <;> simp [init, Did, Proposal.new]
  · intro w a w' _ reported _ taken
    exact flags_step taken reported

/-- What a replica executed for a number is the body its proposal has, and not empty. -/
theorem executed_body (reached : Reach (step c conf) guard (init conf) w) {i s : Nat}
    {b : String} (executed : Did w.history i (.commitAction s b)) :
    b ≠ "" ∧ ((w.replicas i).proposal s).body = b := by
  induction reached with
  | start => simp [init, Did] at executed
  | step _ _ taken ih =>
    obtain ⟨j, source, h, effects, -, rfl, ran⟩ := step_cases taken
    obtain ⟨call, ran⟩ := ran.call
    rcases (did_record ..).mp executed with ⟨rfl, new⟩ | old
    · -- executed by this very step
      have flags := (call_flags ran s).commitAction b new
      exact ⟨flags.2.1, by rw [record_self]; exact flags.2.2⟩
    · obtain ⟨nonempty, body⟩ := ih old
      refine ⟨nonempty, ?_⟩
      rw [record_replicas]
      split
      next here =>
        -- a body that is not empty is not written again
        subst here
        rw [call_body_kept ran (by rw [body]; exact nonempty), body]
      next => exact body

/-! ### Executions -/

def Effect.execution : Effect → Option (Nat × String)
  | .commitAction s b => some (s, b)
  | _ => none

/-- What replica `i` executed, in order. -/
def executions (history : List Event) (i : Nat) : List (Nat × String) :=
  history.reverse.flatMap fun e =>
    if e.replica = i then e.effects.filterMap Effect.execution else []

theorem mem_execution {effects : List Effect} {s : Nat} {b : String} :
    (s, b) ∈ effects.filterMap Effect.execution ↔ .commitAction s b ∈ effects := by
  rw [List.mem_filterMap]
  constructor
  · rintro ⟨e, member, eq⟩
    cases e <;> cases eq
    exact member
  · intro member
    exact ⟨_, member, rfl⟩

theorem mem_executions {history : List Event} {i s : Nat} {b : String} :
    (s, b) ∈ executions history i ↔ Did history i (.commitAction s b) := by
  simp only [executions, List.mem_flatMap, List.mem_reverse, Did]
  constructor
  · -- what an event lists it did
    rintro ⟨e, member, listed⟩
    split at listed
    next own => exact ⟨e, member, own, mem_execution.mp listed⟩
    next => cases listed
  · rintro ⟨e, member, own, done⟩
    exact ⟨e, member, by rw [if_pos own]; exact mem_execution.mpr done⟩

/-- An event appends what it executed. -/
theorem executions_cons (e : Event) (history : List Event) (i : Nat) :
    executions (e :: history) i = executions history i ++
      if e.replica = i then e.effects.filterMap Effect.execution else [] := by
  simp [executions]

/-- The replica that ran the call executed more, every other one what it had. -/
theorem executions_record (w : World) (j : Nat) (source : Option Nat) (h : PBFTHandler)
    (effects : List Effect) (i : Nat) :
    executions (w.record j source h effects).history i = executions w.history i ++
      if j = i then effects.filterMap Effect.execution else [] :=
  executions_cons ⟨j, source, effects⟩ w.history i

/-- No two replicas executed different bodies for one number. -/
def OneExecution (w : World) : Prop :=
  ∀ i j s b b', Did w.history i (.commitAction s b) → Did w.history j (.commitAction s b') →
    b = b'

/-- A replica hands out each of its numbers to one request, the numbers below its counter
to one each. -/
structure Numbering (w : World) (i : Nat) : Prop where
  below : ∀ s req, Did w.history i (.numbered s req) → s < (w.replicas i).nextProposalSeq
  unique : ∀ s req req', Did w.history i (.numbered s req) →
    Did w.history i (.numbered s req') → req = req'
  all : ∀ s, s < (w.replicas i).nextProposalSeq → ∃ req, Did w.history i (.numbered s req)

/-- The call of another replica moves neither the counter nor the reports of this one. -/
theorem Numbering.other {i j : Nat} {source : Option Nat} {h : PBFTHandler}
    {effects : List Effect} (numbers : w.Numbering i) (other : j ≠ i) :
    (w.record j source h effects).Numbering i := by
  refine ⟨?_, ?_, ?_⟩
  · intro s req did
    rw [record_other other]
    exact numbers.below s req ((did_record_other other _).mp did)
  · intro s req req' did did'
    exact numbers.unique s req req' ((did_record_other other _).mp did)
      ((did_record_other other _).mp did')
  · intro s below
    rw [record_other other] at below
    obtain ⟨req, old⟩ := numbers.all s below
    exact ⟨req, (did_record_other other _).mpr old⟩

/-- A call of the replica itself hands out the old counter, or nothing. -/
theorem Numbering.own {i : Nat} {source : Option Nat} {call : Call} {h : PBFTHandler}
    {effects : List Effect} (numbers : w.Numbering i)
    (ran : (w.replicas i).call c call = .ok (h, effects)) :
    (w.record i source h effects).Numbering i := by
  have counter := call_nextProposalSeq ran
  have handed := call_numbered ran
  refine ⟨?_, ?_, ?_⟩
  · -- the new number is the old counter
    intro s req did
    rw [record_self, counter]
    rcases (did_record ..).mp did with ⟨-, new⟩ | old
    · obtain ⟨rfl, rfl⟩ := (handed s req).mp new
      exact Nat.lt_succ_self _
    · exact Nat.lt_add_right _ (numbers.below s req old)
  · intro s req req' did did'
    rcases (did_record ..).mp did with ⟨-, new⟩ | old <;>
      rcases (did_record ..).mp did' with ⟨-, new'⟩ | old'
    · obtain ⟨rfl, -⟩ := (handed s req).mp new
      exact Call.getRequest.inj ((handed s req').mp new').1
    · -- a number in use is below the counter, the new one is the counter
      have fresh := ((handed s req).mp new).2
      have used := numbers.below s req' old'
      omega
    · have fresh := ((handed s req').mp new').2
      have used := numbers.below s req old
      omega
    · exact numbers.unique s req req' old old'
  · intro s below
    rw [record_self, counter] at below
    by_cases used : s < (w.replicas i).nextProposalSeq
    · obtain ⟨req, old⟩ := numbers.all s used
      exact ⟨req, (did_record ..).mpr (Or.inr old)⟩
    · -- only a request moves the counter, and it takes the number
      cases call with
      | getRequest req =>
        have fresh : s = (w.replicas i).nextProposalSeq := by
          simp only [Call.requests] at below
          omega
        exact ⟨req, (did_record ..).mpr (Or.inl ⟨rfl, (handed s req).mpr ⟨rfl, fresh⟩⟩)⟩
      | prepare master m => exact absurd below used
      | commit m => exact absurd below used
      | reply m => exact absurd below used

theorem numbering_step {a : Label} (taken : step c conf w a = some w') {i : Nat}
    (numbers : w.Numbering i) : w'.Numbering i := by
  obtain ⟨j, source, h, effects, -, rfl, ran⟩ := step_cases taken
  by_cases here : j = i
  · subst here
    obtain ⟨call, ran⟩ := ran.call
    exact numbers.own ran
  · exact numbers.other here

theorem numbering (reached : Reach (step c conf) guard (init conf) w) (i : Nat) :
    Numbering w i := by
  apply reached.invariant (P := fun w => w.Numbering i)
  · constructor <;> simp [init, PBFTHandler.init, Did]
  · intro w a w' _ numbers _ taken
    exact numbering_step taken numbers

/-- A number handed out is on a pre-prepare with the body of the request. -/
theorem numbered_sent (reached : Reach (step c conf) guard (init conf) w) {i s : Nat}
    {req : Request} (did : Did w.history i (.numbered s req)) :
    ∃ m ∈ w.sent, m.mtype = .preprepare ∧ m.seq = s ∧ m.body = req.body := by
  induction reached with
  | start => simp [init, Did] at did
  | step _ _ taken ih =>
    obtain ⟨j, source, h, effects, -, rfl, ran⟩ := step_cases taken
    obtain ⟨call, ran⟩ := ran.call
    rcases (did_record ..).mp did with ⟨-, new⟩ | old
    · obtain ⟨rfl, rfl⟩ := (call_numbered ran s req).mp new
      obtain ⟨-, m, type, -, seq, body, rfl⟩ := preprepare_cases ran
      exact ⟨m, (mem_record_sent ..).mpr (Or.inr (by simp)), type, seq, body⟩
    · obtain ⟨m, sent, rest⟩ := ih old
      exact ⟨m, (mem_record_sent ..).mpr (Or.inl sent), rest⟩

/-- What the sender of a message reported together with sending it. -/
def Justified (history : List Event) (m : Message) : Prop :=
  (m.mtype = .preprepare ∧ ∃ req, Did history m.replicaId (.numbered m.seq req) ∧
      req.body = m.body) ∨
    (m.mtype = .prepare ∧ m.body = "" ∧
      ∃ b, Did history m.replicaId (.checkProposal m.seq b true)) ∨
    (m.mtype = .commit ∧ m.body = "" ∧ Did history m.replicaId (.setPrepared m.seq))

theorem Justified.preprepare {history : List Event} {m : Message}
    (justified : Justified history m) (type : m.mtype = .preprepare) :
    ∃ req, Did history m.replicaId (.numbered m.seq req) ∧ req.body = m.body := by
  rcases justified with ⟨-, numbered⟩ | ⟨wrong, -⟩ | ⟨wrong, -⟩
  · exact numbered
  · rw [type] at wrong; cases wrong
  · rw [type] at wrong; cases wrong

theorem Justified.prepare {history : List Event} {m : Message}
    (justified : Justified history m) (type : m.mtype = .prepare) :
    m.body = "" ∧ ∃ b, Did history m.replicaId (.checkProposal m.seq b true) := by
  rcases justified with ⟨wrong, -⟩ | ⟨-, approved⟩ | ⟨wrong, -⟩
  · rw [type] at wrong; cases wrong
  · exact approved
  · rw [type] at wrong; cases wrong

theorem Justified.commit {history : List Event} {m : Message}
    (justified : Justified history m) (type : m.mtype = .commit) :
    m.body = "" ∧ Did history m.replicaId (.setPrepared m.seq) := by
  rcases justified with ⟨wrong, -⟩ | ⟨wrong, -⟩ | ⟨-, prepared⟩
  · rw [type] at wrong; cases wrong
  · rw [type] at wrong; cases wrong
  · exact prepared

/-- A vote carries no body. -/
theorem Justified.vote_body {history : List Event} {m : Message}
    (justified : Justified history m) (vote : m.mtype ≠ .preprepare) : m.body = "" := by
  rcases justified with ⟨type, -⟩ | ⟨-, body, -⟩ | ⟨-, body, -⟩
  · exact absurd type vote
  · exact body
  · exact body

/-- Every broadcast was made by the replica whose id it carries, and justified by it. -/
theorem sent_justified (reached : Reach (step c conf) guard (init conf) w) {m : Message}
    (sent : m ∈ w.sent) :
    m.replicaId < conf.n ∧ Did w.history m.replicaId (.sendMessage m) ∧
      Justified w.history m := by
  induction reached with
  | start => simp [init] at sent
  | @step before after label reached _ taken ih =>
    obtain ⟨j, source, h, effects, bound, rfl, ran⟩ := step_cases taken
    obtain ⟨call, ran⟩ := ran.call
    rcases (mem_record_sent ..).mp sent with old | new
    · -- reports are never taken back
      obtain ⟨known, did, justified⟩ := ih old
      refine ⟨known, (did_record ..).mpr (Or.inr did), ?_⟩
      rcases justified with ⟨type, req, did, body⟩ | ⟨type, body, b, did⟩ | ⟨type, body, did⟩
      · exact Or.inl ⟨type, req, (did_record ..).mpr (Or.inr did), body⟩
      · exact Or.inr (Or.inl ⟨type, body, b, (did_record ..).mpr (Or.inr did)⟩)
      · exact Or.inr (Or.inr ⟨type, body, (did_record ..).mpr (Or.inr did)⟩)
    · -- the sender signs with its own id and reports in the same event
      obtain ⟨sender, reports⟩ := call_broadcast ran new
      have own : j = m.replicaId := by
        rw [sender]
        exact (settings_kept reached j).id.symm
      refine ⟨own ▸ bound, (did_record ..).mpr (Or.inl ⟨own, new⟩), ?_⟩
      rcases reports with ⟨type, req, did, body⟩ | ⟨type, body, b, did⟩ | ⟨type, body, did⟩
      · exact Or.inl ⟨type, req, (did_record ..).mpr (Or.inl ⟨own, did⟩), body⟩
      · exact Or.inr (Or.inl ⟨type, body, b, (did_record ..).mpr (Or.inl ⟨own, did⟩)⟩)
      · exact Or.inr (Or.inr ⟨type, body, (did_record ..).mpr (Or.inl ⟨own, did⟩)⟩)

/-- Every broadcast passes the check of its receivers. -/
theorem sent_valid (reached : Reach (step c conf) guard (init conf) w) {m : Message}
    (sent : m ∈ w.sent) : m.checkSignature c = .ok true := by
  have valid : ∀ m ∈ w.sent, m.checkSignature c = .ok true := by
    apply reached.invariant (P := fun w => ∀ m ∈ w.sent, m.checkSignature c = .ok true)
    · simp [init]
    · intro w a w' _ valid _ taken m sent
      obtain ⟨j, source, h, effects, -, rfl, ran⟩ := step_cases taken
      obtain ⟨call, ran⟩ := ran.call
      rcases (mem_record_sent ..).mp sent with old | new
      · exact valid m old
      · obtain ⟨h₁, m₁, signed⟩ := call_signed ran new
        exact sign_valid signed
  exact valid m sent

end Ruccoin.Pbft.World
