import Ruccoin.Coin.Postings
import Ruccoin.Deployment.Freshness
import Ruccoin.Foundation.ReplicatedLog
import Ruccoin.Pbft.SingleProposer

/-!
# The deployment as a replicated log

The requests that the primary has numbered are a log, and the replicas apply its entries,
each at most once, in whatever order their quorums complete. Every coin node is what
committing the entries applied by its replica makes of the node it started as, up to where
that stops. So the ledgers of two replicas that have not stopped differ by the entries that
only one of them has applied.
-/

namespace Ruccoin

open Pbft Coin Transition

namespace Pbft.World

variable {c : Crypto} {conf : Config} {w w' : World}

/-! ### The requests that were numbered -/

def Effect.numberedRequest : Effect → Option Request
  | .numbered _ req => some req
  | _ => none

/-- The requests that replica `i` has numbered, in order. -/
def requests (history : List Event) (i : Nat) : List Request :=
  history.reverse.flatMap fun e =>
    if e.replica = i then e.effects.filterMap Effect.numberedRequest else []

theorem requests_record (w : World) (j : Nat) (source : Option Nat) (h : PBFTHandler)
    (effects : List Effect) (i : Nat) :
    requests (w.record j source h effects).history i = requests w.history i ++
      if j = i then effects.filterMap Effect.numberedRequest else [] := by
  simp [requests, record]

/-- A call reports the request that it numbers and no other. -/
theorem call_requests {h h' : PBFTHandler} {call : Call} {effects : List Effect}
    (ran : h.call c call = .ok (h', effects)) :
    (∃ req, call = .getRequest req ∧ effects.filterMap Effect.numberedRequest = [req]) ∨
      (call.requests = 0 ∧ effects.filterMap Effect.numberedRequest = []) := by
  have quiet : call.requests = 0 → effects.filterMap Effect.numberedRequest = [] := by
    intro none
    refine List.filterMap_eq_nil_iff.mpr fun e member => ?_
    cases e with
    | numbered s req =>
      obtain ⟨rfl, -⟩ := (PBFTHandler.call_numbered ran s req).mp member
      cases none
    | _ => rfl
  cases call with
  | getRequest req =>
    obtain ⟨-, sm, -, -, -, -, rfl⟩ := PBFTHandler.preprepare_cases ran
    exact Or.inl ⟨req, rfl, rfl⟩
  | prepare | commit | reply => exact Or.inr ⟨rfl, quiet rfl⟩

/-- The requests are listed by their numbers. -/
theorem numbers_requests {guard : World → Label → Prop}
    (reached : Reach (step c conf) guard (init conf) w) (i : Nat) :
    w.Numbers i (requests w.history i) := by
  apply reached.invariant (P := fun w => w.Numbers i (requests w.history i))
  · constructor <;> simp [init, PBFTHandler.init, requests, Did]
  · intro w a w' _ numbers _ taken
    obtain ⟨j, source, h, effects, -, rfl, ran⟩ := step_cases taken
    obtain ⟨call, called⟩ := ran.call
    rw [requests_record]
    by_cases here : j = i
    · subst here
      rw [if_pos rfl]
      rcases call_requests called with ⟨req, rfl, listed⟩ | ⟨none, listed⟩
      · rw [listed]
        exact numbers.request called
      · rw [listed, List.append_nil]
        exact numbers.quiet call none called
    · rw [if_neg here, List.append_nil]
      exact numbers.other here

/-- What a replica executes under a number is the body of the primary's request with it. -/
theorem executed_request (reached : Reach (step c conf) (Benign conf) (init conf) w)
    {i s : Nat} {b : String} (executed : Did w.history i (.commitAction s b)) :
    ((requests w.history conf.pbftPrimary).map Request.body)[s]? = some b := by
  obtain ⟨req, did, rfl⟩ := executed_primary (Benign.trusted reached) executed
  rw [List.getElem?_map, ((numbers_requests reached _).numbered s req).mp did]
  rfl

/-! ### The log -/

/-- The log that the replicas work off. -/
def log (conf : Config) (w : World) : ReplicatedLog String where
  entries := (requests w.history conf.pbftPrimary).map Request.body
  applied i := (executions w.history i).map Prod.fst

/-- A delivery numbers no request. -/
theorem Ran.unnumbered {a : Label} {i k : Nat} {h : PBFTHandler} {effects : List Effect}
    (ran : Ran c w a i (some k) h effects) :
    effects.filterMap Effect.numberedRequest = [] := by
  have quiet : ∀ call : Call, call.requests = 0 →
      (w.replicas i).call c call = .ok (h, effects) →
      effects.filterMap Effect.numberedRequest = [] := by
    intro call none called
    rcases call_requests called with ⟨req, rfl, -⟩ | ⟨-, listed⟩
    · cases none
    · exact listed
  obtain ⟨m, master, -, -, runs⟩ := ran.delivers
  rcases runs with ⟨-, ran⟩ | ⟨-, ran⟩ | ⟨-, ran⟩
  · exact quiet (.prepare master m) rfl ran
  · exact quiet (.commit m) rfl ran
  · exact quiet (.reply m) rfl ran

/-- A call that executes nothing applies nothing. -/
theorem log_silent {i : Nat} {source : Option Nat} {h : PBFTHandler} {effects : List Effect}
    (silent : ∀ s b, .commitAction s b ∉ effects) :
    (log conf (w.record i source h effects)).applied = (log conf w).applied := by
  have nothing : effects.filterMap Effect.execution = [] := by
    rw [List.eq_nil_iff_forall_not_mem]
    rintro ⟨s, b⟩ member
    exact silent s b (mem_execution.mp member)
  funext j
  change (executions _ j).map Prod.fst = (executions w.history j).map Prod.fst
  rw [executions_record, nothing, ite_self, List.append_nil]

/-- An execution is applied by its replica. -/
theorem log_executes {i s : Nat} {source : Option Nat} {h : PBFTHandler} {b : String} :
    (log conf (w.record i source h [.commitAction s b])).applied =
      Function.update (log conf w).applied i ((log conf w).applied i ++ [s]) := by
  funext j
  change (executions _ j).map Prod.fst = _
  rw [executions_record, Function.update_apply, List.map_append]
  by_cases here : i = j
  · rw [if_pos here, if_pos here.symm, here]
    rfl
  · rw [if_neg here, if_neg (Ne.symm here), List.map_nil, List.append_nil]
    rfl

/-- A fault-free step appends an entry, applies one, or does not show. -/
theorem log_step {a : Label} (reached : Reach (step c conf) (Benign conf) (init conf) w)
    (allowed : w.Benign conf a) (taken : step c conf w a = some w') :
    log conf w' = log conf w ∨ ∃ m, ReplicatedLog.step (log conf w) m = some (log conf w') := by
  have reached' := reached.step allowed taken
  obtain ⟨i, source, h, effects, -, rfl, ran⟩ := step_cases taken
  cases source with
  | none =>
    -- a request, which the primary numbers
    obtain ⟨req, rfl, called⟩ := ran.requests allowed.1
    obtain rfl : i = conf.pbftPrimary := allowed.2.1
    obtain ⟨-, sm, -, -, -, -, rfl⟩ := PBFTHandler.preprepare_cases called
    let effects : List Effect :=
      [.numbered (w.replicas conf.pbftPrimary).nextProposalSeq req, .sendMessage sm]
    have applied : (log conf (w.record conf.pbftPrimary none h effects)).applied =
        (log conf w).applied := log_silent (by simp [effects])
    have entries : (log conf (w.record conf.pbftPrimary none h effects)).entries =
        (log conf w).entries ++ [req.body] := by
      simp [log, requests_record, effects, Effect.numberedRequest]
    refine Or.inr ⟨.append req.body, ?_⟩
    rw [ReplicatedLog.step, ← entries, ← applied]
  | some k =>
    obtain ⟨call, called⟩ := ran.call
    have entries : (log conf (w.record i (some k) h effects)).entries = (log conf w).entries := by
      simp only [log, requests_record, ran.unnumbered, ite_self, List.append_nil]
    by_cases executes : ∃ s b, .commitAction s b ∈ effects
    · obtain ⟨s, b, reported⟩ := executes
      obtain ⟨m, -, -, rfl⟩ := PBFTHandler.call_commitAction called reported
      have below : s < (log conf w).entries.length := by
        have listed := executed_request reached' ((did_record ..).mpr (Or.inl ⟨rfl, reported⟩))
        rw [← entries]
        exact (List.getElem?_eq_some_iff.mp listed).1
      have fresh : s ∉ (log conf w).applied i := by
        intro member
        have committed := (committed_iff_executed reached i s).mpr member
        rw [((PBFTHandler.call_flags called s).commitAction b reported).1] at committed
        cases committed
      refine Or.inr ⟨.apply i s, ?_⟩
      rw [ReplicatedLog.step, if_pos ⟨below, fresh⟩, ← log_executes, ← entries]
    · have silent : ∀ s b, .commitAction s b ∉ effects := fun s b reported =>
        executes ⟨s, b, reported⟩
      have applied : (log conf (w.record i (some k) h effects)).applied = (log conf w).applied :=
        log_silent silent
      left
      change ReplicatedLog.mk (log conf (w.record i (some k) h effects)).entries
        (log conf (w.record i (some k) h effects)).applied = log conf w
      rw [entries, applied]

/-- Fault-free replicas work off one log. -/
theorem log_reached (reached : Reach (step c conf) (Benign conf) (init conf) w) :
    (log conf w).Reachable := by
  refine reached.map (log conf) fun w a w' reached allowed taken => ?_
  rcases log_step reached allowed taken with same | ⟨m, appended⟩
  · exact Or.inl same
  · exact Or.inr ⟨m, trivial, appended⟩

/-- What a replica has executed are the entries that it has applied. -/
theorem replay_log (reached : Reach (step c conf) (Benign conf) (init conf) w) (i : Nat) :
    (log conf w).replay i = (executions w.history i).map Prod.snd := by
  have listed : ∀ e ∈ executions w.history i, (log conf w).entries[e.1]? = some e.2 :=
    fun e member => executed_request reached (mem_executions.mp member)
  change ((executions w.history i).map Prod.fst).filterMap ((log conf w).entries[·]?) = _
  generalize executions w.history i = executed at listed ⊢
  induction executed with
  | nil => rfl
  | cons e executed ih =>
    rw [List.map_cons, List.filterMap_cons, listed e List.mem_cons_self, List.map_cons]
    rw [ih fun e' member => listed e' (List.mem_cons_of_mem e member)]

end Pbft.World

/-! ### The ledgers -/

namespace Coin

/-- What the transactions of a proposal add to the accounts; nothing if it is no block. -/
def bodyEntries (env : Env) (p : String) : List (String × Amount) :=
  match env.parseBlock p with
  | .ok block => block.transxList.flatMap TX.entries
  | .error _ => []

/-- Proposals that were all committed are blocks between existing accounts. -/
theorem CoinNode.named_of_returned {env : Env} {node : CoinNode} {ps : List String}
    (returned : (node.commitAll env ps).fault = none) :
    Named env.amounts node.balances (transactions env ps) ∧
      (transactions env ps).flatMap TX.entries = ps.flatMap (bodyEntries env) := by
  induction ps generalizing node with
  | nil => exact ⟨fun tx => nofun, rfl⟩
  | cons p ps ih =>
    rw [commitAll_cons] at returned
    cases parsed : env.parseBlock p with
    | error e =>
      rw [commitProposal_of_error node parsed, Outcome.andThen_of_some rfl] at returned
      cases returned
    | ok block =>
      obtain ⟨fault, balances, -⟩ := commitProposal_of_parsed node parsed
      have done : (commitProposal env node p).fault = none := by
        by_contra stopped
        rw [Outcome.andThen_of_stopped stopped] at returned
        exact stopped returned
      rw [Outcome.andThen_of_none done] at returned
      obtain ⟨later, entries⟩ := ih returned
      have here := updateBlance_returns_iff.mp (fault.symm.trans done)
      have body : bodyEntries env p = block.transxList.flatMap TX.entries := by
        rw [bodyEntries, parsed]
      simp only [transactions, parsed]
      refine ⟨fun tx member => ?_, ?_⟩
      · rcases List.mem_append.mp member with first | rest
        · exact here tx first
        · -- the same accounts are there after the block
          have named := later tx rest
          rw [balances, (updateBlance_settled ..).holds_iff,
            (updateBlance_settled ..).holds_iff] at named
          exact named
      · rw [List.flatMap_append, List.flatMap_cons, body, entries]

/-- They have posted all their entries. -/
theorem CoinNode.posts_of_returned {env : Env} {node : CoinNode} {ps : List String}
    (returned : (node.commitAll env ps).fault = none) :
    posts env.amounts node.balances (transactions env ps) = ps.flatMap (bodyEntries env) := by
  obtain ⟨named, entries⟩ := named_of_returned returned
  rw [posts_of_named named, entries]

end Coin

namespace Deployment

section Replication

variable {D : Type} [Add D] [Sub D] [LT D] [DecidableLT D] [Double D]
  {env : Env D} {conf : Config} {d : Deployment D} {node : CoinNode D}

theorem benign_world (reached : Reach (step env conf) (Benign conf) (init conf node) d) :
    Reach (World.step env.crypto conf) (World.Benign conf) (World.init conf) d.world :=
  world_reached (fun _ _ allowed => allowed) reached

/-- A coin node is what the entries applied by its replica make of the node it started as. -/
theorem replayed_log (reached : Reach (step env conf) (Benign conf) (init conf node) d) (i : Nat) :
    (node.commitAll env ((World.log conf d.world).replay i)).fault = d.stopped i ∧
      (d.nodes i).toChainState =
        (node.commitAll env ((World.log conf d.world).replay i)).state.toChainState := by
  rw [World.replay_log (benign_world reached)]
  obtain ⟨fault, state⟩ := replayed reached i
  exact ⟨fault, state⟩

/-- Without faulty replicas the deployment replicates one log: every PBFT process works off
the requests of the primary, and every coin node has the balances and the chain that the
entries applied by its replica make, one after the other, of the node it started as. A coin
node is gone when one of them stops, and it has what was done by then. -/
theorem replicates (reached : Reach (step env conf) (Benign conf) (init conf node) d) :
    (World.log conf d.world).Reachable ∧
      ∀ i, (node.commitAll env ((World.log conf d.world).replay i)).fault = d.stopped i ∧
        (d.nodes i).toChainState =
          (node.commitAll env ((World.log conf d.world).replay i)).state.toChainState :=
  ⟨World.log_reached (benign_world reached), fun i => replayed_log reached i⟩

/-- SHA-256 of what is signed in two payments of 5 coins, the second to an account that does
not exist. -/
def halvedDigests : List (String × String) :=
  [("104a04b5", "25b45004beb9891ef2a6d187c8025f3881bdb63e562c5124372bf036771ca4b4"),
    ("204a04c5", "4c401cddb0c48cde5e8eb15a6c2353fae1d9e63d5110e5c5b0d1ef447e39c201")]

def halvedPayment (timeStamp : UInt64) (toAddr : String) : TX :=
  let tx : TX := { timeStamp, fromAddr := "04a", toAddr, value := 5000000, signature := "" }
  { tx with signature :=
      tx.calSignature (sampleCryptoWith halvedDigests) sampleAmountText "a" }

def halvedBlock : Block :=
  sampleBlock 1 "genesis" "h1" [halvedPayment 1 "04b", halvedPayment 2 "04c"]

def halvedEnv : Env :=
  { sampleEnv [halvedBlock] with
    crypto := sampleCryptoWith (sampleDigests ++ halvedDigests ++ [(text halvedBlock,
      "0e04358c72b0badf82a15842431bd3f532e076b8594a7e0f47522de26fedbbe9")]) }

/-- The block is accepted, and replica 0 gets as far as the first payment. -/
def halfway : List Label :=
  [.request 0 ⟨0, 1, text halvedBlock⟩, .deliver 0 0, .deliver 0 1, .deliver 1 0, .deliver 1 1,
    .deliver 3 0]

theorem replicates_halfway :
    ∃ d, exec (step halvedEnv (sampleConfig 2)) (init (sampleConfig 2) sampleNode) halfway =
        some d ∧
      ((World.log (sampleConfig 2) d.world).replay 0 = [text halvedBlock] ∧
        d.stopped 0 = some .assertFailed ∧
        balance sampleAmountText (d.nodes 0).balances "04a" = some 5000000 ∧
        balance sampleAmountText (d.nodes 0).balances "04b" = some 5000000 ∧
        (d.nodes 0).blockChainHash = ["genesis"]) ∧
      (d.nodes 0).toChainState = (sampleNode.commitAll halvedEnv
        ((World.log (sampleConfig 2) d.world).replay 0)).state.toChainState := by
  obtain ⟨d, ran, stopped⟩ := exec_of_run (step halvedEnv (sampleConfig 2))
    (init (sampleConfig 2) sampleNode) halfway
    (p := fun d => decide ((World.log (sampleConfig 2) d.world).replay 0 = [text halvedBlock] ∧
      d.stopped 0 = some .assertFailed ∧
      balance sampleAmountText (d.nodes 0).balances "04a" = some 5000000 ∧
      balance sampleAmountText (d.nodes 0).balances "04b" = some 5000000 ∧
      (d.nodes 0).blockChainHash = ["genesis"])) (by decide +kernel)
  have benign : Meets (step halvedEnv (sampleConfig 2)) (Benign (sampleConfig 2))
      (init (sampleConfig 2) sampleNode) halfway := by decide +kernel
  obtain ⟨-, replayed⟩ := replicates (reach_of_exec benign ran)
  exact ⟨d, ran, of_decide_eq_true stopped, (replayed 0).2⟩

end Replication

variable {env : Env} {conf : Config} {d : Deployment} {node : CoinNode}

/-- What a proposal adds to an account. -/
def bodyMoved (env : Env) (a p : String) : Amount := Ledger.moved (bodyEntries env p) a

/-- An account has what it started with and what the applied entries add to it. -/
theorem balance_replay (reached : Reach (step env conf) (Benign conf) (init conf node) d)
    {i : Nat} (running : d.stopped i = none) (a : String) :
    balance env.amounts (d.nodes i).balances a = (balance env.amounts node.balances a).map
      (· + (((World.log conf d.world).replay i).map (bodyMoved env a)).sum) := by
  obtain ⟨fault, state⟩ := replayed_log reached i
  rw [congrArg ChainState.balances state, (CoinNode.commitAll_posted env node _).balance_eq,
    CoinNode.posts_of_returned (fault.trans running), Ledger.moved_flatMap]
  rfl

/-- Two coin nodes that have not stopped differ, account by account, by exactly the proposals
that one replica has applied and the other has not, in whatever orders they applied them. -/
theorem ledgers_differ (reached : Reach (step env conf) (Benign conf) (init conf node) d)
    {i j : Nat} (running : d.stopped i = none) (running' : d.stopped j = none) (a : String) :
    let log := World.log conf d.world
    (balance env.amounts (d.nodes i).balances a).map
        (· + ∑ k ∈ log.ahead i j, log.weight (bodyMoved env a) k) =
      (balance env.amounts (d.nodes j).balances a).map
        (· + ∑ k ∈ log.ahead j i, log.weight (bodyMoved env a) k) := by
  intro log
  have sound := ReplicatedLog.sound (World.log_reached (benign_world reached))
  rw [balance_replay reached running, balance_replay reached running']
  cases balance env.amounts node.balances a with
  | none => rfl
  | some v =>
    have same := ReplicatedLog.sum_replay_ahead (bodyMoved env a) sound i j
    simp only [Option.map_some, add_assoc]
    rw [same]

/-- Replica 0 has applied both payments of the account and replica 1 none. -/
theorem ledgers_differ_overlapping :
    ∃ d, exec (step deployedEnv (sampleConfig 2)) (init (sampleConfig 2) sampleNode) overlapping =
        some d ∧
      (World.log (sampleConfig 2) d.world).ahead 1 0 = {0, 1} ∧
      (balance deployedEnv.amounts (d.nodes 1).balances "04a").map
          (· + ∑ k ∈ (World.log (sampleConfig 2) d.world).ahead 1 0,
            (World.log (sampleConfig 2) d.world).weight (bodyMoved deployedEnv "04a") k) =
        (balance deployedEnv.amounts (d.nodes 0).balances "04a").map
          (· + ∑ k ∈ (World.log (sampleConfig 2) d.world).ahead 0 1,
            (World.log (sampleConfig 2) d.world).weight (bodyMoved deployedEnv "04a") k) := by
  obtain ⟨d, ran, applied⟩ := exec_of_run (step deployedEnv (sampleConfig 2))
    (init (sampleConfig 2) sampleNode) overlapping
    (p := fun d => decide ((World.log (sampleConfig 2) d.world).ahead 1 0 = {0, 1} ∧
      d.stopped 0 = none ∧ d.stopped 1 = none)) (by decide +kernel)
  have benign : Meets (step deployedEnv (sampleConfig 2)) (Benign (sampleConfig 2))
      (init (sampleConfig 2) sampleNode) overlapping := by decide +kernel
  obtain ⟨both, running, running'⟩ := of_decide_eq_true applied
  exact ⟨d, ran, both, ledgers_differ (reach_of_exec benign ran) running' running "04a"⟩

end Deployment

end Ruccoin
