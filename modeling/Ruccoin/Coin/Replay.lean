import Ruccoin.Coin.Run

/-!
# Replayed transactions

`CheckBlock` does not ask whether a transaction has been applied before, and `AddTransx`
takes it into the pool again. A transaction is therefore applied as often as the committed
blocks list it, and only what is given to the two calls can exclude a replay: the pool does
when every committed block is taken from it and no applied transaction is offered again.
-/

namespace Ruccoin.Coin

namespace NodeRun

open Transition

variable {D : Type} [Add D] [Sub D] [Double D]

/-- The balances are those of the store `s` with the recorded transactions settled, and none
of these has been applied twice. -/
structure NoReplay (env : Env D) (s : Store) (r : NodeRun D) : Prop where
  settled : Settled env.amounts s r.node.balances r.applied
  distinct : r.applied.Nodup

/-- No applied transaction is offered to the pool again, and the blocks are made of distinct
transactions of the pool. -/
def FromPool (env : Env D) (r : NodeRun D) : NodeCall D → Prop
  | .addTransx tx => tx ∉ r.applied
  | .packBlock _ _ => True
  | .commitProposal p => Result.Returns (env.parseBlock p) fun block =>
      block.transxList.Nodup ∧ ∀ tx ∈ block.transxList, tx ∈ r.node.txPool.txs

instance [DecidableEq D] (env : Env D) (r : NodeRun D) : ∀ call, Decidable (FromPool env r call)
  | .commitProposal _ => inferInstanceAs (Decidable (Result.Returns _ _))
  | .addTransx tx => inferInstanceAs (Decidable (tx ∉ r.applied))
  | .packBlock _ _ => inferInstanceAs (Decidable True)

variable {env : Env D} {s : Store} {r r' : NodeRun D}

/-- A block extends the record by what is applied of it. -/
theorem commit_applied {p : String} {block : Block D} (parsed : env.parseBlock p = .ok block) :
    (r.perform env (.commitProposal p)).applied =
      r.applied ++ Coin.applied env.amounts r.node.balances block.transxList := by
  unfold perform
  simp only [parsed]

/-- The record says what has become of the balances. -/
theorem settled_step {call : NodeCall D}
    (before : Settled env.amounts s r.node.balances r.applied)
    (taken : step env r call = some r') :
    Settled env.amounts s r'.node.balances r'.applied := by
  rw [step_perform taken]
  cases call with
  | addTransx tx =>
    rw [perform_addTransx]
    split <;> exact before
  | packBlock random merkle =>
    rw [perform_packBlock]
    exact before
  | commitProposal p =>
    cases parsed : env.parseBlock p with
    | error e =>
      rw [commit_unparsed parsed]
      exact before
    | ok block =>
      have balances : (r.perform env (.commitProposal p)).node.balances = _ :=
        (CoinNode.commitProposal_of_parsed r.node.toCoinNode parsed).2.1
      rw [commit_applied parsed, balances]
      exact before.trans (updateBlance_settled r.node.balances block.transxList)

theorem settled_of_exec {node : PackingNode D} {run : List (NodeCall D)}
    (ran : exec (step env) (start node) run = some r) :
    Settled env.amounts node.balances r.node.balances r.applied := by
  have kept : Always (step env)
      (fun r => Settled env.amounts node.balances r.node.balances r.applied) (start node) run :=
    always_of_kept (.refl env.amounts node.balances) (fun _ _ _ before _ => settled_step before)
      (meets_true (start node) run)
  exact kept.last ran

/-- Nothing has been applied twice, and while the node runs nothing in the pool has been
applied. -/
structure Unspent (env : Env D) (s : Store) (r : NodeRun D) : Prop where
  noReplay : NoReplay env s r
  pool : r.aborted = false → ∀ tx ∈ r.node.txPool.txs, tx ∉ r.applied

theorem unspent_step {call : NodeCall D} (before : Unspent env s r)
    (pooled : FromPool env r call) (taken : step env r call = some r') : Unspent env s r' := by
  have settled := settled_step before.noReplay.settled taken
  have running : r.aborted = false := by
    unfold step at taken
    split at taken
    · cases taken
    next running => simpa using running
  have unspent := before.pool running
  have distinct := before.noReplay.distinct
  rw [step_perform taken] at settled ⊢
  cases call with
  | addTransx tx =>
    rw [perform_addTransx] at settled ⊢
    split
    next valid =>
      rw [if_pos valid] at settled
      refine ⟨⟨settled, distinct⟩, fun _ u member => ?_⟩
      rcases TxPool.mem_insert.mp member with old | ⟨rfl, -⟩
      · exact unspent u old
      · exact pooled
    next => exact before
  | packBlock random merkle =>
    rw [perform_packBlock] at settled ⊢
    exact ⟨⟨settled, distinct⟩, fun _ => unspent⟩
  | commitProposal p =>
    cases parsed : env.parseBlock p with
    | error e =>
      rw [commit_unparsed parsed] at settled ⊢
      exact ⟨⟨settled, distinct⟩, fun _ => unspent⟩
    | ok block =>
      obtain ⟨once, listed⟩ := pooled block parsed
      have initial := applied_initial env.amounts r.node.balances block.transxList
      refine ⟨⟨settled, ?_⟩, fun goes u member => ?_⟩
      · -- what is applied of the block is new, and listed once
        rw [commit_applied parsed, List.nodup_append']
        exact ⟨distinct, once.sublist initial.sublist, fun tx old new =>
          unspent tx (listed tx (initial.subset new)) old⟩
      · by_cases named : Named env.amounts r.node.balances block.transxList
        · -- what the block lists has been taken out of the pool
          have done := commit_returned (r := r) parsed named
          rw [done.txPool, TxPool.mem_foldl_erase] at member
          obtain ⟨pending, apart⟩ := member
          rw [done.applied, List.mem_append, not_or]
          refine ⟨unspent u pending, fun new => ?_⟩
          exact (apart u new).elim u.not_before_self u.not_before_self
        · -- the call has ended the process
          rw [(commit_stopped (r := r) parsed named).aborted] at goes
          cases goes

/-- In a run whose committed blocks all list distinct transactions of the pool, and in which
no applied transaction is offered to the pool again, no transaction is applied to the
balances twice. -/
theorem no_replay {node : PackingNode D} {run : List (NodeCall D)}
    (pooled : Meets (step env) (FromPool env) (start node) run) :
    Always (step env) (NoReplay env node.balances) (start node) run := by
  have unspent : Unspent env node.balances (start node) :=
    ⟨⟨.refl env.amounts node.balances, List.nodup_nil⟩, fun _ _ _ => List.not_mem_nil⟩
  exact (always_of_kept unspent (fun _ _ _ => unspent_step) pooled).mono
    fun _ => Unspent.noReplay

/-- A payment and its return, each submitted before the block with it is committed. -/
def pooledBlocks : List Block :=
  [sampleBlock 1 "genesis" "h1" [samplePayment 1 "a" "04b"],
    sampleBlock 2 "h1" "h2" [samplePayment 3 "b" "04a"]]

def pooledRun : List NodeCall :=
  pooledBlocks.flatMap fun b =>
    b.transxList.map .addTransx ++
      [.commitProposal ((sampleEnv pooledBlocks).json.dump b.toJson)]

theorem no_replay_pooled :
    let env := sampleEnv pooledBlocks
    ∃ r, exec (step env) (start samplePackingNode) pooledRun = some r ∧
      r.applied = [samplePayment 1 "a" "04b", samplePayment 3 "b" "04a"] ∧
      Always (step env) (NoReplay env samplePackingNode.balances) (start samplePackingNode)
        pooledRun := by
  intro env
  obtain ⟨r, ran, applied⟩ := exec_of_run (step env) (start samplePackingNode) pooledRun
    (p := fun r => decide (r.applied = [samplePayment 1 "a" "04b", samplePayment 3 "b" "04a"]))
    (by decide +kernel)
  exact ⟨r, ran, of_decide_eq_true applied, no_replay (by decide +kernel)⟩

/-- The owner of 20 coins pays 10. -/
def replayedPayment : TX := samplePayment 1 "a" "04b"

/-- Two blocks with the same payment. -/
def replayingBlocks : List Block :=
  [sampleBlock 1 "genesis" "h1" [replayedPayment], sampleBlock 2 "h1" "h2" [replayedPayment]]

/-- The payment is submitted, committed, submitted again and committed again. -/
def replayingRun : List NodeCall :=
  (replayingBlocks.map fun b => (sampleEnv replayingBlocks).json.dump b.toJson).flatMap
    fun p => [.addTransx replayedPayment, .commitProposal p]

/-- Every check is passed, and the recipient ends with both payments. -/
theorem replayed :
    let env := sampleEnv replayingBlocks
    Meets (step env) (Checked env) (start samplePackingNode) replayingRun ∧
      ∃ r, exec (step env) (start samplePackingNode) replayingRun = some r ∧
        r.accepted = [replayedPayment, replayedPayment] ∧
        Settled env.amounts samplePackingNode.balances r.node.balances
          [replayedPayment, replayedPayment] ∧
        balance env.amounts samplePackingNode.balances "04b" = some 0 ∧
        balance env.amounts r.node.balances "04b" = some 20000000 ∧
        ¬NoReplay env samplePackingNode.balances r := by
  intro env
  refine ⟨by decide +kernel, ?_⟩
  obtain ⟨r, ran, ends⟩ := exec_of_run (step env) (start samplePackingNode) replayingRun
    (p := fun r => decide (r.accepted = [replayedPayment, replayedPayment] ∧
      r.applied = [replayedPayment, replayedPayment] ∧
      balance env.amounts r.node.balances "04b" = some 20000000)) (by decide +kernel)
  obtain ⟨accepted, applied, paid⟩ := of_decide_eq_true ends
  have settled := settled_of_exec ran
  rw [applied] at settled
  refine ⟨r, ran, accepted, settled, by decide +kernel, paid, fun once => ?_⟩
  have distinct := once.distinct
  rw [applied] at distinct
  exact absurd distinct (by decide +kernel)

end NodeRun

end Ruccoin.Coin
