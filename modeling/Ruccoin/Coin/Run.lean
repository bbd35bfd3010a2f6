import Ruccoin.Coin.Packing
import Ruccoin.Foundation.Result
import Ruccoin.Foundation.Transition

/-!
# Runs of a coin node

A node takes `AddTransx`, `PackBlock` and `CommitProposal` calls in any order. Beside the
node, a run records what the calls have done. A call that does not return, because an
assertion fails or an exception leaves it, ends the process; what it had written by then
stays in the database.
-/

namespace Ruccoin.Coin

variable {D : Type}

/-! ### The calls and what they leave behind -/

/-- The calls a node serves. `PackBlock` is given the random texts it draws. -/
inductive NodeCall (D : Type := Amount) where
  | addTransx (tx : TX D)
  | packBlock (random merkle : String)
  | commitProposal (p : String)
deriving DecidableEq

/-- A node and the record of its run. -/
structure NodeRun (D : Type := Amount) where
  node : PackingNode D
  /-- A call has ended the process. -/
  aborted : Bool
  /-- The transactions for which `AddTransx` returned `true`. -/
  accepted : List (TX D)
  /-- The blocks whose `CommitProposal` call returned. -/
  committed : List (Block D)
  /-- The transactions applied to the balances, in order. -/
  applied : List (TX D)
  /-- Every file that has been in the directory of the chain. -/
  files : List BlockFile

namespace NodeRun

def start (node : PackingNode D) : NodeRun D where
  node := node
  aborted := false
  accepted := []
  committed := []
  applied := []
  files := node.blockchain

section Checked

variable [Sub D] [LT D] [DecidableLT D] [Double D]

/-- Every block is committed on a state on which `CheckProposal` has just accepted it. -/
def Checked (env : Env D) (r : NodeRun D) : NodeCall D → Prop
  | .commitProposal p => r.node.checkProposal env p = .ok true
  | _ => True

instance (env : Env D) (r : NodeRun D) : ∀ call, Decidable (Checked env r call)
  | .commitProposal p => inferInstanceAs (Decidable (r.node.checkProposal env p = .ok true))
  | .addTransx _ => inferInstanceAs (Decidable True)
  | .packBlock _ _ => inferInstanceAs (Decidable True)

theorem checked_block {env : Env D} {r : NodeRun D} {p : String}
    (checked : Checked env r (.commitProposal p)) :
    ∃ block, env.parseBlock p = .ok block ∧ r.node.checkBlock env block = .ok true :=
  Result.bind_ok.mp checked

end Checked

variable [Add D] [Sub D] [Double D]

/-- One call, with its place in the record. -/
def perform (env : Env D) (r : NodeRun D) : NodeCall D → NodeRun D
  | .addTransx tx =>
    let result := r.node.toCoinNode.addTransx env tx
    { r with
      node := { r.node with toCoinNode := result.1 }
      accepted := if result.2 then r.accepted ++ [tx] else r.accepted }
  | .packBlock random merkle =>
    let outcome := r.node.packBlock env random merkle
    { r with node := outcome.state, aborted := outcome.fault.isSome }
  | .commitProposal p =>
    let outcome := r.node.toCoinNode.commitProposal env p
    { node := { r.node with toCoinNode := outcome.state }
      aborted := outcome.fault.isSome
      accepted := r.accepted
      committed := match env.parseBlock p, outcome.fault with
        | .ok block, none => r.committed ++ [block]
        | _, _ => r.committed
      applied := match env.parseBlock p with
        | .ok block => r.applied ++ Coin.applied env.amounts r.node.balances block.transxList
        | .error _ => r.applied
      files := r.files ++ outcome.state.blockchain }

/-- No call is served after the process has ended. -/
def step (env : Env D) (r : NodeRun D) (call : NodeCall D) : Option (NodeRun D) :=
  if r.aborted then none else some (r.perform env call)

/-! ### What one call does -/

variable {env : Env D} {r r' : NodeRun D} {p : String} {block : Block D}

theorem step_perform {call : NodeCall D} (taken : step env r call = some r') :
    r' = r.perform env call := by
  unfold step at taken
  split at taken
  · cases taken
  · exact (Option.some.inj taken).symm

/-- A transaction that validates is reported as accepted and offered to the pool. -/
theorem perform_addTransx (env : Env D) (r : NodeRun D) (tx : TX D) :
    r.perform env (.addTransx tx) =
      if tx.validateSignature env.crypto env.amounts = true then
        { r with
          node := { r.node with txPool := r.node.txPool.insert tx }
          accepted := r.accepted ++ [tx] }
      else r := by
  cases valid : tx.validateSignature env.crypto env.amounts with
  | false => simp [perform, CoinNode.addTransx, valid]
  | true => simp [perform, CoinNode.addTransx, valid]

/-- Packing a block leaves all of the record alone, and of the node what is not the block. -/
theorem perform_packBlock (env : Env D) (r : NodeRun D) (random merkle : String) :
    let outcome := r.node.packBlock env random merkle
    r.perform env (.packBlock random merkle) =
      { r with
        node := { r.node with onPackingBlock := outcome.state.onPackingBlock }
        aborted := outcome.fault.isSome } := by
  intro outcome
  have frame : outcome.state = _ := r.node.packBlock_frame env random merkle
  rw [← frame]
  rfl

/-- A proposal that cannot be parsed is an exception before anything is done. -/
theorem commit_unparsed {e : Fault} (unparsed : env.parseBlock p = .error e) :
    r.perform env (.commitProposal p) =
      { r with
        aborted := true
        files := r.files ++ r.node.blockchain } := by
  have raised := CoinNode.commitProposal_of_error r.node.toCoinNode unparsed
  simp [perform, raised, unparsed]

/-- What a call of `CommitProposal` that returns leaves behind. -/
structure Returned (env : Env D) (r r' : NodeRun D) (block : Block D) : Prop where
  txPool : r'.node.txPool = block.transxList.foldl TxPool.erase r.node.txPool
  blockChainHash : r'.node.blockChainHash = r.node.blockChainHash ++ [block.header.hash]
  blockchain : r'.node.blockchain = writeBlock env r.node.blockchain block
  accepted : r'.accepted = r.accepted
  committed : r'.committed = r.committed ++ [block]
  applied : r'.applied = r.applied ++ block.transxList
  files : r'.files = r.files ++ writeBlock env r.node.blockchain block

/-- What a call that `UpdateBlance` did not get through leaves behind. -/
structure Stopped (env : Env D) (r r' : NodeRun D) (block : Block D) : Prop where
  aborted : r'.aborted = true
  txPool : r'.node.txPool = r.node.txPool
  blockChainHash : r'.node.blockChainHash = r.node.blockChainHash
  blockchain : r'.node.blockchain = r.node.blockchain
  accepted : r'.accepted = r.accepted
  committed : r'.committed = r.committed
  applied : r'.applied = r.applied ++ Coin.applied env.amounts r.node.balances block.transxList
  files : r'.files = r.files ++ r.node.blockchain

theorem commit_returned (parsed : env.parseBlock p = .ok block)
    (named : Named env.amounts r.node.balances block.transxList) :
    Returned env r (r.perform env (.commitProposal p)) block := by
  have returned := updateBlance_returns_iff.mpr named
  have all := applied_of_named named
  unfold perform CoinNode.commitProposal
  simp only [parsed, returned, all]
  exact ⟨rfl, rfl, rfl, rfl, rfl, rfl, rfl⟩

theorem commit_stopped (parsed : env.parseBlock p = .ok block)
    (unnamed : ¬Named env.amounts r.node.balances block.transxList) :
    Stopped env r (r.perform env (.commitProposal p)) block := by
  obtain ⟨e, stopped⟩ := Option.ne_none_iff_exists'.mp
    fun returned => unnamed (updateBlance_returns_iff.mp returned)
  unfold perform CoinNode.commitProposal
  simp only [parsed, stopped]
  exact ⟨rfl, rfl, rfl, rfl, rfl, rfl, rfl, rfl⟩

end NodeRun

end Ruccoin.Coin
