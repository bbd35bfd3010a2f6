import Ruccoin.Coin.Check
import Ruccoin.Coin.Run

/-!
# Blocks received from other coin nodes

`AddBlock` calls `ReceiveBlock`, which checks a block against `block_chain_hash_` and appends
it to `block_chain_`. The tip that blocks are checked against stays, so that the same block
is applied again for as long as its senders can pay for it.
-/

namespace Ruccoin.Coin

/-- A coin node with the blocks it received. -/
structure ReceivingNode (D : Type := Amount) extends CoinNode D where
  blockChain : List (Block D)

variable {D : Type} [Add D] [Sub D] [LT D] [DecidableLT D] [Double D]

/-- `ReceiveBlock`, with what it returns. `block_chain_json_` is never set, so that
`WriteBlockChain` has no file to write to. -/
def ReceivingNode.receiveBlock (env : Env D) (node : ReceivingNode D) (block : Block D) :
    ReceivingNode D × Except Fault Bool :=
  match node.checkBlock env block with
  | .error e => (node, .error e)
  | .ok false => (node, .ok false)
  | .ok true =>
    let updated := updateBlance env.amounts node.balances block.transxList
    let node :=
      { node with blockChain := node.blockChain ++ [block], balances := updated.state }
    match updated.fault with
    | some e => (node, .error e)
    | none => (node, .ok true)

/-! ### One call -/

variable {env : Env D}

section Check

omit [Add D]

/-- A sender in the block has too little left for one of its transactions. -/
def Overspent (t : AmountText D) (s : Store) (txs : List (TX D)) : Prop :=
  ∃ i tx v, txs[i]? = some tx ∧ balance t s tx.fromAddr = some v ∧
    leftOver tx.fromAddr (txs.take i) v < tx.value

instance (t : AmountText D) (s : Store) (txs : List (TX D)) : Decidable (Overspent t s txs) :=
  decidable_of_iff (∃ i < txs.length, ∃ tx ∈ txs[i]?, ∃ v ∈ balance t s tx.fromAddr,
      leftOver tx.fromAddr (txs.take i) v < tx.value) (by
    constructor
    · rintro ⟨i, -, tx, here, v, read, short⟩
      exact ⟨i, tx, v, here, read, short⟩
    · rintro ⟨i, tx, v, here, read, short⟩
      exact ⟨i, (List.getElem?_eq_some_iff.mp here).1, tx, here, v, read, short⟩)

/-- The check throws only where the balance of a sender cannot be read. -/
theorem checkTransx_returns {balances : Store} {txs : List (TX D)}
    (senders : ∀ tx ∈ txs, Holds env.amounts balances tx.fromAddr)
    (tempBalance : TempBalance D) :
    ∃ accepted, ChainState.checkTransx env balances tempBalance txs = .ok accepted := by
  cases result : ChainState.checkTransx env balances tempBalance txs with
  | ok accepted => exact ⟨accepted, rfl⟩
  | error e =>
    obtain ⟨before, tx, after, rfl, -, -, -, unread⟩ := checkTransx_raises_iff.mp ⟨e, result⟩
    have holds := senders tx (by simp)
    -- an account that has not paid yet has its stored balance
    unfold remaining at unread
    split at unread
    · cases unread
    · rw [Holds, unread] at holds
      cases holds

/-- A block on the tip that validates and whose senders have balances is refused exactly
when one of them overspends. -/
theorem checkBlock_refuses_iff {st : ChainState} {block : Block D}
    (onTip : block.header.prevHash = st.tip)
    (valid : ∀ tx ∈ block.transxList, tx.validateSignature env.crypto env.amounts = true)
    (senders : ∀ tx ∈ block.transxList, Holds env.amounts st.balances tx.fromAddr) :
    st.checkBlock env block = .ok false ↔
      Overspent env.amounts st.balances block.transxList := by
  have accepted_iff : st.checkBlock env block = .ok true ↔
      ¬Overspent env.amounts st.balances block.transxList := by
    rw [checkBlock_iff_affordable]
    constructor
    · rintro ⟨-, -, -, covered⟩ ⟨i, tx, v, here, read, short⟩
      exact covered i tx v here read short
    · intro covered
      exact ⟨onTip, valid, senders, fun i tx v here read short =>
        covered ⟨i, tx, v, here, read, short⟩⟩
  obtain ⟨result, returned⟩ : ∃ result, st.checkBlock env block = .ok result := by
    unfold ChainState.checkBlock
    rw [if_neg (not_not.mpr onTip)]
    exact checkTransx_returns senders ∅
  rw [← not_iff_not, ← accepted_iff, returned]
  cases result <;> simp

end Check

/-- What the next call finds of a block that was accepted. -/
structure Repeatable (env : Env D) (st : ChainState) (block : Block D) : Prop where
  onTip : block.header.prevHash = st.tip
  valid : ∀ tx ∈ block.transxList, tx.validateSignature env.crypto env.amounts = true
  named : Named env.amounts st.balances block.transxList

namespace ReceivingNode

theorem receiveBlock_accepted {node : ReceivingNode D} {block : Block D}
    (accepted : (node.receiveBlock env block).2 = .ok true) :
    Repeatable env (node.receiveBlock env block).1.toChainState block := by
  unfold receiveBlock at accepted ⊢
  cases check : node.checkBlock env block with
  | error e => simp [check] at accepted
  | ok result =>
    cases result with
    | false => simp [check] at accepted
    | true =>
      obtain ⟨onTip, valid, -⟩ := (checkBlock_iff_affordable ..).mp check
      cases fault : (updateBlance env.amounts node.balances block.transxList).fault with
      | some e => simp [check, fault] at accepted
      | none =>
        have named := updateBlance_returns_iff.mp fault
        have settled := updateBlance_settled (t := env.amounts) node.balances block.transxList
        -- the balances have changed, and neither the accounts nor the tip
        simp only [fault]
        refine ⟨onTip, valid, fun tx member => ?_⟩
        rw [settled.holds_iff, settled.holds_iff]
        exact named tx member

/-- A repeated block is refused, and the balances stay, exactly when a sender overspends. -/
theorem receiveBlock_refused_iff {node : ReceivingNode D} {block : Block D}
    (repeatable : Repeatable env node.toChainState block) :
    (node.receiveBlock env block).2 = .ok false ∧
        (node.receiveBlock env block).1.balances = node.balances ↔
      Overspent env.amounts node.balances block.transxList := by
  rw [← checkBlock_refuses_iff repeatable.onTip repeatable.valid
    fun tx member => (repeatable.named tx member).1]
  unfold receiveBlock
  cases node.checkBlock env block with
  | error e => simp
  | ok result =>
    cases result with
    | false => simp
    | true =>
      -- every account is there, so that the update returns
      have returned := updateBlance_returns_iff.mpr repeatable.named
      simp [returned]

end ReceivingNode

/-! ### Sequences of calls -/

/-- A call that has ended. -/
structure Receipt (D : Type := Amount) where
  block : Block D
  returned : Except Fault Bool
  before : Store
  after : Store

/-- A node and the calls it has served. -/
structure ReceivingRun (D : Type := Amount) where
  node : ReceivingNode D
  /-- A call has ended the process. -/
  aborted : Bool
  receipts : List (Receipt D)

/-- A block is not applied right after it was accepted, unless it follows itself. -/
def Receipt.Once (first second : Receipt D) : Prop :=
  first.returned = .ok true → second.block = first.block →
    first.block.header.hash ≠ first.block.header.prevHash →
      second.returned = .ok false ∧ second.after = second.before

namespace ReceivingRun

open Transition

def start (node : ReceivingNode D) : ReceivingRun D where
  node := node
  aborted := false
  receipts := []

/-- `AddBlock`, up to the first call that does not return. -/
def step (env : Env D) (r : ReceivingRun D) (block : Block D) : Option (ReceivingRun D) :=
  if r.aborted then none
  else
    let result := r.node.receiveBlock env block
    some
      { node := result.1
        aborted := match result.2 with
          | .error _ => true
          | .ok _ => false
        receipts := r.receipts ++ [⟨block, result.2, r.node.balances, result.1.balances⟩] }

/-- No block was accepted twice in a row, and no repeated call changed the balances. -/
def AppliedOnce (r : ReceivingRun D) : Prop := r.receipts.IsChain Receipt.Once

/-- When the call repeats the block that was just accepted, a sender has too little left to
pay for it again. -/
def Exhausted (env : Env D) (r : ReceivingRun D) (block : Block D) : Prop :=
  ∀ last ∈ r.receipts.getLast?, last.returned = .ok true → block = last.block →
    block.header.hash ≠ block.header.prevHash →
      Overspent env.amounts r.node.balances block.transxList

instance [DecidableEq D] (env : Env D) (r : ReceivingRun D) (block : Block D) :
    Decidable (Exhausted env r block) :=
  inferInstanceAs (Decidable (∀ last ∈ r.receipts.getLast?, last.returned = .ok true →
    block = last.block → block.header.hash ≠ block.header.prevHash →
      Overspent env.amounts r.node.balances block.transxList))

variable {r r' : ReceivingRun D} {block : Block D}

theorem step_receipts (taken : step env r block = some r') :
    r'.node = (r.node.receiveBlock env block).1 ∧
      r'.receipts = r.receipts ++ [⟨block, (r.node.receiveBlock env block).2, r.node.balances,
        (r.node.receiveBlock env block).1.balances⟩] := by
  unfold step at taken
  split at taken
  · cases taken
  · obtain rfl := Option.some.inj taken
    exact ⟨rfl, rfl⟩

/-- The block that was accepted last can be repeated. -/
def LastRepeatable (env : Env D) (r : ReceivingRun D) : Prop :=
  ∀ last ∈ r.receipts.getLast?, last.returned = .ok true →
    Repeatable env r.node.toChainState last.block

theorem lastRepeatable_step (taken : step env r block = some r') : LastRepeatable env r' := by
  obtain ⟨node, receipts⟩ := step_receipts taken
  intro last member accepted
  rw [receipts, List.getLast?_concat, Option.mem_some_iff] at member
  subst member
  rw [node]
  exact ReceivingNode.receiveBlock_accepted accepted

theorem appliedOnce_step (repeatable : LastRepeatable env r) (before : AppliedOnce r)
    (taken : step env r block = some r') : AppliedOnce r' ↔ Exhausted env r block := by
  obtain ⟨-, receipts⟩ := step_receipts taken
  unfold AppliedOnce Exhausted
  rw [receipts, List.isChain_append]
  simp only [List.isChain_singleton, List.head?_cons, Option.mem_some_iff, forall_eq', true_and]
  constructor
  · rintro ⟨-, once⟩ last member accepted rfl distinct
    exact (ReceivingNode.receiveBlock_refused_iff (repeatable last member accepted)).mp
      (once last member accepted rfl distinct)
  · intro exhausted
    refine ⟨before, fun last member accepted same distinct => ?_⟩
    obtain rfl : block = last.block := same
    exact (ReceivingNode.receiveBlock_refused_iff (repeatable last member accepted)).mpr
      (exhausted last member accepted rfl distinct)

/-- In every sequence of `AddBlock` calls a block that was accepted is refused when it comes
again at once, exactly when at each such call a sender has too little left to pay again. -/
theorem applied_once_iff {node : ReceivingNode D} {blocks : List (Block D)}
    (ran : exec (step env) (start node) blocks = some r) :
    Always (step env) AppliedOnce (start node) blocks ↔
      Meets (step env) (Exhausted env) (start node) blocks := by
  have noneYet : LastRepeatable env (start node) := fun _ member => by cases member
  refine always_iff_meets List.isChain_nil ?_ (meets_true _ blocks) ran
  intro s block s' reached before _ taken
  have repeatable : LastRepeatable env s := reached.invariant noneYet
    fun _ _ _ _ _ _ taken => lastRepeatable_step taken
  exact appliedOnce_step repeatable before taken

def receivingNodeWith (node : CoinNode D) : ReceivingNode D := { node with blockChain := [] }

/-- A block on the genesis block with three payments of 0.1. -/
def tenthsBlock : Block Binary64 := sampleBlock 1 "genesis" "h1" threeTenths

/-- The sender owns 0.6, and the second call is refused: of the 0.3 that are left, 0.1 can be
taken off twice only. -/
theorem applied_once_exhausted :
    let env := doubleEnv [tenthsBlock]
    let node := receivingNodeWith (doubleNode "0.6")
    ∃ r, exec (step env) (start node) [tenthsBlock, tenthsBlock] = some r ∧
      r.receipts.map Receipt.returned = [.ok true, .ok false] ∧ AppliedOnce r := by
  intro env node
  obtain ⟨r, ran, ends⟩ := exec_of_run (step env) (start node) [tenthsBlock, tenthsBlock]
    (p := fun r => decide (r.receipts.map Receipt.returned = [.ok true, .ok false]))
    (by decide +kernel)
  have always := (applied_once_iff ran).mpr (by decide +kernel)
  exact ⟨r, ran, of_decide_eq_true ends, always.last ran⟩

/-- A payment of 10 on the genesis block. -/
def repeatedBlock : Block Binary64 :=
  sampleBlock 1 "genesis" "h1" [doublePayment 1 "a" "04b" 10000000]

/-- The sender owns 20, and the block is applied twice. -/
theorem applied_twice :
    let env := doubleEnv [repeatedBlock]
    let node := receivingNodeWith (doubleNode "20")
    repeatedBlock.header.hash ≠ repeatedBlock.header.prevHash ∧
      ∃ r, exec (step env) (start node) [repeatedBlock, repeatedBlock] = some r ∧
        r.receipts.map Receipt.returned = [.ok true, .ok true] ∧
        balance env.amounts node.balances "04b" = some (.ofInt 0) ∧
        balance env.amounts r.node.balances "04b" = some (.ofInt 20) := by
  intro env node
  refine ⟨by decide, ?_⟩
  obtain ⟨r, ran, ends⟩ := exec_of_run (step env) (start node) [repeatedBlock, repeatedBlock]
    (p := fun r => decide (r.receipts.map Receipt.returned = [.ok true, .ok true] ∧
      balance env.amounts r.node.balances "04b" = some (.ofInt 20))) (by decide +kernel)
  obtain ⟨returned, paid⟩ := of_decide_eq_true ends
  exact ⟨r, ran, returned, by decide +kernel, paid⟩

end ReceivingRun

end Ruccoin.Coin
