import Ruccoin.Coin.Check
import Ruccoin.Coin.Packing

/-!
# What the primary packs and proposes

In one turn of the loop of `Run` the primary packs a block and passes `on_packing_block_` to
`BlockProposal`. `PackBlock` takes the transactions as they stand in the pool and does not
run them, contrary to its documentation, and one more than `max_tx_per_block`. Without the
file of the tip it returns early, and what is proposed is the block of an earlier turn.
-/

namespace Ruccoin.Coin

/-! ### The packed block -/

variable {D : Type} [Double D]

/-- The block packed on top of `lastBlock` is the one that is wanted. -/
structure PackedRight (env : Env D) (node after : PackingNode D) (lastBlock : Block D) :
    Prop where
  txPool : after.txPool = node.txPool
  transxList : after.onPackingBlock.transxList =
    node.txPool.txs.take (min node.txPool.txs.length maxTxPerBlock)
  ordered : after.onPackingBlock.transxList.Pairwise TX.before
  distinct : after.onPackingBlock.transxList.Nodup
  height : after.onPackingBlock.header.height.toNat = lastBlock.header.height.toNat + 1
  prevHash : after.onPackingBlock.header.prevHash = lastBlock.header.hash
  hash : after.onPackingBlock.header.hash = headerHash env.crypto after.onPackingBlock.header

omit [Double D] in
/-- One transaction too many is taken exactly when there is one. -/
theorem packTransx_eq_iff (txs : List (TX D)) :
    packTransx 0 txs = txs.take (min txs.length maxTxPerBlock) ↔ txs.length ≤ maxTxPerBlock := by
  rw [packTransx_eq_take, Nat.sub_zero]
  constructor
  · intro same
    have lengths := congrArg List.length same
    rw [List.length_take, List.length_take] at lengths
    omega
  · intro few
    rw [min_eq_left few, List.take_length]
    exact List.take_of_length_le (by omega)

theorem height_succ_iff (height : UInt64) :
    (height + 1).toNat = height.toNat + 1 ↔ height.toNat + 1 < 2 ^ 64 := by
  have bound : height.toNat < 2 ^ 64 := height.toNat_lt
  have sum : (height + 1).toNat = (height.toNat + 1) % 2 ^ 64 := by
    rw [UInt64.toNat_add]
    rfl
  rw [sum]
  omega

/-- On a readable tip `PackBlock` returns, and packs the right block exactly when the pool
has no more than `max_tx_per_block` transactions and the height can still be counted. -/
theorem packed_right_iff (env : Env D) (node : PackingNode D) (random merkle : String)
    (lastBlock : Block D) (publishes : node.tryPublishCond = true)
    (read : readBlock env node.blockchain node.tip = some (.ok lastBlock)) :
    (node.packBlock env random merkle).fault = none ∧
      (PackedRight env node (node.packBlock env random merkle).state lastBlock ↔
        node.txPool.txs.length ≤ maxTxPerBlock ∧
          lastBlock.header.height.toNat + 1 < 2 ^ 64) := by
  unfold PackingNode.packBlock
  simp only [publishes, Bool.not_true, Bool.false_eq_true, if_false, read, true_and]
  constructor
  · intro right
    exact ⟨(packTransx_eq_iff _).mp right.transxList, (height_succ_iff _).mp right.height⟩
  · rintro ⟨few, countable⟩
    have taken := packTransx_eq_take 0 node.txPool.txs
    refine ⟨rfl, (packTransx_eq_iff _).mpr few, ?_, ?_, (height_succ_iff _).mpr countable, rfl, rfl⟩
    · rw [taken]
      exact node.txPool.ordered.sublist (List.take_sublist _ _)
    · rw [taken]
      exact node.txPool.nodup.sublist (List.take_sublist _ _)

def genesisBlock : Block D := sampleBlock 0 "" "genesis" []

def genesisEnv : Env := sampleEnv [genesisBlock]

/-- A node with the file of its genesis block and a pool. -/
def packingNodeWith (pool : TxPool) : PackingNode :=
  { samplePackingNode with
    blockchain := [⟨"genesis.json", genesisEnv.json.pretty genesisBlock.toJson ++ "\n"⟩]
    txPool := pool }

/-- Three payments, submitted in another order than the pool has them in. -/
def submittedPool : TxPool :=
  ((TxPool.empty.insert (samplePayment 3 "b" "04a")).insert (samplePayment 1 "a" "04b")).insert
    (samplePayment 2 "a" "04b")

theorem packed_right_three :
    let node := packingNodeWith submittedPool
    let after := (node.packBlock genesisEnv "random" "merkle").state
    after.onPackingBlock.transxList =
        [samplePayment 1 "a" "04b", samplePayment 2 "a" "04b", samplePayment 3 "b" "04a"] ∧
      PackedRight genesisEnv node after genesisBlock := by
  intro node after
  exact ⟨by decide +kernel, (packed_right_iff genesisEnv node "random" "merkle" genesisBlock
    (by decide +kernel) (by decide +kernel)).2.mpr (by decide +kernel)⟩

/-- A payment in each of the first 81 seconds. -/
def longPool : TxPool where
  txs := (List.range 81).map fun n => samplePayment (UInt64.ofNat n) "a" "04b"
  ordered := by decide +kernel

/-- The block holds 81 transactions. -/
theorem packs_one_too_many :
    let node := packingNodeWith longPool
    let after := (node.packBlock genesisEnv "random" "merkle").state
    node.tryPublishCond = true ∧
      readBlock genesisEnv node.blockchain node.tip = some (.ok genesisBlock) ∧
      after.onPackingBlock.transxList.length = 81 ∧
      ¬PackedRight genesisEnv node after genesisBlock := by
  intro node after
  have taken : after.onPackingBlock.transxList.length = 81 := by decide +kernel
  refine ⟨by decide +kernel, by decide +kernel, taken, fun right => ?_⟩
  have wanted := congrArg List.length right.transxList
  rw [taken, List.length_take] at wanted
  have limit : maxTxPerBlock = 80 := rfl
  omega

/-! ### One turn of `Run` -/

/-- A packing node with its place in the consensus. -/
structure ProposingNode (D : Type := Amount) extends PackingNode D where
  id : UInt32
  bftPrimaryId : UInt32

/-- One turn of the loop of `Run`, and the block that it passes to `BlockProposal`. -/
def ProposingNode.turn (env : Env D) (random merkle : String) (node : ProposingNode D) :
    Outcome (ProposingNode D) Fault × Option (Block D) :=
  if node.tryPublishCond && node.id == node.bftPrimaryId then
    let packed := node.packBlock env random merkle
    let after := { node with toPackingNode := packed.state }
    match packed.fault with
    -- `PackBlock` returns nothing, so an early return of it is not noticed
    | none => (⟨after, none⟩, some after.onPackingBlock)
    | some e => (⟨after, some e⟩, none)
  else (⟨node, none⟩, none)

/-- The pools that `AddTransx` calls fill and `RemoveTxFromPool` calls empty. -/
inductive Filled (env : Env D) : TxPool D → Prop where
  | empty : Filled env .empty
  | addTransx {node : CoinNode D} (tx : TX D) :
      Filled env node.txPool → Filled env (node.addTransx env tx).1.txPool
  | removeTxFromPool {pool : TxPool D} (txs : List (TX D)) :
      Filled env pool → Filled env (txs.foldl TxPool.erase pool)

variable {env : Env D}

theorem Filled.insert {pool : TxPool D} {tx : TX D} (filled : Filled env pool)
    (valid : tx.validateSignature env.crypto env.amounts = true) :
    Filled env (pool.insert tx) := by
  let node : CoinNode D :=
    { balances := ∅, blockChainHash := [""], rooted := List.cons_ne_nil _ _, txPool := pool,
      blockchain := [] }
  have submitted : Filled env (node.addTransx env tx).1.txPool := .addTransx tx filled
  simpa [CoinNode.addTransx, valid, node] using submitted

theorem Filled.insertAll {pool : TxPool D} {txs : List (TX D)} (filled : Filled env pool)
    (valid : ∀ tx ∈ txs, tx.validateSignature env.crypto env.amounts = true) :
    Filled env (txs.foldl TxPool.insert pool) := by
  induction txs generalizing pool with
  | nil => exact filled
  | cons tx txs ih =>
    obtain ⟨first, rest⟩ := List.forall_mem_cons.mp valid
    exact ih (filled.insert first) rest

/-- Only transactions that validate get into the pool. -/
theorem Filled.valid {pool : TxPool D} (filled : Filled env pool) :
    ∀ tx ∈ pool.txs, tx.validateSignature env.crypto env.amounts = true := by
  induction filled with
  | empty =>
    intro u member
    cases member
  | @addTransx node tx _ ih =>
    unfold CoinNode.addTransx
    split
    · exact ih
    next valid =>
      intro u member
      rcases TxPool.mem_insert.mp member with old | ⟨rfl, -⟩
      · exact ih u old
      · simpa using valid
  | removeTxFromPool txs _ ih =>
    intro u member
    exact ih u (TxPool.mem_foldl_erase.mp member).1

/-- What a turn that proposes needs in order to propose a valid block. When the tip can be
read, its file has to carry the hash of the tip, and the transactions that are taken have to
be affordable. When there is no file, the block of an earlier turn has to be valid still. -/
structure Proposable [Sub D] [LT D] (env : Env D) (node : PackingNode D) : Prop where
  readable : ∀ lastBlock, readBlock env node.blockchain node.tip = some (.ok lastBlock) →
    lastBlock.header.hash = node.tip ∧
      Affordable env.amounts node.balances (node.txPool.txs.take (maxTxPerBlock + 1))
  missing : readBlock env node.blockchain node.tip = none →
    node.onPackingBlock.header.prevHash = node.tip ∧
      (∀ tx ∈ node.onPackingBlock.transxList,
        tx.validateSignature env.crypto env.amounts = true) ∧
      Affordable env.amounts node.balances node.onPackingBlock.transxList

namespace ProposingNode

/-- A turn does not touch what blocks are checked against. -/
theorem turn_toChainState (env : Env D) (random merkle : String) (node : ProposingNode D) :
    (node.turn env random merkle).1.state.toChainState = node.toChainState := by
  have frame := node.packBlock_frame env random merkle
  have kept : (node.packBlock env random merkle).state.toChainState = node.toChainState := by
    rw [frame]
  unfold turn
  split
  · dsimp only
    split <;> exact kept
  · rfl

/-- A backup proposes nothing, and neither does a primary with too few transactions. -/
theorem turn_idle {node : ProposingNode D} {random merkle : String}
    (idle : ¬(node.tryPublishCond = true ∧ node.id = node.bftPrimaryId)) :
    (node.turn env random merkle).2 = none := by
  unfold turn
  rw [if_neg (by simpa using idle)]

variable [Sub D] [LT D] [DecidableLT D]

/-- What a primary with enough transactions proposes is accepted exactly when it was
proposable. -/
theorem packed_valid_iff {node : ProposingNode D} {random merkle : String}
    (filled : Filled env node.txPool) (publishes : node.tryPublishCond = true)
    (primary : node.id = node.bftPrimaryId) :
    (∀ block ∈ (node.turn env random merkle).2, node.checkBlock env block = .ok true) ↔
      Proposable env node.toPackingNode := by
  unfold turn PackingNode.packBlock
  simp only [publishes, primary, beq_self_eq_true, Bool.and_self, if_true, Bool.not_true,
    Bool.false_eq_true, if_false]
  cases read : readBlock env node.blockchain node.tip with
  | none =>
    -- the block of an earlier turn is proposed again
    simp only [Option.mem_some_iff, forall_eq', checkBlock_iff_affordable]
    constructor
    · exact fun valid => ⟨fun _ found => by simp [read] at found, fun _ => valid⟩
    · exact fun proposable => proposable.missing read
  | some parsed =>
    cases parsed with
    | error e =>
      -- the exception of the parser ends the turn
      exact iff_of_true (fun _ member => absurd member (Option.not_mem_none _))
        ⟨fun _ found => by simp [read] at found, fun found => by simp [read] at found⟩
    | ok lastBlock =>
      have valid : ∀ tx ∈ node.txPool.txs.take (maxTxPerBlock + 1),
          tx.validateSignature env.crypto env.amounts = true :=
        fun tx member => filled.valid tx (List.mem_of_mem_take member)
      simp only [Option.mem_some_iff, forall_eq', checkBlock_iff_affordable, packTransx_eq_take,
        Nat.sub_zero]
      constructor
      · rintro ⟨onTip, -, affordable⟩
        refine ⟨fun last found => ?_, fun found => by simp [read] at found⟩
        rw [read, Option.some.injEq, Except.ok.injEq] at found
        exact ⟨found ▸ onTip, affordable⟩
      · intro proposable
        obtain ⟨onTip, affordable⟩ := proposable.readable lastBlock read
        exact ⟨onTip, valid, affordable⟩

/-- Every block that a turn proposes is accepted by `CheckBlock` on the state the turn
leaves, exactly when a primary with enough transactions can propose a valid one. -/
theorem proposals_valid_iff (env : Env D) (node : ProposingNode D) (random merkle : String)
    (filled : Filled env node.txPool) :
    (∀ block ∈ (node.turn env random merkle).2,
        (node.turn env random merkle).1.state.checkBlock env block = .ok true) ↔
      (node.tryPublishCond = true → node.id = node.bftPrimaryId →
        Proposable env node.toPackingNode) := by
  rw [turn_toChainState]
  by_cases proposes : node.tryPublishCond = true ∧ node.id = node.bftPrimaryId
  · obtain ⟨publishes, primary⟩ := proposes
    simp only [publishes, primary, forall_const]
    exact packed_valid_iff filled publishes primary
  · rw [turn_idle proposes]
    refine iff_of_true (fun _ member => absurd member (Option.not_mem_none _)) ?_
    intro publishes primary
    exact absurd ⟨publishes, primary⟩ proposes

/-- A primary with the file of its genesis block, on which the account `04a` has what the
text says, and a pool. -/
def primaryWith (text : String) (pool : TxPool Binary64) : ProposingNode Binary64 where
  toCoinNode :=
    { doubleNode text with
      blockchain := [⟨"genesis.json", (doubleEnv []).json.pretty genesisBlock.toJson ++ "\n"⟩]
      txPool := pool }
  minTxPerBlock := 1
  onPackingBlock := sampleBlock 0 "" "" []
  id := 0
  bftPrimaryId := 0

/-- The pool of three payments of 0.1. -/
def threePool : TxPool Binary64 := threeTenths.foldl TxPool.insert .empty

theorem threePool_filled : Filled (doubleEnv [genesisBlock]) threePool :=
  Filled.empty.insertAll (by decide +kernel)

theorem proposals_valid_covered :
    let node := primaryWith "0.4" threePool
    Proposable (doubleEnv [genesisBlock]) node.toPackingNode := by
  intro node
  exact (proposals_valid_iff (doubleEnv [genesisBlock]) node "random" "merkle"
    threePool_filled).mp (by decide +kernel) (by decide +kernel) (by decide +kernel)

-- an owner of 0.3 cannot pay 0.1 three times in doubles, and the block is proposed all the same
example :
    let env := doubleEnv [genesisBlock]
    let node := primaryWith "0.3" threePool
    ∃ block ∈ (node.turn env "random" "merkle").2,
      block.transxList = threeTenths ∧ node.checkBlock env block = .ok false := by
  decide +kernel

/-- The account `04b` has nothing, and its payment of 10 is proposed. -/
theorem overdraft_proposed :
    let env := doubleEnv [genesisBlock]
    let payment := doublePayment 3 "b" "04a" 10000000
    let node := primaryWith "20" (TxPool.empty.insert payment)
    Filled env node.txPool ∧ ∃ block ∈ (node.turn env "random" "merkle").2,
      block.transxList = [payment] ∧
        (node.turn env "random" "merkle").1.state.checkBlock env block = .ok false := by
  intro env payment node
  have valid : payment.validateSignature env.crypto env.amounts = true := by decide +kernel
  exact ⟨Filled.empty.insert valid, by decide +kernel⟩

end ProposingNode

end Ruccoin.Coin
