import Ruccoin.Coin.Node

/-!
# Packing a block

`PackBlock` takes transactions from the front of the pool and puts them under a header on
top of the tip. The pool keeps them until a block with them is committed. The build option
that adds a reward is off.
-/

namespace Ruccoin.Coin

/-- `max_tx_per_block`. -/
def maxTxPerBlock : Nat := 80

/-- `ruccoin::target`. -/
def target : UInt64 := 2378178319

/-- `HeaderHash`: neither the hash itself nor the transactions are part of what is hashed. -/
def headerHash (c : Crypto) (bh : BlockHeader) : String :=
  c.ruccoinHash (toString bh.height.toNat ++ toString bh.target.toNat ++ bh.prevHash ++
    bh.merkleRoot ++ bh.nonce)

variable {D : Type}

/-- The loop over the pool, with the number of transactions taken so far. -/
def packTransx : Nat → List (TX D) → List (TX D)
  | _, [] => []
  | ntx, tx :: txs => if maxTxPerBlock < ntx then [] else tx :: packTransx (ntx + 1) txs

/-- The bound is tested against the number already taken, so one more fits in. -/
theorem packTransx_eq_take (ntx : Nat) (txs : List (TX D)) :
    packTransx ntx txs = txs.take (maxTxPerBlock + 1 - ntx) := by
  induction txs generalizing ntx with
  | nil => rw [packTransx, List.take_nil]
  | cons tx txs ih =>
    rw [packTransx]
    split
    next full =>
      have none_left : maxTxPerBlock + 1 - ntx = 0 := by omega
      rw [none_left, List.take_zero]
    next room =>
      have one_more : maxTxPerBlock + 1 - ntx = maxTxPerBlock + 1 - (ntx + 1) + 1 := by omega
      rw [one_more, List.take_succ_cons, ih]

variable [Double D]

/-- `ReadBlock`, `none` when the file cannot be opened. -/
def readBlock (env : Env D) (files : List BlockFile) (blockHash : String) :
    Option (Except Fault (Block D)) :=
  (files.find? (·.name = blockHash ++ ".json")).map fun file => env.parseBlock file.text

/-- A coin node with the fields that packing uses. -/
structure PackingNode (D : Type := Amount) extends CoinNode D where
  minTxPerBlock : Nat
  onPackingBlock : Block D

namespace PackingNode

def tryPublishCond (node : PackingNode D) : Bool :=
  decide (node.minTxPerBlock ≤ node.txPool.txs.length)

/-- `PackBlock`, with the two random texts it draws. -/
def packBlock (env : Env D) (random merkle : String) (node : PackingNode D) :
    Outcome (PackingNode D) Fault :=
  if !node.tryPublishCond then ⟨node, some .assertFailed⟩
  else match readBlock env node.blockchain node.tip with
    -- without the file of the tip the block packed last stays
    | none => ⟨node, none⟩
    | some (.error e) => ⟨node, some e⟩
    | some (.ok lastBlock) =>
      let header : BlockHeader :=
        { height := lastBlock.header.height + 1
          target := target
          prevHash := lastBlock.header.hash
          hash := random
          merkleRoot := merkle
          nonce := "nonce" }
      ⟨{ node with
          onPackingBlock :=
            { header := { header with hash := headerHash env.crypto header }
              transxList := packTransx 0 node.txPool.txs } }, none⟩

end PackingNode

/-- The call changes nothing but the block being packed. -/
theorem PackingNode.packBlock_frame (env : Env D) (random merkle : String)
    (node : PackingNode D) :
    (node.packBlock env random merkle).state =
      { node with
        onPackingBlock := (node.packBlock env random merkle).state.onPackingBlock } := by
  unfold packBlock
  split
  · rfl
  · split <;> rfl

/-- A node that packs a block as soon as there is a transaction. -/
def samplePackingNode : PackingNode where
  toCoinNode := richNode
  minTxPerBlock := 1
  onPackingBlock := sampleBlock 0 "" "" []

end Ruccoin.Coin
