import Ruccoin.Coin.Balances
import Ruccoin.Coin.Json
import Ruccoin.Config

/-!
# The coin node

`CoinNode` of `coin_node.cc` as it runs under PBFT: its initialisation from the files and
the database that an earlier run left behind, the transaction pool, the check of a proposed
block and the application of a committed one. Mining and the messages between coin nodes
are switched off in this mode.
-/

namespace Ruccoin.Coin

/-- What the node is linked against and runs on. -/
structure Env (D : Type := Amount) [Double D] where
  crypto : Crypto
  amounts : AmountText D
  json : JsonText D
  /-- The names under which a file can be created in the directory of the chain. -/
  creatable : String → Bool

/-- The keys of `config.json` that the coin node reads besides those of PBFT and the paths. -/
structure CoinConfig extends Config where
  genesisBlock : String

variable {D : Type}

/-! ### The transaction pool -/

/-- `TX::operator<`. -/
def TX.before (a b : TX D) : Prop :=
  a.timeStamp < b.timeStamp ∨ a.timeStamp = b.timeStamp ∧ a.fromAddr < b.fromAddr

instance (a b : TX D) : Decidable (a.before b) := inferInstanceAs (Decidable (_ ∨ _))

theorem TX.before_trans {a b c : TX D} (first : a.before b) (second : b.before c) :
    a.before c := by
  rcases first with time | ⟨time, addr⟩ <;> rcases second with time' | ⟨time', addr'⟩
  · exact Or.inl (UInt64.lt_trans time time')
  · exact Or.inl (time' ▸ time)
  · exact Or.inl (time ▸ time')
  · exact Or.inr ⟨time.trans time', String.lt_trans addr addr'⟩

theorem TX.not_before_self (a : TX D) : ¬a.before a := by
  rintro (time | ⟨-, addr⟩)
  · exact UInt64.lt_irrefl _ time
  · exact String.lt_irrefl _ addr

/-- `TXP`, a `std::set`: of two transactions that are not before one another it holds the
one that came first. -/
structure TxPool (D : Type := Amount) where
  txs : List (TX D)
  ordered : txs.Pairwise TX.before

namespace TxPool

def empty : TxPool D := ⟨[], .nil⟩

def insert (pool : TxPool D) (tx : TX D) : TxPool D :=
  if ∃ u ∈ pool.txs, ¬u.before tx ∧ ¬tx.before u then pool
  else
    { txs := pool.txs.filter (·.before tx) ++ tx :: pool.txs.filter (tx.before ·)
      ordered := by
        rw [List.pairwise_append]
        refine ⟨pool.ordered.filter _, ?_, ?_⟩
        · rw [List.pairwise_cons]
          refine ⟨fun u member => ?_, pool.ordered.filter _⟩
          exact of_decide_eq_true (List.mem_filter.mp member).2
        · intro u member v member'
          have first : u.before tx := of_decide_eq_true (List.mem_filter.mp member).2
          rcases List.mem_cons.mp member' with rfl | rest
          · exact first
          · have second : tx.before v := of_decide_eq_true (List.mem_filter.mp rest).2
            exact TX.before_trans first second }

/-- `find` and `erase`. -/
def erase (pool : TxPool D) (tx : TX D) : TxPool D where
  txs := pool.txs.filter fun u => u.before tx ∨ tx.before u
  ordered := pool.ordered.filter _

/-- No two transactions of a pool are the same. -/
theorem nodup (pool : TxPool D) : pool.txs.Nodup := by
  apply List.Pairwise.imp _ pool.ordered
  rintro a b first rfl
  exact TX.not_before_self a first

/-- Only an element that has no place of its own yet is inserted. -/
theorem mem_insert {pool : TxPool D} {tx u : TX D} :
    u ∈ (pool.insert tx).txs ↔
      u ∈ pool.txs ∨ u = tx ∧ ∀ v ∈ pool.txs, v.before tx ∨ tx.before v := by
  unfold insert
  split
  next taken =>
    obtain ⟨v, member, notBefore, notAfter⟩ := taken
    refine ⟨Or.inl, ?_⟩
    rintro (old | ⟨-, apart⟩)
    · exact old
    · -- `v` is in the place of the new element
      exact ((apart v member).elim notBefore notAfter).elim
  next free =>
    have apart : ∀ v ∈ pool.txs, v.before tx ∨ tx.before v := by
      intro v member
      by_contra same
      rw [not_or] at same
      exact free ⟨v, member, same⟩
    simp only [List.mem_append, List.mem_cons, List.mem_filter, decide_eq_true_eq]
    constructor
    · rintro (⟨old, -⟩ | rfl | ⟨old, -⟩)
      · exact Or.inl old
      · exact Or.inr ⟨rfl, apart⟩
      · exact Or.inl old
    · rintro (old | ⟨rfl, -⟩)
      · exact (apart u old).imp (fun first => ⟨old, first⟩) fun later => Or.inr ⟨old, later⟩
      · exact Or.inr (Or.inl rfl)

theorem mem_erase {pool : TxPool D} {tx u : TX D} :
    u ∈ (pool.erase tx).txs ↔ u ∈ pool.txs ∧ (u.before tx ∨ tx.before u) := by
  rw [erase, List.mem_filter, decide_eq_true_eq]

/-- `RemoveTxFromPool` takes out whatever is equivalent to a transaction of the list. -/
theorem mem_foldl_erase {pool : TxPool D} {txs : List (TX D)} {u : TX D} :
    u ∈ (txs.foldl erase pool).txs ↔
      u ∈ pool.txs ∧ ∀ tx ∈ txs, u.before tx ∨ tx.before u := by
  induction txs generalizing pool with
  | nil => simp
  | cons tx txs ih => rw [List.foldl_cons, ih, mem_erase, List.forall_mem_cons, and_assoc]

end TxPool

/-! ### What lies on disk -/

structure BlockFile where
  name : String
  text : String
deriving DecidableEq

/-- The directory of the chain as it is listed, the database, and the content of the file
named by `user_init_file` when that can be opened. -/
structure Disk where
  blockchain : List BlockFile
  leveldb : Store
  userInit : Option String

/-- The lines `std::getline` returns. -/
def getlines (text : List Char) : List (List Char) :=
  let parts := text.splitOn '\n'
  if parts.getLast? = some [] then parts.dropLast else parts

/-- The address and the balance of a line, which are what follows its first comma and its
second. -/
def userEntry (line : List Char) : Option (String × String) :=
  match line.dropWhile (· ≠ ',') with
  -- a line with fewer than two commas is skipped
  | [] => none
  | _ :: rest => match rest.dropWhile (· ≠ ',') with
    | [] => none
    | _ :: amount => some (String.ofList (rest.takeWhile (· ≠ ',')), String.ofList amount)

/-- The balances listed in the file, none when it cannot be opened. -/
def userEntries (file : Option String) : List (String × String) :=
  match file with
  | none => []
  | some text => (getlines text.toList).filterMap userEntry

/-- `ReadUserData`: what is listed replaces what the database holds. -/
def readUserData (file : Option String) (db : Store) : Store :=
  (userEntries file).foldl (fun s e => s.insert e.1 e.2) db

/-- `stem()` of a file name with the extension `.json`. A name that starts with its only dot
has no extension. -/
def blockStem (name : String) : Option String :=
  let cs := name.toList
  if ".json".toList <:+ cs ∧ 5 < cs.length then some (String.ofList (cs.take (cs.length - 5)))
  else none

/-- The first half of `ReadBlockChainHash`: the hash in the name of each block file but the
genesis block's, with the `prev_hash` in its text. -/
def hashPrehash [Double D] (env : Env D) (genesis : String) (files : List BlockFile) :
    Except Fault (List (String × String)) :=
  let named := files.filterMap fun file => (blockStem file.name).map (·, file.text)
  (named.filter (·.1 ≠ genesis)).mapM fun (stem, text) => do
    let header ← (← env.json.parse text).indexOrNull "header"
    let prevHash ← (← header.indexOrNull "prev_hash").getString
    return (stem, prevHash)

/-- The loop of `ReadBlockChainHash`, which ends when no file continues the chain. Each turn
uses up one of the pairs, so as many turns as there are pairs are enough. -/
def linkChain : Nat → List (String × String) → String → List String
  | 0, _, last => [last]
  | turns + 1, pairs, last =>
    match pairs.find? (·.2 = last) with
    | none => [last]
    -- of two files that continue the chain the first one listed is taken
    | some pair => last :: linkChain turns (pairs.eraseP (·.2 = last)) pair.1

theorem linkChain_ne_nil (turns : Nat) (pairs : List (String × String)) (last : String) :
    linkChain turns pairs last ≠ [] := by
  cases turns with
  | zero => exact List.cons_ne_nil _ _
  | succ turns =>
    unfold linkChain
    split <;> exact List.cons_ne_nil _ _

/-- `WriteBlock`. The file is not written when it cannot be created. -/
def writeBlock [Double D] (env : Env D) (files : List BlockFile) (block : Block D) :
    List BlockFile :=
  let name := block.header.hash ++ ".json"
  if env.creatable name then
    -- a file of this name is written over
    ⟨name, env.json.pretty block.toJson ++ "\n"⟩ :: files.filter (·.name ≠ name)
  else files

/-! ### The state of a node -/

/-- What blocks are checked against: the balances, and the hashes of the chain, which
begins with that of the genesis block. -/
structure ChainState where
  balances : Store
  blockChainHash : List String
  rooted : blockChainHash ≠ []

structure CoinNode (D : Type := Amount) extends ChainState where
  txPool : TxPool D
  blockchain : List BlockFile

variable [Double D]

/-- `json::parse(p).get<Block>()`. -/
def Env.parseBlock (env : Env D) (p : String) : Except Fault (Block D) :=
  (env.json.parse p).bind Block.fromJson

namespace ChainState

variable [Sub D] [LT D] [DecidableLT D]

/-- `block_chain_hash_.back()`. -/
def tip (st : ChainState) : String := st.blockChainHash.getLast st.rooted

/-- The loop of `CheckBlock`, with what is left of the balance of each sender so far in
`tempBalance`. Recipients are not looked up. -/
def checkTransx (env : Env D) (balances : Store) :
    (AList fun _ : String => D) → List (TX D) → Except Fault Bool
  | _, [] => .ok true
  | tempBalance, tx :: txs =>
    if !tx.validateSignature env.crypto env.amounts then .ok false
    else match tempBalance.lookup tx.fromAddr with
    -- the sender has paid in this block before
    | some value =>
      if value < tx.value then .ok false
      else checkTransx env balances (tempBalance.insert tx.fromAddr (value - tx.value)) txs
    | none => match balances.lookup tx.fromAddr with
      | none => .ok false
      | some text => match env.amounts.stod text with
        | none => .error .stodFailed
        | some value =>
          if value < tx.value then .ok false
          else checkTransx env balances (tempBalance.insert tx.fromAddr (value - tx.value)) txs

def checkBlock (env : Env D) (st : ChainState) (block : Block D) : Except Fault Bool :=
  if block.header.prevHash ≠ st.tip then .ok false
  else checkTransx env st.balances ∅ block.transxList

def checkProposal (env : Env D) (st : ChainState) (p : String) : Except Fault Bool :=
  (env.parseBlock p).bind (st.checkBlock env)

end ChainState

namespace CoinNode

/-- `Init`, on the disk that the paths of the configuration lead to. -/
def init (env : Env D) (conf : CoinConfig) (id : Nat) (disk : Disk) :
    Except Fault (CoinNode D) :=
  if conf.nodeAddr.length ≤ id then .error .typeError
  else (hashPrehash env conf.genesisBlock disk.blockchain).map fun pairs =>
    { balances := readUserData disk.userInit disk.leveldb
      blockChainHash := linkChain pairs.length pairs conf.genesisBlock
      rooted := linkChain_ne_nil _ _ _
      txPool := .empty
      blockchain := disk.blockchain }

/-- `AddTransx`. -/
def addTransx (env : Env D) (node : CoinNode D) (tx : TX D) : CoinNode D × Bool :=
  if !tx.validateSignature env.crypto env.amounts then (node, false)
  else ({ node with txPool := node.txPool.insert tx }, true)

variable [Add D] [Sub D]

/-- `CommitProposal`: the block is applied without another check. -/
def commitProposal (env : Env D) (node : CoinNode D) (p : String) :
    Outcome (CoinNode D) Fault :=
  match env.parseBlock p with
  | .error e => ⟨node, some e⟩
  | .ok block =>
    let updated := updateBlance env.amounts node.balances block.transxList
    match updated.fault with
    -- what was written before the fault stays in the database
    | some e => ⟨{ node with balances := updated.state }, some e⟩
    | none =>
      ⟨{ balances := updated.state
         blockChainHash := node.blockChainHash ++ [block.header.hash]
         rooted := List.append_ne_nil_of_left_ne_nil node.rooted _
         txPool := block.transxList.foldl TxPool.erase node.txPool
         blockchain := writeBlock env node.blockchain block }, none⟩

/-- A sequence of `CommitProposal` calls, up to the first that does not return. -/
def commitAll (env : Env D) : CoinNode D → List String → Outcome (CoinNode D) Fault :=
  Outcome.each (commitProposal env)

/-- What a node leaves behind for the next one. -/
def disk (node : CoinNode D) (userInit : Option String) : Disk where
  blockchain := node.blockchain
  leveldb := node.balances
  userInit := userInit

end CoinNode

/-! ### What committing does to the balances -/

/-- The transactions of the proposals, up to the first that is not a block. -/
def transactions (env : Env D) : List String → List (TX D)
  | [] => []
  | p :: ps => match env.parseBlock p with
    | .ok block => block.transxList ++ transactions env ps
    | .error _ => []

namespace CoinNode

variable {env : Env D} {node node' : CoinNode D}

/-- The transactions of a sequence of blocks. -/
theorem transactions_of_parsed {ps : List String} {blocks : List (Block D)}
    (parsed : List.Forall₂ (fun p block => env.parseBlock p = .ok block) ps blocks) :
    transactions env ps = blocks.flatMap Block.transxList := by
  induction parsed with
  | nil => rfl
  | cons first rest ih => rw [transactions, first, List.flatMap_cons, ih]

variable [Add D] [Sub D]

theorem commitProposal_of_error (node : CoinNode D) {p : String} {e : Fault}
    (unparsed : env.parseBlock p = .error e) : commitProposal env node p = ⟨node, some e⟩ := by
  simp only [commitProposal, unparsed]

/-- A parsed block stops the call where `UpdateBlance` stops, and otherwise becomes the tip
of the chain. -/
theorem commitProposal_of_parsed (node : CoinNode D) {p : String} {block : Block D}
    (parsed : env.parseBlock p = .ok block) :
    let updated := updateBlance env.amounts node.balances block.transxList
    (commitProposal env node p).fault = updated.fault ∧
      (commitProposal env node p).state.balances = updated.state ∧
      (commitProposal env node p).state.blockChainHash =
        if updated.fault = none then node.blockChainHash ++ [block.header.hash]
        else node.blockChainHash := by
  intro updated
  unfold commitProposal
  cases stopped : updated.fault with
  | none => simp [parsed, updated, stopped]
  | some e => simp [parsed, updated, stopped]

/-- What a call does to the balances and the chain depends on these only. -/
theorem commitProposal_congr (env : Env D) (same : node.toChainState = node'.toChainState)
    (p : String) :
    (commitProposal env node p).fault = (commitProposal env node' p).fault ∧
      (commitProposal env node p).state.toChainState =
        (commitProposal env node' p).state.toChainState := by
  have balances : node.balances = node'.balances := congrArg ChainState.balances same
  have chain : node.blockChainHash = node'.blockChainHash :=
    congrArg ChainState.blockChainHash same
  unfold commitProposal
  rw [← balances]
  cases env.parseBlock p with
  | error e => exact ⟨rfl, same⟩
  | ok block =>
    dsimp only
    cases (updateBlance env.amounts node.balances block.transxList).fault with
    | none => simp [chain]
    | some e => simp [chain]

theorem commitAll_cons (node : CoinNode D) (p : String) (ps : List String) :
    commitAll env node (p :: ps) = (commitProposal env node p).andThen (commitAll env · ps) :=
  Outcome.each_cons ..

theorem commitAll_concat {ps : List String} (p : String)
    (returned : (commitAll env node ps).fault = none) :
    commitAll env node (ps ++ [p]) = commitProposal env (commitAll env node ps).state p := by
  have append : commitAll env node (ps ++ [p]) =
      (commitAll env node ps).andThen (commitAll env · [p]) := Outcome.each_append ..
  rw [append, Outcome.andThen_of_none returned]
  exact Outcome.each_singleton ..

/-- However far the calls get, they update the balances with the transactions in order. -/
theorem commitAll_balances (node : CoinNode D) (ps : List String) :
    (commitAll env node ps).state.balances =
      (updateBlance env.amounts node.balances (transactions env ps)).state := by
  induction ps generalizing node with
  | nil => rfl
  | cons p ps ih =>
    rw [commitAll_cons, transactions]
    cases parsed : env.parseBlock p with
    | error e =>
      have raised := commitProposal_of_error node parsed
      rw [raised, Outcome.andThen_of_some rfl]
      rfl
    | ok block =>
      obtain ⟨fault, balances, -⟩ := commitProposal_of_parsed node parsed
      rw [updateBlance_append]
      cases stopped : (updateBlance env.amounts node.balances block.transxList).fault with
      | none =>
        rw [Outcome.andThen_of_none (fault.trans stopped), Outcome.andThen_of_none stopped,
          ih, balances]
      | some e =>
        -- the call stops within this block, and the rest is not reached
        rw [Outcome.andThen_of_some (fault.trans stopped), Outcome.andThen_of_some stopped,
          balances]

/-- Blocks whose transactions all go through are all committed. -/
theorem commitAll_returns {ps : List String} {blocks : List (Block D)} (node : CoinNode D)
    (parsed : List.Forall₂ (fun p block => env.parseBlock p = .ok block) ps blocks)
    (named : Named env.amounts node.balances (blocks.flatMap Block.transxList)) :
    (commitAll env node ps).fault = none := by
  induction parsed generalizing node with
  | nil => rfl
  | @cons p block ps blocks first rest ih =>
    obtain ⟨fault, balances, -⟩ := commitProposal_of_parsed node first
    have here : Named env.amounts node.balances block.transxList := fun tx member =>
      named tx (by rw [List.flatMap_cons]; exact List.mem_append_left _ member)
    have returned := updateBlance_returns_iff.mpr here
    rw [commitAll_cons, Outcome.andThen_of_none (fault.trans returned)]
    apply ih
    -- the accounts of the later blocks are still there
    intro tx member
    rw [balances, (updateBlance_settled ..).holds_iff, (updateBlance_settled ..).holds_iff]
    exact named tx (by rw [List.flatMap_cons]; exact List.mem_append_right _ member)

/-- However far the calls get, what is applied of the transactions is settled. -/
theorem commitAll_settled (env : Env D) (node : CoinNode D) (ps : List String) :
    Settled env.amounts node.balances (commitAll env node ps).state.balances
      (applied env.amounts node.balances (transactions env ps)) := by
  rw [commitAll_balances]
  exact updateBlance_settled node.balances (transactions env ps)

end CoinNode

/-! ### A node to run examples with -/

/-- Names without a slash and of a common length can be created. -/
def sampleEnv (blocks : List Block) : Env where
  crypto := sampleCrypto
  amounts := sampleAmountText
  json := sampleJsonText blocks
  creatable name := !name.toList.contains '/' && name.length ≤ 255

theorem genesis_rooted : ["genesis"] ≠ [] := List.cons_ne_nil _ _

/-- A node on which nothing has been committed: the account `04a` has 10 and the account
`04b` has nothing. -/
def sampleNode : CoinNode where
  balances := readUserData (some "a,04a,10\nb,04b,0\n") ∅
  blockChainHash := ["genesis"]
  rooted := genesis_rooted
  txPool := .empty
  blockchain := []

/-- The same node when the account `04a` begins with 20. -/
def richNode : CoinNode :=
  { sampleNode with balances := readUserData (some "a,04a,20\nb,04b,0\n") ∅ }

/-- A signed payment of 10 from the owner of the key. -/
def samplePayment (timeStamp : UInt64) (key toAddr : String) : TX :=
  let tx : TX :=
    { timeStamp, fromAddr := "04" ++ key, toAddr, value := 10000000, signature := "" }
  { tx with signature := tx.calSignature sampleCrypto sampleAmountText key }

def sampleBlock (height : UInt64) (prevHash hash : String) (transxList : List (TX D)) :
    Block D where
  header :=
    { height, target := 2378178319, prevHash, hash, merkleRoot := "merkle", nonce := "nonce" }
  transxList := transxList

end Ruccoin.Coin
