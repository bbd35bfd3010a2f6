import Ruccoin.Coin.Check
import Ruccoin.Foundation.LastWrite
import Ruccoin.Foundation.Result

/-!
# Restarting a node

`Init` rebuilds the chain from the files that the previous run wrote and opens the database
that it kept, but then reads the user file, which puts back the balance of every account
listed there. A restart therefore keeps the balances exactly when the run has left the
listed accounts as the user file has them, to the last digit that `stod` reads.
-/

namespace Ruccoin.Coin

/-! ### What the user file determines -/

theorem readUserData_eq_writeAll (file : Option String) (db : Store) :
    readUserData file db = LastWrite.writeAll db (userEntries file) := rfl

/-- The last line for an account counts, whatever the database held. -/
theorem readUserData_of_listed {file : Option String} {a : String}
    (listed : a ∈ (userEntries file).map Prod.fst) (db db' : Store) :
    (readUserData file db).lookup a = (readUserData file db').lookup a := by
  rw [readUserData_eq_writeAll, readUserData_eq_writeAll]
  ext b
  exact (LastWrite.lookup_of_listed listed).trans (LastWrite.lookup_of_listed listed).symm

theorem readUserData_of_unlisted {file : Option String} {a : String}
    (unlisted : a ∉ (userEntries file).map Prod.fst) (db : Store) :
    (readUserData file db).lookup a = db.lookup a := by
  rw [readUserData_eq_writeAll]
  exact LastWrite.lookup_of_unlisted unlisted

/-! ### From one run to the next -/

variable {D : Type}

/-- The disk is what the node left behind, its files listed in any order. -/
structure LeftBehind (node : CoinNode D) (userInit : Option String) (disk : Disk) : Prop where
  files : disk.blockchain.Perm node.blockchain
  database : disk.leveldb = node.balances
  users : disk.userInit = userInit

theorem CoinNode.leftBehind_disk (node : CoinNode D) (userInit : Option String) :
    LeftBehind node userInit (node.disk userInit) :=
  ⟨.refl _, rfl, rfl⟩

variable [Double D] {env : Env D} {conf : CoinConfig} {id : Nat} {disk disk' : Disk}

/-- The balances of a node that has been initialised are those of the database, overwritten
by the user file. -/
theorem init_balances {node : CoinNode D}
    (started : CoinNode.init env conf id disk = .ok node) :
    node.balances = readUserData disk.userInit disk.leveldb := by
  unfold CoinNode.init at started
  split at started
  · cases started
  · obtain ⟨pairs, -, rfl⟩ := Result.map_ok.mp started
    rfl

/-- A node is started, a sequence of proposals is committed as far as the calls return, and
the node is started again on what it left behind. The second start keeps every balance
exactly when the transactions that were applied make of the first balance of each account of
the user file that balance again. -/
theorem restart_iff [Add D] [Sub D] {node again : CoinNode D} {ps : List String}
    (started : CoinNode.init env conf id disk = .ok node)
    (left : LeftBehind (node.commitAll env ps).state disk.userInit disk')
    (restarted : CoinNode.init env conf id disk' = .ok again) :
    (∀ a, balance env.amounts again.balances a =
        balance env.amounts (node.commitAll env ps).state.balances a) ↔
      ∀ e ∈ userEntries disk.userInit, ∀ v ∈ balance env.amounts node.balances e.1,
        settle e.1 (applied env.amounts node.balances (transactions env ps)) v = v := by
  have settled := CoinNode.commitAll_settled env node ps
  have reread : ∀ a, a ∈ (userEntries disk.userInit).map Prod.fst →
      balance env.amounts again.balances a = balance env.amounts node.balances a := by
    intro a listed
    unfold balance
    rw [init_balances started, init_balances restarted, left.users,
      readUserData_of_listed listed disk'.leveldb disk.leveldb]
  constructor
  · -- a listed account has its first balance again
    intro kept e member v read
    have listed : e.1 ∈ (userEntries disk.userInit).map Prod.fst := List.mem_map_of_mem member
    have same := kept e.1
    rw [reread e.1 listed, settled.balance_eq, read, Option.map_some] at same
    exact (Option.some.inj same).symm
  · intro unmoved a
    by_cases listed : a ∈ (userEntries disk.userInit).map Prod.fst
    · obtain ⟨e, member, rfl⟩ := List.mem_map.mp listed
      rw [reread e.1 listed, settled.balance_eq]
      cases read : balance env.amounts node.balances e.1 with
      | none => rfl
      | some v => rw [Option.map_some, unmoved e member v read]
    · -- any other account has what the database holds
      unfold balance
      rw [init_balances restarted, left.users, left.database, readUserData_of_unlisted listed]

/-- With exact decimals what was posted on the account has to add up to nothing. -/
theorem settle_eq_self_iff {t : AmountText} {s : Store} {a : String} {v : Amount}
    (read : balance t s a = some v) (txs : List TX) :
    settle a (applied t s txs) v = v ↔ Ledger.moved (posts t s txs) a = 0 := by
  rw [settle_applied txs (holds_of_balance read), add_eq_left]

/-- The first node of a deployment of one, with the hash of its genesis block. -/
def sampleCoinConfig : CoinConfig := { sampleConfig 1 with genesisBlock := "genesis" }

/-- The file lists `04a` with what the text says and `04b` with nothing. -/
def doubleDisk (text : String) : Disk where
  blockchain := []
  leveldb := ∅
  userInit := some ("a,04a," ++ text ++ "\nb,04b,0\n")

theorem doubleNode_started (blocks : List (Block Binary64)) (text : String) :
    CoinNode.init (doubleEnv blocks) sampleCoinConfig 0 (doubleDisk text) =
      .ok (doubleNode text) := rfl

/-- A payment, and in the next block its return. -/
def returnedPayment : List (Block Binary64) :=
  [sampleBlock 1 "genesis" "h1" [doublePayment 1 "a" "04b" 10000000],
    sampleBlock 2 "h1" "h2" [doublePayment 3 "b" "04a" 10000000]]

/-- The node after committing the two blocks. -/
def returnedRun : Outcome (CoinNode Binary64) Fault :=
  (doubleNode "10").commitAll (doubleEnv returnedPayment)
    (returnedPayment.map fun b => (doubleEnv returnedPayment).json.dump b.toJson)

theorem restart_returnedPayment :
    ∃ again, CoinNode.init (doubleEnv returnedPayment) sampleCoinConfig 0
        (returnedRun.state.disk (doubleDisk "10").userInit) = .ok again ∧
      again.blockChainHash = ["genesis", "h1", "h2"] ∧
      ∀ a, balance doubleText again.balances a =
        balance doubleText returnedRun.state.balances a := by
  obtain ⟨again, restarted, chain⟩ := Result.ok_of_run
    (x := CoinNode.init (doubleEnv returnedPayment) sampleCoinConfig 0
      (returnedRun.state.disk (doubleDisk "10").userInit))
    (p := fun again => decide (again.blockChainHash = ["genesis", "h1", "h2"]))
    (by decide +kernel)
  refine ⟨again, restarted, of_decide_eq_true chain, ?_⟩
  unfold returnedRun at restarted ⊢
  apply (restart_iff (doubleNode_started returnedPayment "10") (CoinNode.leftBehind_disk ..)
    restarted).mpr
  decide +kernel

-- a payment of nothing cuts the seventh digit off, and a restart brings it back
example :
    let node := doubleNode "0.1234564"
    ∀ v ∈ balance doubleText node.balances "04a",
      settle "04a" (applied doubleText node.balances [doublePayment 1 "a" "04b" 0]) v ≠ v := by
  decide +kernel

/-- The owner of all 10 coins pays them to somebody else. -/
def payment : Block Binary64 :=
  sampleBlock 1 "genesis" "h1" [doublePayment 1 "a" "04b" 10000000]

/-- After a restart the coins are back with their first owner, though the block that moved
them is part of the chain. -/
theorem payment_undone :
    let env := doubleEnv [payment]
    let committed := (doubleNode "10").commitAll env [env.json.dump payment.toJson]
    let left := committed.state
    CoinNode.init env sampleCoinConfig 0 (doubleDisk "10") = .ok (doubleNode "10") ∧
      committed.fault = none ∧
      balance doubleText left.balances "04a" = some (.ofInt 0) ∧
      balance doubleText left.balances "04b" = some (.ofInt 10) ∧
      ∃ again, CoinNode.init env sampleCoinConfig 0 (left.disk (doubleDisk "10").userInit) =
          .ok again ∧
        again.blockChainHash = ["genesis", "h1"] ∧
        balance doubleText again.balances "04a" = some (.ofInt 10) ∧
        balance doubleText again.balances "04b" = some (.ofInt 0) := by
  intro env committed left
  obtain ⟨returned, payer, payee⟩ : committed.fault = none ∧
      balance doubleText left.balances "04a" = some (.ofInt 0) ∧
      balance doubleText left.balances "04b" = some (.ofInt 10) := by decide +kernel
  refine ⟨doubleNode_started _ _, returned, payer, payee, ?_⟩
  obtain ⟨again, restarted, facts⟩ := Result.ok_of_run
    (x := CoinNode.init env sampleCoinConfig 0 (left.disk (doubleDisk "10").userInit))
    (p := fun again => decide (again.blockChainHash = ["genesis", "h1"] ∧
      balance doubleText again.balances "04a" = some (.ofInt 10) ∧
      balance doubleText again.balances "04b" = some (.ofInt 0))) (by decide +kernel)
  exact ⟨again, restarted, of_decide_eq_true facts⟩

end Ruccoin.Coin
