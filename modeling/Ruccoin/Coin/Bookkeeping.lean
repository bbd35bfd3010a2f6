import Ruccoin.Coin.Postings
import Mathlib.Tactic.Linarith
import Mathlib.Tactic.Ring

/-!
# Double entry, and the order of transactions

What a run of `CommitProposal` calls does to the balances, over blocks whose accounts all
exist: debits and credits are posted as they should be, except that a transfer to oneself
loses its debit. Posting does not depend on the order, nor on how the transactions are cut
into blocks.
-/

namespace Ruccoin.Coin

/-! ### The sums over a list of transactions -/

/-- The sum of the values of the transactions from `a`. -/
def debits (txs : List TX) (a : String) : Amount :=
  Ledger.moved (txs.map fun tx => (tx.fromAddr, tx.value)) a

/-- The sum of the values of the transactions to `a`. -/
def credits (txs : List TX) (a : String) : Amount :=
  Ledger.moved (txs.map fun tx => (tx.toAddr, tx.value)) a

/-- The transactions to oneself, as credits. -/
def selfCredits (txs : List TX) : List (String × Amount) :=
  (txs.filter fun tx => tx.fromAddr = tx.toAddr).map fun tx => (tx.toAddr, tx.value)

/-- The sum of the values of the transactions from `a` to `a`. -/
def toSelf (txs : List TX) (a : String) : Amount := Ledger.moved (selfCredits txs) a

/-- Every balance changes by what the account received less what it sent, and the sum of
all balances stays. -/
structure DoubleEntry (t : AmountText) (s s' : Store) (txs : List TX) : Prop where
  balance_eq : ∀ a, balance t s' a = (balance t s a).map fun v => v - debits txs a + credits txs a
  total_eq : total t s' = total t s

theorem selfCredits_cons (tx : TX) (txs : List TX) :
    selfCredits (tx :: txs) =
      if tx.fromAddr = tx.toAddr then (tx.toAddr, tx.value) :: selfCredits txs
      else selfCredits txs := by
  by_cases same : tx.fromAddr = tx.toAddr
  · simp [selfCredits, same]
  · simp [selfCredits, same]

/-- What is posted on an account: its credits less its debits, with the debits of the
transfers to itself missing. -/
theorem moved_entries (txs : List TX) (a : String) :
    Ledger.moved (txs.flatMap TX.entries) a = credits txs a - debits txs a + toSelf txs a := by
  induction txs with
  | nil => rfl
  | cons tx txs ih =>
    unfold credits debits toSelf at ih ⊢
    rw [List.flatMap_cons, Ledger.moved_append, ih, List.map_cons, List.map_cons,
      Ledger.moved_cons, Ledger.moved_cons, selfCredits_cons]
    unfold TX.entries
    by_cases same : tx.fromAddr = tx.toAddr
    · -- the one entry is a credit, and the debit is made up for among `selfCredits`
      rw [if_pos same, if_pos same, Ledger.moved_cons, Ledger.moved_nil, Ledger.moved_cons, same]
      ring
    · -- a debit of the sender and a credit of the recipient
      rw [if_neg same, if_neg same, Ledger.moved_cons, Ledger.moved_cons, Ledger.moved_nil]
      split <;> split <;> ring

/-- A debit and its credit cancel, so only the transfers to oneself change the sum. -/
theorem sum_entries (txs : List TX) :
    ((txs.flatMap TX.entries).map Prod.snd).sum = ((selfCredits txs).map Prod.snd).sum := by
  induction txs with
  | nil => rfl
  | cons tx txs ih =>
    rw [List.flatMap_cons, List.map_append, List.sum_append, ih, selfCredits_cons]
    unfold TX.entries
    by_cases same : tx.fromAddr = tx.toAddr
    · rw [if_pos same, if_pos same]
      simp
    · rw [if_neg same, if_neg same]
      simp

/-- Credits that add up to nothing on every account add up to nothing. -/
theorem sum_eq_zero_of_moved {entries : List (String × Amount)}
    (none_moved : ∀ a, Ledger.moved entries a = 0) : (entries.map Prod.snd).sum = 0 := by
  have all := Ledger.sum_moved (entries.map Prod.fst).toFinset entries fun e member =>
    List.mem_toFinset.mpr (List.mem_map_of_mem member)
  rw [← all]
  exact Finset.sum_eq_zero fun a _ => none_moved a

variable {t : AmountText} {s s' : Store}

/-- Transactions that go through keep double entry exactly when no account has transfers to
itself that add up to something. -/
theorem doubleEntry_iff {txs : List TX} (named : Named t s txs)
    (posted : Posted t s s' (txs.flatMap TX.entries)) :
    DoubleEntry t s s' txs ↔ ∀ a, toSelf txs a = 0 := by
  constructor
  · intro law a
    by_cases holds : Holds t s a
    · -- the balance the law asks for is the one that was posted
      obtain ⟨v, read⟩ := Option.isSome_iff_exists.mp holds
      have stated := law.balance_eq a
      have found := posted.balance_eq a
      rw [read, Option.map_some] at stated found
      have same := Option.some.inj (found.symm.trans stated)
      rw [moved_entries] at same
      linarith
    · -- an account without a balance has no transfers to itself
      apply Ledger.moved_of_forall_ne
      rintro e member rfl
      obtain ⟨tx, listed, rfl⟩ := List.mem_map.mp member
      exact holds (named tx (List.mem_filter.mp listed).1).2
  · intro none_self
    have within : ∀ e ∈ txs.flatMap TX.entries, Holds t s e.1 := by
      rw [← (updateBlance_of_named named).2]
      exact fun e member => holds_of_mem_posts member
    refine ⟨fun a => ?_, ?_⟩
    · rw [posted.balance_eq, moved_entries, none_self]
      congr 1
      funext v
      ring
    · rw [posted.total_eq within, sum_entries, sum_eq_zero_of_moved none_self, add_zero]

/-! ### Runs of `CommitProposal` -/

/-- Over blocks whose accounts all exist every call returns, and the run keeps double entry
exactly when no account has transfers to itself that add up to something. -/
theorem double_entry_iff {env : Env} {node : CoinNode} {ps : List String} {blocks : List Block}
    (parsed : List.Forall₂ (fun p block => env.parseBlock p = .ok block) ps blocks)
    (named : Named env.amounts node.balances (blocks.flatMap Block.transxList)) :
    (node.commitAll env ps).fault = none ∧
      (DoubleEntry env.amounts node.balances (node.commitAll env ps).state.balances
          (blocks.flatMap Block.transxList) ↔
        ∀ a, toSelf (blocks.flatMap Block.transxList) a = 0) := by
  refine ⟨CoinNode.commitAll_returns node parsed named, ?_⟩
  apply doubleEntry_iff named
  have posted := CoinNode.commitAll_posted env node ps
  rw [CoinNode.transactions_of_parsed parsed, (updateBlance_of_named named).2] at posted
  exact posted

/-- A payment, and a block later its return. -/
def thereAndBack : List Block :=
  [sampleBlock 1 "genesis" "h1" [samplePayment 1 "a" "04b"],
    sampleBlock 2 "h1" "h2" [samplePayment 3 "b" "04a"]]

theorem double_entry_thereAndBack :
    DoubleEntry sampleAmountText sampleNode.balances
      (sampleNode.commitAll (sampleEnv thereAndBack)
        (thereAndBack.map fun b => (sampleEnv thereAndBack).json.dump b.toJson)).state.balances
      (thereAndBack.flatMap Block.transxList) := by
  have parsed : List.Forall₂ (fun p block => (sampleEnv thereAndBack).parseBlock p = .ok block)
      (thereAndBack.map fun b => (sampleEnv thereAndBack).json.dump b.toJson) thereAndBack :=
    .cons (by decide +kernel) (.cons (by decide +kernel) .nil)
  apply (double_entry_iff parsed (by decide +kernel)).2.mpr
  intro a
  have none_self : selfCredits (thereAndBack.flatMap Block.transxList) = [] := by decide +kernel
  rw [toSelf, none_self, Ledger.moved_nil]

/-- The owner of 10 coins pays 10 coins to the same address. -/
def selfPayment : Block := sampleBlock 1 "genesis" "h1" [samplePayment 1 "a" "04a"]

/-- The block passes the check of every node, and applying it doubles the coins. -/
theorem self_payment_mints :
    let env := sampleEnv [selfPayment]
    let p := env.json.dump selfPayment.toJson
    env.parseBlock p = .ok selfPayment ∧ sampleNode.checkProposal env p = .ok true ∧
      Named sampleAmountText sampleNode.balances selfPayment.transxList ∧
      balance sampleAmountText sampleNode.balances "04a" = some 10000000 ∧
      (sampleNode.commitAll env [p]).fault = none ∧
      balance sampleAmountText (sampleNode.commitAll env [p]).state.balances "04a" =
        some 20000000 ∧
      ¬DoubleEntry sampleAmountText sampleNode.balances
        (sampleNode.commitAll env [p]).state.balances selfPayment.transxList := by
  intro env p
  have before : balance sampleAmountText sampleNode.balances "04a" = some 10000000 := by
    decide +kernel
  have after : balance sampleAmountText (sampleNode.commitAll env [p]).state.balances "04a" =
      some 20000000 := by decide +kernel
  refine ⟨by decide +kernel, by decide +kernel, by decide +kernel, before, by decide +kernel,
    after, ?_⟩
  intro law
  have stated := law.balance_eq "04a"
  rw [before, after] at stated
  exact absurd stated (by decide +kernel)

/-! ### Convergence -/

/-- Two orders of the same transactions, each cut into blocks in any way, leave the same
balances. -/
theorem balances_converge (t : AmountText) (s : Store) (blocks blocks' : List (List TX))
    (perm : blocks.flatten.Perm blocks'.flatten) (named : Named t s blocks.flatten) :
    (Outcome.each (updateBlance t) s blocks).fault = none ∧
      (Outcome.each (updateBlance t) s blocks').fault = none ∧
      ∀ a, balance t (Outcome.each (updateBlance t) s blocks).state a =
        balance t (Outcome.each (updateBlance t) s blocks').state a := by
  have named' : Named t s blocks'.flatten := fun tx member => named tx (perm.mem_iff.mpr member)
  -- blocks are worked off like one list, and the list posts its entries
  have cut : ∀ bs : List (List TX),
      Outcome.each (updateBlance t) s bs = updateBlance t s bs.flatten :=
    fun bs => Outcome.each_flatten (updateTx t) s bs
  obtain ⟨returned, posts_eq⟩ := updateBlance_of_named named
  obtain ⟨returned', posts_eq'⟩ := updateBlance_of_named named'
  rw [cut blocks, cut blocks']
  refine ⟨returned, returned', fun a => ?_⟩
  have entries : (blocks.flatten.flatMap TX.entries).Perm (blocks'.flatten.flatMap TX.entries) :=
    perm.flatMap_right TX.entries
  rw [(updateBlance_posted s blocks.flatten).balance_eq,
    (updateBlance_posted s blocks'.flatten).balance_eq, posts_eq, posts_eq',
    Ledger.moved_perm entries]

/-- Three payments in one block, and in two blocks in another order; one is to oneself. -/
theorem balances_converge_reordered :
    let txs := [samplePayment 1 "a" "04b", samplePayment 3 "b" "04a", samplePayment 1 "a" "04a"]
    let blocks' := [[samplePayment 1 "a" "04a"],
      [samplePayment 3 "b" "04a", samplePayment 1 "a" "04b"]]
    ∀ a, balance sampleAmountText
        (Outcome.each (updateBlance sampleAmountText) sampleNode.balances [txs]).state a =
      balance sampleAmountText
        (Outcome.each (updateBlance sampleAmountText) sampleNode.balances blocks').state a := by
  intro txs blocks'
  exact (balances_converge sampleAmountText sampleNode.balances [txs] blocks' (by decide +kernel)
    (by decide +kernel)).2.2

end Ruccoin.Coin
