import Ruccoin.Coin.Node
import Ruccoin.Foundation.Ledger
import Mathlib.Data.Finset.Dedup
import Mathlib.Tactic.Linarith

/-!
# What a list of transactions posts

With amounts that are exact decimals nothing is rounded, and what `UpdateBlance` does to the
balances is posted in a ledger: a list of amounts added to accounts, which depends only on
which accounts the store holds and not on their balances.

## Main result

`updateBlance_posted`: every call, whether it returns or stops at a fault, leaves the
balances it found with the entries of `posts` added.
-/

namespace Ruccoin.Coin

/-- The sum of all balances. -/
def total (t : AmountText) (s : Store) : Amount := ∑ a ∈ s.keys.toFinset, (balance t s a).getD 0

/-- What a transaction adds to the accounts. The recipient's text is written last and was
read first, so a transfer to oneself loses its debit. -/
def TX.entries (tx : TX) : List (String × Amount) :=
  if tx.fromAddr = tx.toAddr then [(tx.toAddr, tx.value)]
  else [(tx.fromAddr, -tx.value), (tx.toAddr, tx.value)]

/-- What a list of transactions posts on a store with these accounts: it stops at the first
transaction with an account that cannot be read, which leaves its debit behind when only the
recipient's text is no balance. -/
def posts (t : AmountText) (s : Store) : List TX → List (String × Amount)
  | [] => []
  | tx :: txs =>
    if ¬Holds t s tx.fromAddr ∨ tx.toAddr ∉ s then []
    else if ¬Holds t s tx.toAddr then [(tx.fromAddr, -tx.value)]
    else tx.entries ++ posts t s txs

/-- The store `s'` has the accounts of `s`, with the entries added to their balances. -/
structure Posted (t : AmountText) (s s' : Store) (entries : List (String × Amount)) : Prop where
  mem_iff : ∀ a, a ∈ s' ↔ a ∈ s
  balance_eq : ∀ a, balance t s' a = (balance t s a).map (· + Ledger.moved entries a)

variable {t : AmountText} {s s' : Store}

namespace Posted

variable {es : List (String × Amount)}

theorem holds_iff (posted : Posted t s s' es) (a : String) : Holds t s' a ↔ Holds t s a := by
  unfold Holds
  rw [posted.balance_eq, Option.isSome_map]

/-- The sum of all balances changes by the sum of the entries. -/
theorem total_eq (posted : Posted t s s' es) (within : ∀ e ∈ es, Holds t s e.1) :
    total t s' = total t s + (es.map Prod.snd).sum := by
  have accounts : s'.keys.toFinset = s.keys.toFinset := by
    ext a
    rw [List.mem_toFinset, List.mem_toFinset]
    exact posted.mem_iff a
  -- an account without a balance has no entries, so the sum may run over all of them
  have each : ∀ a, (balance t s' a).getD 0 = (balance t s a).getD 0 + Ledger.moved es a := by
    intro a
    rw [posted.balance_eq]
    cases read : balance t s a with
    | some v => rfl
    | none =>
      have none_moved : Ledger.moved es a = 0 := by
        apply Ledger.moved_of_forall_ne
        rintro e member rfl
        have holds := within e member
        rw [Holds, read] at holds
        cases holds
      rw [none_moved]
      rfl
  unfold total
  rw [accounts]
  simp only [each, Finset.sum_add_distrib]
  rw [Ledger.sum_moved]
  intro e member
  rw [List.mem_toFinset]
  exact mem_of_holds (within e member)

end Posted

/-! ### From what is settled to what is posted -/

/-- Settling a transaction adds its entries. -/
theorem TX.settle_eq (tx : TX) (a : String) (v : Amount) :
    tx.settle a v = v + Ledger.moved tx.entries a := by
  unfold TX.settle TX.entries
  by_cases self : tx.fromAddr = tx.toAddr
  · -- a transfer to oneself is a credit only
    rw [if_pos self, Ledger.moved_cons, Ledger.moved_nil, self]
    split
    next => exact congrArg (v + ·) (add_zero tx.value).symm
    next => simp
  · rw [if_neg self, Ledger.moved_cons, Ledger.moved_cons, Ledger.moved_nil]
    by_cases credited : tx.toAddr = a
    · have sender : tx.fromAddr ≠ a := fun same => self (same.trans credited.symm)
      simp [credited, sender, Double.printed]
    · by_cases debited : tx.fromAddr = a
      · simp [credited, debited, Double.printed, sub_eq_add_neg]
      · simp [credited, debited]

/-- What is applied of a list settles as its postings, on every account with a balance. -/
theorem settle_applied (txs : List TX) {a : String} (holds : Holds t s a) (v : Amount) :
    settle a (applied t s txs) v = v + Ledger.moved (posts t s txs) a := by
  induction txs generalizing v with
  | nil => exact (add_zero v).symm
  | cons tx txs ih =>
    unfold applied posts
    split
    · exact (add_zero v).symm
    next present =>
      have sender : Holds t s tx.fromAddr := not_not.mp fun h => present (Or.inl h)
      split
      next unreadable =>
        -- the recipient is another account, so that only the debit is seen
        have other : tx.toAddr ≠ a := by
          rintro rfl
          exact unreadable holds
        have two : tx.fromAddr ≠ tx.toAddr := fun same => unreadable (same ▸ sender)
        have first : settle a [tx] v = tx.settle a v := rfl
        rw [first, tx.settle_eq, TX.entries, if_neg two, Ledger.moved_cons, Ledger.moved_cons,
          Ledger.moved_cons, if_neg other, zero_add]
      next =>
        have first : settle a (tx :: applied t s txs) v =
            settle a (applied t s txs) (tx.settle a v) := rfl
        rw [first, ih, tx.settle_eq, Ledger.moved_append, add_assoc]

theorem Settled.posted {txs : List TX} (settled : Settled t s s' (applied t s txs)) :
    Posted t s s' (posts t s txs) := by
  refine ⟨settled.mem_iff, fun a => ?_⟩
  rw [settled.balance_eq]
  cases read : balance t s a with
  | none => rfl
  | some v => exact congrArg some (settle_applied txs (holds_of_balance read) v)

theorem updateBlance_posted (s : Store) (txs : List TX) :
    Posted t s (updateBlance t s txs).state (posts t s txs) :=
  (updateBlance_settled s txs).posted

/-- Entries are posted on accounts with a balance only. -/
theorem holds_of_mem_posts {txs : List TX} {e : String × Amount} (member : e ∈ posts t s txs) :
    Holds t s e.1 := by
  induction txs with
  | nil => cases member
  | cons tx txs ih =>
    unfold posts at member
    split at member
    next => cases member
    next present =>
      have sender : Holds t s tx.fromAddr := not_not.mp fun h => present (Or.inl h)
      split at member
      next =>
        obtain rfl := List.mem_singleton.mp member
        exact sender
      next recipient =>
        rcases List.mem_append.mp member with first | rest
        · unfold TX.entries at first
          split at first
          · obtain rfl := List.mem_singleton.mp first
            exact not_not.mp recipient
          · rcases List.mem_pair.mp first with rfl | rfl
            · exact sender
            · exact not_not.mp recipient
        · exact ih rest

/-- Transactions between existing accounts post all their entries. -/
theorem posts_of_named {txs : List TX} (named : Named t s txs) :
    posts t s txs = txs.flatMap TX.entries := by
  induction txs with
  | nil => rfl
  | cons tx txs ih =>
    obtain ⟨sender, recipient⟩ := named tx List.mem_cons_self
    have found := mem_of_holds recipient
    rw [posts, if_neg (by simp [sender, found]), if_neg (by simp [recipient]),
      ih fun u member => named u (List.mem_cons_of_mem tx member), List.flatMap_cons]

/-- They all go through. -/
theorem updateBlance_of_named {txs : List TX} (named : Named t s txs) :
    (updateBlance t s txs).fault = none ∧ posts t s txs = txs.flatMap TX.entries :=
  ⟨updateBlance_returns_iff.mpr named, posts_of_named named⟩

/-- However far the calls get, the balances change by what the transactions post. -/
theorem CoinNode.commitAll_posted (env : Env) (node : CoinNode) (ps : List String) :
    Posted env.amounts node.balances (commitAll env node ps).state.balances
      (posts env.amounts node.balances (transactions env ps)) :=
  (commitAll_settled env node ps).posted

end Ruccoin.Coin
