import Ruccoin.Coin.Bookkeeping

/-!
# What the check of a block guarantees

`CheckBlock` keeps, for each sender, what is left of its balance after the transactions of
the block so far. Incoming money is not added, so what is left is the stored balance with the
values that the sender has sent in the block taken off one after the other, each difference
rounded. With exact decimals the check is a condition on the sums of these values, and while
`UpdateBlance` runs over the same block it never stores less than what the check had left.
-/

namespace Ruccoin.Coin

/-- The type of `temp_balance`. -/
abbrev TempBalance (D : Type := Amount) := AList fun _ : String => D

variable {D : Type} [Double D]

section Model

variable (t : AmountText D) (balances : Store)

/-- What the check reads as the balance of an account: what is left of it in the block, or
the stored balance of an account that has not paid yet. -/
def remaining (tempBalance : TempBalance D) (a : String) : Option D :=
  match tempBalance.lookup a with
  | some value => some value
  | none => balance t balances a

variable [Sub D]

/-- `temp_balance` after one more transaction. -/
def spend (tempBalance : TempBalance D) (tx : TX D) : TempBalance D :=
  match remaining t balances tempBalance tx.fromAddr with
  | some value => tempBalance.insert tx.fromAddr (value - tx.value)
  | none => tempBalance

/-- `temp_balance` after the first transactions of a block. -/
def spent (txs : List (TX D)) : TempBalance D := txs.foldl (spend t balances) ∅

end Model

section Condition

variable [Sub D]

/-- A balance of `a` with the value of one transaction taken off, if it is from `a`. -/
def TX.takeOff (a : String) (tx : TX D) (v : D) : D :=
  if tx.fromAddr = a then v - tx.value else v

/-- What is left of a balance of `a` after the transactions, each taken off in its turn. -/
def leftOver (a : String) (txs : List (TX D)) (v : D) : D :=
  txs.foldl (fun v tx => tx.takeOff a v) v

/-- Every sender has a balance, of which at each of its transactions enough is left. -/
structure Affordable [LT D] (t : AmountText D) (s : Store) (txs : List (TX D)) : Prop where
  senders : ∀ tx ∈ txs, Holds t s tx.fromAddr
  covered : ∀ i tx v, txs[i]? = some tx → balance t s tx.fromAddr = some v →
    ¬leftOver tx.fromAddr (txs.take i) v < tx.value

end Condition

/-! ### The loop of the check -/

section Loop

variable [Sub D] [LT D] [DecidableLT D]
variable {env : Env D} {balances : Store} {tempBalance : TempBalance D} {tx : TX D}
  {txs : List (TX D)}

theorem checkTransx_invalid (invalid : tx.validateSignature env.crypto env.amounts = false) :
    ChainState.checkTransx env balances tempBalance (tx :: txs) = .ok false := by
  rw [ChainState.checkTransx, invalid]
  rfl

/-- `stod` throws where a stored balance is no number. -/
theorem checkTransx_unread (valid : tx.validateSignature env.crypto env.amounts = true)
    (unread : remaining env.amounts balances tempBalance tx.fromAddr = none) :
    ChainState.checkTransx env balances tempBalance (tx :: txs) =
      if tx.fromAddr ∈ balances then .error .stodFailed else .ok false := by
  unfold ChainState.checkTransx
  cases paid : tempBalance.lookup tx.fromAddr with
  | some value => simp [remaining, paid] at unread
  | none =>
    simp only [remaining, paid, balance] at unread
    cases found : balances.lookup tx.fromAddr with
    | none =>
      have missing : tx.fromAddr ∉ balances := AList.lookup_eq_none.mp found
      simp [valid, missing]
    | some text =>
      have stored : tx.fromAddr ∈ balances :=
        AList.lookup_isSome.mp (Option.isSome_iff_exists.mpr ⟨text, found⟩)
      rw [found] at unread
      have read : env.amounts.stod text = none := unread
      simp [valid, stored, read]

theorem checkTransx_read {v : D}
    (valid : tx.validateSignature env.crypto env.amounts = true)
    (left : remaining env.amounts balances tempBalance tx.fromAddr = some v) :
    ChainState.checkTransx env balances tempBalance (tx :: txs) =
      if v < tx.value then .ok false
      else ChainState.checkTransx env balances (spend env.amounts balances tempBalance tx)
        txs := by
  rw [ChainState.checkTransx]
  unfold spend
  rw [left]
  cases paid : tempBalance.lookup tx.fromAddr with
  | some value =>
    obtain rfl : value = v := by simpa [remaining, paid] using left
    simp [valid]
  | none =>
    simp only [remaining, paid, balance, Option.bind_eq_some_iff] at left
    obtain ⟨text, found, read⟩ := left
    simp [valid, found, read]

/-- One turn: the transaction has to validate, and its sender to have enough left. -/
theorem checkTransx_cons :
    ChainState.checkTransx env balances tempBalance (tx :: txs) = .ok true ↔
      tx.validateSignature env.crypto env.amounts = true ∧
      (∃ v, remaining env.amounts balances tempBalance tx.fromAddr = some v ∧ ¬v < tx.value) ∧
      ChainState.checkTransx env balances (spend env.amounts balances tempBalance tx) txs =
        .ok true := by
  cases valid : tx.validateSignature env.crypto env.amounts with
  | false => simp [checkTransx_invalid valid]
  | true =>
    cases left : remaining env.amounts balances tempBalance tx.fromAddr with
    | none =>
      rw [checkTransx_unread valid left]
      split <;> simp
    | some v =>
      rw [checkTransx_read valid left]
      by_cases short : v < tx.value
      · simp [short]
      · simp [short]

omit [LT D] [DecidableLT D] in
theorem remaining_spend (t : AmountText D) (balances : Store) (tempBalance : TempBalance D)
    (tx : TX D) (a : String) :
    remaining t balances (spend t balances tempBalance tx) a =
      (remaining t balances tempBalance a).map (tx.takeOff a) := by
  unfold spend TX.takeOff
  cases left : remaining t balances tempBalance tx.fromAddr with
  | none =>
    -- without a balance there is nothing to write down
    by_cases here : tx.fromAddr = a
    · rw [← here, left]
      rfl
    · cases remaining t balances tempBalance a <;> simp [here]
  | some v =>
    by_cases here : tx.fromAddr = a
    · subst here
      rw [left, remaining, AList.lookup_insert]
      simp
    · have other : ¬a = tx.fromAddr := fun same => here same.symm
      rw [remaining, AList.lookup_insert_ne other]
      cases found : remaining t balances tempBalance a <;> simpa [here, remaining] using found

/-- The loop accepts when every transaction validates and its sender has enough left of what
it had at the start. -/
theorem checkTransx_iff :
    ChainState.checkTransx env balances tempBalance txs = .ok true ↔
      (∀ tx ∈ txs, tx.validateSignature env.crypto env.amounts = true) ∧
      ∀ i tx, txs[i]? = some tx →
        ∃ v, remaining env.amounts balances tempBalance tx.fromAddr = some v ∧
          ¬leftOver tx.fromAddr (txs.take i) v < tx.value := by
  induction txs generalizing tempBalance with
  | nil => simp [ChainState.checkTransx]
  | cons tx txs ih =>
    rw [checkTransx_cons, ih]
    -- in the later turns the first transaction has been taken off
    have later : ∀ (i : Nat) (u : TX D),
        (∃ v, remaining env.amounts balances (spend env.amounts balances tempBalance tx)
            u.fromAddr = some v ∧ ¬leftOver u.fromAddr (txs.take i) v < u.value) ↔
          ∃ v, remaining env.amounts balances tempBalance u.fromAddr = some v ∧
            ¬leftOver u.fromAddr ((tx :: txs).take (i + 1)) v < u.value := by
      intro i u
      rw [remaining_spend, List.take_succ_cons]
      cases remaining env.amounts balances tempBalance u.fromAddr with
      | none => simp
      | some v => simp [leftOver]
    have first : (∃ v, remaining env.amounts balances tempBalance tx.fromAddr = some v ∧
          ¬v < tx.value) ↔
        ∃ v, remaining env.amounts balances tempBalance tx.fromAddr = some v ∧
          ¬leftOver tx.fromAddr ((tx :: txs).take 0) v < tx.value := Iff.rfl
    constructor
    · rintro ⟨valid, covered, valids, rest⟩
      refine ⟨List.forall_mem_cons.mpr ⟨valid, valids⟩, fun i u at_i => ?_⟩
      cases i with
      | zero =>
        obtain rfl : tx = u := by simpa using at_i
        exact first.mp covered
      | succ i => exact (later i u).mp (rest i u (by simpa using at_i))
    · rintro ⟨valids, covered⟩
      obtain ⟨valid, valids⟩ := List.forall_mem_cons.mp valids
      refine ⟨valid, first.mpr (covered 0 tx rfl), valids, fun i u at_i => ?_⟩
      exact (later i u).mpr (covered (i + 1) u (by simpa using at_i))

/-- The loop stops with a fault at a sender whose stored balance is no number, when all
transactions before it pass. -/
theorem checkTransx_raises_iff :
    (∃ e, ChainState.checkTransx env balances tempBalance txs = .error e) ↔
      ∃ before tx after, txs = before ++ tx :: after ∧
        ChainState.checkTransx env balances tempBalance before = .ok true ∧
        tx.validateSignature env.crypto env.amounts = true ∧
        tx.fromAddr ∈ balances ∧ remaining env.amounts balances tempBalance tx.fromAddr = none := by
  constructor
  · rintro ⟨e, raised⟩
    induction txs generalizing tempBalance with
    | nil => cases raised
    | cons tx txs ih =>
      cases valid : tx.validateSignature env.crypto env.amounts with
      | false =>
        rw [checkTransx_invalid valid] at raised
        cases raised
      | true =>
        cases left : remaining env.amounts balances tempBalance tx.fromAddr with
        | none =>
          rw [checkTransx_unread valid left] at raised
          split at raised
          -- an account without an entry is refused, and only a text that is no number raises
          next stored => exact ⟨[], tx, txs, rfl, rfl, valid, stored, left⟩
          · cases raised
        | some v =>
          rw [checkTransx_read valid left] at raised
          split at raised
          · cases raised
          next enough =>
            obtain ⟨before, u, after, rfl, passed, validU, stored, unread⟩ := ih raised
            refine ⟨tx :: before, u, after, rfl, ?_, validU, stored, ?_⟩
            · exact checkTransx_cons.mpr ⟨valid, ⟨v, left, enough⟩, passed⟩
            · rwa [remaining_spend, Option.map_eq_none_iff] at unread
  · rintro ⟨before, tx, after, rfl, passed, valid, stored, unread⟩
    induction before generalizing tempBalance with
    | nil =>
      rw [List.nil_append, checkTransx_unread valid unread, if_pos stored]
      exact ⟨.stodFailed, rfl⟩
    | cons u before ih =>
      obtain ⟨validU, ⟨v, left, enough⟩, rest⟩ := checkTransx_cons.mp passed
      rw [List.cons_append, checkTransx_read validU left, if_neg enough]
      apply ih rest
      rw [remaining_spend, unread]
      rfl

/-- At the start of a block everybody has the stored balance left. -/
theorem checkTransx_start_iff :
    ChainState.checkTransx env balances ∅ txs = .ok true ↔
      (∀ tx ∈ txs, tx.validateSignature env.crypto env.amounts = true) ∧
      Affordable env.amounts balances txs := by
  have start : ∀ a, remaining env.amounts balances ∅ a = balance env.amounts balances a :=
    fun a => rfl
  rw [checkTransx_iff]
  simp only [start]
  constructor
  · rintro ⟨valids, covered⟩
    refine ⟨valids, fun tx member => ?_, fun i tx v at_i read => ?_⟩
    · obtain ⟨i, at_i⟩ := List.mem_iff_getElem?.mp member
      obtain ⟨v, read, -⟩ := covered i tx at_i
      exact holds_of_balance read
    · obtain ⟨v', read', enough⟩ := covered i tx at_i
      rw [read] at read'
      obtain rfl := Option.some.inj read'
      exact enough
  · rintro ⟨valids, holds, covered⟩
    refine ⟨valids, fun i tx at_i => ?_⟩
    obtain ⟨v, read⟩ := Option.isSome_iff_exists.mp (holds tx (List.mem_of_getElem? at_i))
    exact ⟨v, read, covered i tx v at_i read⟩

/-- `CheckBlock` accepts exactly the blocks on the tip whose transactions validate and whose
senders can afford them. -/
theorem checkBlock_iff_affordable (env : Env D) (st : ChainState) (block : Block D) :
    st.checkBlock env block = .ok true ↔
      block.header.prevHash = st.tip ∧
      (∀ tx ∈ block.transxList, tx.validateSignature env.crypto env.amounts = true) ∧
      Affordable env.amounts st.balances block.transxList := by
  unfold ChainState.checkBlock
  by_cases linked : block.header.prevHash = st.tip
  · rw [if_neg (not_not.mpr linked), checkTransx_start_iff]
    exact (and_iff_right linked).symm
  · rw [if_pos linked]
    simp [linked]

end Loop

/-! ### Exact decimals -/

theorem debits_cons (tx : TX) (txs : List TX) (a : String) :
    debits (tx :: txs) a = (if tx.fromAddr = a then tx.value else 0) + debits txs a := by
  unfold debits
  rw [List.map_cons, Ledger.moved_cons]

theorem TX.takeOff_eq (a : String) (tx : TX) (v : Amount) :
    tx.takeOff a v = v - if tx.fromAddr = a then tx.value else 0 := by
  unfold TX.takeOff
  split
  · rfl
  · exact (sub_zero v).symm

/-- What is left of a balance is the balance less the sum of what was sent. -/
theorem leftOver_eq (a : String) (txs : List TX) (v : Amount) :
    leftOver a txs v = v - debits txs a := by
  induction txs generalizing v with
  | nil => exact (sub_zero v).symm
  | cons tx txs ih =>
    have first : leftOver a (tx :: txs) v = leftOver a txs (tx.takeOff a v) := rfl
    rw [first, ih, tx.takeOff_eq, debits_cons, sub_sub]

theorem debits_take_succ {txs : List TX} {i : Nat} {tx : TX} (at_i : txs[i]? = some tx) :
    debits (txs.take (i + 1)) tx.fromAddr = debits (txs.take i) tx.fromAddr + tx.value := by
  rw [List.take_add_one, at_i]
  simp [debits, Ledger.moved_append, Ledger.moved_cons]

/-- `CheckBlock` accepts exactly the blocks on the tip whose transactions validate, whose
senders have balances, and in which no prefix of the list spends more of a sender's balance
than is stored. -/
theorem checkBlock_iff (env : Env) (st : ChainState) (block : Block) :
    st.checkBlock env block = .ok true ↔
      block.header.prevHash = st.tip ∧
      (∀ tx ∈ block.transxList, tx.validateSignature env.crypto env.amounts = true) ∧
      (∀ tx ∈ block.transxList, Holds env.amounts st.balances tx.fromAddr) ∧
      ∀ i tx v, block.transxList[i]? = some tx →
        balance env.amounts st.balances tx.fromAddr = some v →
          debits (block.transxList.take (i + 1)) tx.fromAddr ≤ v := by
  have enough : ∀ {i tx} (v : Amount), block.transxList[i]? = some tx →
      (¬leftOver tx.fromAddr (block.transxList.take i) v < tx.value ↔
        debits (block.transxList.take (i + 1)) tx.fromAddr ≤ v) := by
    intro i tx v at_i
    rw [debits_take_succ at_i, leftOver_eq, not_lt, le_sub_iff_add_le, add_comm]
  rw [checkBlock_iff_affordable]
  constructor
  · rintro ⟨onTip, valid, senders, covered⟩
    exact ⟨onTip, valid, senders, fun i tx v at_i read =>
      (enough v at_i).mp (covered i tx v at_i read)⟩
  · rintro ⟨onTip, valid, senders, covered⟩
    exact ⟨onTip, valid, senders, fun i tx v at_i read =>
      (enough v at_i).mpr (covered i tx v at_i read)⟩

/-! ### The check and the update side by side -/

/-- What relates the two loops between transactions: the check has nothing negative left,
and no account stores less than what the check has left of it. -/
structure Covers (t : AmountText) (balances : Store) (tempBalance : TempBalance)
    (s : Store) : Prop where
  holds_iff : ∀ a, Holds t s a ↔ (remaining t balances tempBalance a).isSome
  nonneg : ∀ a v, remaining t balances tempBalance a = some v → 0 ≤ v
  covered : ∀ a v stored, remaining t balances tempBalance a = some v →
    balance t s a = some stored → v ≤ stored

namespace Covers

variable {t : AmountText} {balances s : Store} {tempBalance : TempBalance} {tx : TX}

theorem start (nonneg : ∀ a v, balance t balances a = some v → 0 ≤ v) :
    Covers t balances ∅ balances where
  holds_iff _ := Iff.rfl
  nonneg := nonneg
  covered _ _ _ left read := le_of_eq (Option.some.inj (left.symm.trans read))

/-- What is left of an account that still holds a balance. -/
theorem stored {a : String} {v : Amount} (covers : Covers t balances tempBalance s)
    (left : remaining t balances tempBalance a = some v) :
    ∃ stored, balance t s a = some stored ∧ v ≤ stored := by
  have holds : Holds t s a := (covers.holds_iff a).mpr (by rw [left]; rfl)
  obtain ⟨stored, read⟩ := Option.isSome_iff_exists.mp holds
  exact ⟨stored, read, covers.covered a v stored left read⟩

theorem balance_nonneg {a : String} {stored : Amount} (covers : Covers t balances tempBalance s)
    (read : balance t s a = some stored) : 0 ≤ stored := by
  have holds : Holds t s a := by rw [Holds, read]; rfl
  obtain ⟨v, left⟩ := Option.isSome_iff_exists.mp ((covers.holds_iff a).mp holds)
  exact le_trans (covers.nonneg a v left) (covers.covered a v stored left read)

/-- A transaction leaves at least what the check leaves of a smaller balance. -/
theorem takeOff_le_settle (nonneg : 0 ≤ tx.value) (a : String) {u stored : Amount}
    (bound : u ≤ stored) : tx.takeOff a u ≤ tx.settle a stored := by
  rw [tx.takeOff_eq, tx.settle_eq]
  unfold TX.entries
  by_cases self : tx.fromAddr = tx.toAddr
  · -- a transfer to oneself is a credit only
    rw [if_pos self, Ledger.moved_cons, Ledger.moved_nil, self]
    split <;> linarith
  · rw [if_neg self, Ledger.moved_cons, Ledger.moved_cons, Ledger.moved_nil]
    split <;> split <;> linarith

/-- A transaction that the check lets pass is applied without a fault, and keeps the
relation. -/
theorem step (covers : Covers t balances tempBalance s) (nonneg : 0 ≤ tx.value)
    (recipient : Holds t s tx.toAddr) {v : Amount}
    (left : remaining t balances tempBalance tx.fromAddr = some v) (enough : tx.value ≤ v) :
    (updateTx t s tx).fault = none ∧
      Covers t balances (spend t balances tempBalance tx) (updateTx t s tx).state := by
  have sender : Holds t s tx.fromAddr := (covers.holds_iff _).mpr (by rw [left]; rfl)
  obtain ⟨done, settled⟩ := updateTx_of_holds sender recipient
  refine ⟨done, ⟨fun a => ?_, fun a w after => ?_, fun a w stored after read => ?_⟩⟩
  · rw [settled.holds_iff, covers.holds_iff, remaining_spend, Option.isSome_map]
  · rw [remaining_spend, Option.map_eq_some_iff] at after
    obtain ⟨u, before, rfl⟩ := after
    have bound := covers.nonneg a u before
    rw [tx.takeOff_eq]
    split
    next here =>
      -- the sender had enough left
      rw [← here, left] at before
      obtain rfl := Option.some.inj before
      exact sub_nonneg.mpr enough
    next => rwa [sub_zero]
  · rw [remaining_spend, Option.map_eq_some_iff] at after
    obtain ⟨u, before, rfl⟩ := after
    rw [settled.balance_eq, Option.map_eq_some_iff] at read
    obtain ⟨old, readOld, rfl⟩ := read
    exact takeOff_le_settle nonneg a (covers.covered a u old before readOld)

/-- Over accepted transactions the relation is kept to the end. -/
theorem run {env : Env} {txs : List TX} (covers : Covers env.amounts balances tempBalance s)
    (accepted : ChainState.checkTransx env balances tempBalance txs = .ok true)
    (nonneg : ∀ tx ∈ txs, 0 ≤ tx.value)
    (recipients : ∀ tx ∈ txs, Holds env.amounts s tx.toAddr) :
    (updateBlance env.amounts s txs).fault = none ∧
      Covers env.amounts balances (txs.foldl (spend env.amounts balances) tempBalance)
        (updateBlance env.amounts s txs).state := by
  induction txs generalizing tempBalance s with
  | nil => exact ⟨rfl, covers⟩
  | cons tx txs ih =>
    obtain ⟨-, ⟨v, left, enough⟩, rest⟩ := checkTransx_cons.mp accepted
    obtain ⟨done, next⟩ := covers.step (nonneg tx List.mem_cons_self)
      (recipients tx List.mem_cons_self) left (not_lt.mp enough)
    rw [updateBlance_cons, Outcome.andThen_of_none done, List.foldl_cons]
    apply ih next rest fun u member => nonneg u (List.mem_cons_of_mem tx member)
    intro u member
    rw [next.holds_iff, remaining_spend, Option.isSome_map, ← covers.holds_iff]
    exact recipients u (List.mem_cons_of_mem tx member)

end Covers

/-- The loop cut in two: the later transactions are checked against what the earlier ones
left. -/
theorem checkTransx_append {env : Env} {balances : Store} {tempBalance : TempBalance}
    {pre post : List TX} :
    ChainState.checkTransx env balances tempBalance (pre ++ post) = .ok true ↔
      ChainState.checkTransx env balances tempBalance pre = .ok true ∧
      ChainState.checkTransx env balances
        (pre.foldl (spend env.amounts balances) tempBalance) post = .ok true := by
  induction pre generalizing tempBalance with
  | nil => simp [ChainState.checkTransx]
  | cons tx pre ih =>
    rw [List.cons_append, checkTransx_cons, checkTransx_cons, ih, List.foldl_cons]
    simp only [and_assoc]

/-- When a block that was accepted is applied to balances of which none is negative, its
recipients all there and its values not negative, every sender has at least what the check
had left of it, which is at least what it sends, and no account gets below zero. -/
theorem update_covered (env : Env) (st : ChainState) (block : Block)
    (nonneg : ∀ a v, balance env.amounts st.balances a = some v → 0 ≤ v)
    (accepted : st.checkBlock env block = .ok true)
    (recipients : ∀ tx ∈ block.transxList, Holds env.amounts st.balances tx.toAddr)
    (values : ∀ tx ∈ block.transxList, 0 ≤ tx.value)
    (pre post : List TX) (tx : TX) (split : block.transxList = pre ++ tx :: post) :
    (∃ stored left,
        balance env.amounts (updateBlance env.amounts st.balances pre).state tx.fromAddr =
          some stored ∧
        remaining env.amounts st.balances (spent env.amounts st.balances pre) tx.fromAddr =
          some left ∧
        left ≤ stored ∧ tx.value ≤ left) ∧
      (updateBlance env.amounts st.balances (pre ++ [tx])).fault = none ∧
      ∀ a v, balance env.amounts
          (updateBlance env.amounts st.balances (pre ++ [tx])).state a = some v → 0 ≤ v := by
  have looped : ChainState.checkTransx env st.balances ∅ (pre ++ tx :: post) = .ok true := by
    unfold ChainState.checkBlock at accepted
    split_ifs at accepted
    · cases accepted
    · rw [← split]
      exact accepted
  have earlier : ∀ u ∈ pre ++ [tx], u ∈ block.transxList := by
    intro u member
    rw [split, List.append_cons]
    exact List.mem_append_left _ member
  -- the loop has got through the transactions before, and then through this one
  obtain ⟨before, here⟩ := checkTransx_append.mp looped
  obtain ⟨valid, ⟨left, read, enough⟩, -⟩ := checkTransx_cons.mp here
  have covers := Covers.start nonneg
  constructor
  · obtain ⟨-, between⟩ := covers.run before
      (fun u member => values u (earlier u (List.mem_append_left _ member)))
      (fun u member => recipients u (earlier u (List.mem_append_left _ member)))
    obtain ⟨stored, found, bound⟩ := between.stored read
    exact ⟨stored, left, found, read, bound, not_lt.mp enough⟩
  · have through : ChainState.checkTransx env st.balances ∅ (pre ++ [tx]) = .ok true :=
      checkTransx_append.mpr ⟨before, checkTransx_cons.mpr ⟨valid, ⟨left, read, enough⟩, rfl⟩⟩
    obtain ⟨done, after⟩ := covers.run through (fun u member => values u (earlier u member))
      (fun u member => recipients u (earlier u member))
    exact ⟨done, fun a v found => after.balance_nonneg found⟩

/-- It is enough to look at the accounts of the store. -/
theorem nonneg_of_keys {t : AmountText} {s : Store}
    (nonneg : ∀ a ∈ s.keys, 0 ≤ (balance t s a).getD 0) :
    ∀ a v, balance t s a = some v → 0 ≤ v := by
  intro a v read
  have present : a ∈ s := mem_of_holds (t := t) (by rw [Holds, read]; rfl)
  have bound := nonneg a present
  rwa [read] at bound

/-- The account `04a` has 20, and pays 10 to somebody else and then 10 to itself. -/
def twoPayments : Block :=
  sampleBlock 1 "genesis" "h1" [samplePayment 1 "a" "04b", samplePayment 1 "a" "04a"]

theorem update_covered_twoPayments :
    let pre := [samplePayment 1 "a" "04b"]
    ∃ stored left,
      balance sampleAmountText (updateBlance sampleAmountText richNode.balances pre).state
          "04a" = some stored ∧
        remaining sampleAmountText richNode.balances
          (spent sampleAmountText richNode.balances pre) "04a" = some left ∧
        left ≤ stored ∧ 10000000 ≤ left := by
  intro pre
  exact (update_covered (sampleEnv [twoPayments]) richNode.toChainState twoPayments
    (nonneg_of_keys (by decide +kernel)) (by decide +kernel) (by decide +kernel)
    (by decide +kernel) pre [] (samplePayment 1 "a" "04a") rfl).1

/-! ### Examples with doubles -/

/-- SHA-256 of what is signed in payments from `04a` to `04b`: of 0.1 in each of three
seconds, of nothing, and of -10. -/
def doubleDigests : List (String × String) :=
  [("104a04b0.1", "a88d5921678ccac356bc9a90c96d11ed110ce2a8d94e737ea28a60dd7699872e"),
    ("204a04b0.1", "eba0ec8898e3aea0f999d680139c1987eadb0ffcc1960f3c5f2b2d55c338771d"),
    ("304a04b0.1", "0f7a1f93ae84833898a32f9abb7f805ef8a76dc8bc9f23fc9adf811bc73e0d46"),
    ("104a04b0", "7686d089aad481303dfd3bcfa8f88c71f3ac5ebc12f0c61f9f0db719bf8405f8"),
    ("104a04b-10", "d01c97c1cc3ab2df0305d887c1052fb3248476eecccb2cc37ddf0cf01e9900ba")]

def doubleCrypto : Crypto := sampleCryptoWith (doubleDigests ++ sampleDigests)

def doubleEnv (blocks : List (Block Binary64)) : Env Binary64 where
  crypto := doubleCrypto
  amounts := doubleText
  json := sampleJsonTextWith Binary64.significant blocks
  creatable := (sampleEnv []).creatable

/-- A signed payment of a number of millionths from the owner of the key. -/
def doublePayment (timeStamp : UInt64) (key toAddr : String) (millionths : Int) : TX Binary64 :=
  let tx : TX Binary64 :=
    { timeStamp, fromAddr := "04" ++ key, toAddr, value := .ofMillionths millionths,
      signature := "" }
  { tx with signature := tx.calSignature doubleCrypto doubleText key }

/-- A node on which the account `04a` has what the text says and the account `04b` nothing. -/
def doubleNode (text : String) : CoinNode Binary64 where
  balances := readUserData (some ("a,04a," ++ text ++ "\nb,04b,0\n")) ∅
  blockChainHash := ["genesis"]
  rooted := genesis_rooted
  txPool := .empty
  blockchain := []

/-- Three payments of 0.1. -/
def threeTenths : List (TX Binary64) :=
  [1, 2, 3].map fun second => doublePayment second "a" "04b" 100000

-- 0.1 can be taken off 0.3 twice, and what is left is less than 0.1
example :
    let block := sampleBlock 1 "genesis" "h1" threeTenths
    (doubleNode "0.3").checkBlock (doubleEnv []) block = .ok false ∧
      (doubleNode "0.4").checkBlock (doubleEnv []) block = .ok true := by
  decide +kernel

end Ruccoin.Coin
