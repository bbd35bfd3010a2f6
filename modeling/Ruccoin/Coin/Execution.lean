import Ruccoin.Coin.Check
import Ruccoin.Coin.Run

/-!
# Applying a block that was accepted

`CheckBlock` looks at the senders only, `UpdateBlance` at the recipients as well. In an
accepted block every sender has a balance, so it is the first recipient without one that
stops the update. The transactions before it stay applied. A value may be negative, and the
recipient of such a transaction pays; it may also be no number, or too small to be seen in a
balance that is printed with six digits.
-/

namespace Ruccoin.Coin

variable {D : Type} [Add D] [Sub D] [Double D] {t : AmountText D} {s : Store}
  {txs : List (TX D)}

/-! ### Where the update stops -/

theorem updateTx_assertFailed_iff {tx : TX D} :
    (updateTx t s tx).fault = some .assertFailed ↔ tx.fromAddr ∉ s ∨ tx.toAddr ∉ s := by
  rw [← AList.lookup_eq_none, ← AList.lookup_eq_none]
  unfold updateTx
  cases foundFrom : s.lookup tx.fromAddr with
  | none => simp
  | some fromText =>
    cases foundTo : s.lookup tx.toAddr with
    | none => simp
    | some toText =>
      -- both texts were found, so that only `stod` can stop the call
      cases readFrom : t.stod fromText with
      | none => simp [readFrom]
      | some fromValue =>
        cases readTo : t.stod toText with
        | none => simp [readFrom, readTo]
        | some toValue => simp [readFrom, readTo]

/-- An assertion fails at the first transaction that does not go through, which names an
account that is not in the store and writes nothing. -/
theorem updateBlance_assertFailed (stopped : (updateBlance t s txs).fault = some .assertFailed) :
    ∃ pre tx post, txs = pre ++ tx :: post ∧ Named t s pre ∧
      (tx.fromAddr ∉ s ∨ tx.toAddr ∉ s) ∧
      (updateBlance t s txs).state = (updateBlance t s pre).state := by
  obtain ⟨pre, tx, post, rfl, done, here, state⟩ := Outcome.each_stopped (updateTx t) stopped
  have settled := updateBlance_settled (t := t) s pre
  have missing := updateTx_assertFailed_iff.mp here
  have unread : ¬Holds t (updateBlance t s pre).state tx.fromAddr ∨
      tx.toAddr ∉ (updateBlance t s pre).state :=
    missing.imp_left fun absent holds => absent (mem_of_holds holds)
  refine ⟨pre, tx, post, rfl, updateBlance_returns_iff.mp done, ?_,
    state.trans (updateTx_of_missing unread).2⟩
  rw [← settled.mem_iff, ← settled.mem_iff]
  exact missing

theorem updateBlance_of_missing {pre post : List (TX D)} {tx : TX D} (named : Named t s pre)
    (missing : tx.fromAddr ∉ s ∨ tx.toAddr ∉ s) :
    (updateBlance t s (pre ++ tx :: post)).fault = some .assertFailed := by
  have settled := updateBlance_settled (t := t) s pre
  have done := updateBlance_returns_iff.mpr named
  have fails : (updateTx t (updateBlance t s pre).state tx).fault = some .assertFailed := by
    rw [updateTx_assertFailed_iff, settled.mem_iff, settled.mem_iff]
    exact missing
  rw [updateBlance_append, Outcome.andThen_of_none done, updateBlance_cons,
    Outcome.andThen_of_some fails]
  exact fails

/-! ### Accepted blocks -/

/-- When all senders have balances, an assertion fails exactly when the first recipient
without a balance has no entry at all. -/
theorem assertFailed_iff_recipient (senders : ∀ tx ∈ txs, Holds t s tx.fromAddr) :
    (updateBlance t s txs).fault = some .assertFailed ↔
      ∃ tx, txs.find? (fun tx => ¬Holds t s tx.toAddr) = some tx ∧ tx.toAddr ∉ s := by
  constructor
  · intro stopped
    obtain ⟨pre, tx, post, rfl, named, missing, -⟩ := updateBlance_assertFailed stopped
    have sender := senders tx (List.mem_append_right _ List.mem_cons_self)
    have recipient : tx.toAddr ∉ s := missing.resolve_left (not_not.mpr (mem_of_holds sender))
    refine ⟨tx, ?_, recipient⟩
    rw [List.find?_eq_some_iff_append]
    refine ⟨decide_eq_true fun holds => recipient (mem_of_holds holds), pre, post, rfl, ?_⟩
    intro u member
    simpa using (named u member).2
  · rintro ⟨tx, found, recipient⟩
    obtain ⟨-, pre, post, rfl, others⟩ := List.find?_eq_some_iff_append.mp found
    refine updateBlance_of_missing (fun u member => ?_) (Or.inr recipient)
    exact ⟨senders u (List.mem_append_left _ member), by simpa using others u member⟩

/-- What an account is credited with: each value sent to it added in its turn, and the sum
printed. -/
def receive (a : String) (txs : List (TX D)) (v : D) : D :=
  txs.foldl (fun v tx => if tx.toAddr = a then Double.printed (v + tx.value) else v) v

/-- What becomes of the balance of an account that sends nothing: the values sent to it are
added, up to the first recipient without a balance. -/
theorem settle_applied_of_unsent {a : String} (senders : ∀ tx ∈ txs, Holds t s tx.fromAddr)
    (holds : Holds t s a) (unsent : ∀ tx ∈ txs, tx.fromAddr ≠ a) (v : D) :
    settle a (applied t s txs) v =
      receive a (txs.takeWhile fun tx => Holds t s tx.toAddr) v := by
  induction txs generalizing v with
  | nil => rfl
  | cons tx txs ih =>
    have sender := senders tx List.mem_cons_self
    have other := unsent tx List.mem_cons_self
    have turn : tx.settle a v = if tx.toAddr = a then Double.printed (v + tx.value) else v := by
      rw [TX.settle, if_neg other]
    unfold applied
    by_cases recipient : Holds t s tx.toAddr
    · have present := mem_of_holds recipient
      rw [if_neg (by simp [sender, present]), if_neg (not_not.mpr recipient),
        List.takeWhile_cons_of_pos (by simpa using recipient)]
      have rest := ih (fun u member => senders u (List.mem_cons_of_mem tx member))
        (fun u member => unsent u (List.mem_cons_of_mem tx member)) (tx.settle a v)
      rw [turn] at rest
      unfold settle at rest ⊢
      unfold receive at rest ⊢
      rw [List.foldl_cons, List.foldl_cons, turn]
      exact rest
    · -- nothing from here on is credited
      rw [List.takeWhile_cons_of_neg (by simpa using recipient)]
      split
      · rfl
      · have elsewhere : tx.toAddr ≠ a := by
          rintro rfl
          exact recipient holds
        have only : settle a [tx] v = tx.settle a v := rfl
        rw [only, turn, if_neg elsewhere]
        rfl

/-- A balance that is the same as before, or at least that. What is no number is not at least
anything. -/
def NotLess [LE D] (v v' : D) : Prop := v' = v ∨ v ≤ v'

instance [LE D] [DecidableEq D] [DecidableLE D] (v v' : D) : Decidable (NotLess v v') :=
  inferInstanceAs (Decidable (v' = v ∨ v ≤ v'))

section Accepted

variable [LT D] [DecidableLT D]

omit [Add D] in
theorem senders_of_accepted {env : Env D} {st : ChainState} {block : Block D}
    (accepted : st.checkBlock env block = .ok true) :
    ∀ tx ∈ block.transxList, Holds env.amounts st.balances tx.fromAddr :=
  ((checkBlock_iff_affordable env st block).mp accepted).2.2.senders

/-- `UpdateBlance` gets through an accepted block without a failed assertion exactly when
the first recipient that has no readable balance, if there is one, has an entry. Where every
entry is a balance it returns exactly when all recipients have entries. -/
theorem executable_iff (env : Env D) (st : ChainState) (block : Block D)
    (accepted : st.checkBlock env block = .ok true) :
    ((updateBlance env.amounts st.balances block.transxList).fault ≠ some .assertFailed ↔
        ∀ tx, block.transxList.find? (fun tx => ¬Holds env.amounts st.balances tx.toAddr) =
          some tx → tx.toAddr ∈ st.balances) ∧
      ((∀ a ∈ st.balances, Holds env.amounts st.balances a) →
        ((updateBlance env.amounts st.balances block.transxList).fault = none ↔
          ∀ tx ∈ block.transxList, tx.toAddr ∈ st.balances)) := by
  have senders := senders_of_accepted accepted
  constructor
  · rw [ne_eq, assertFailed_iff_recipient senders]
    push Not
    rfl
  · intro readable
    rw [updateBlance_returns_iff]
    constructor
    · exact fun named tx member => mem_of_holds (named tx member).2
    · exact fun present tx member => ⟨senders tx member, readable _ (present tx member)⟩

/-- Over an accepted block the balance of an account that signed nothing in it does not go
down exactly when it does not go down as the values sent to it are added, each in its turn,
up to the first recipient without a balance. -/
theorem only_signers_lose_iff [LE D] (env : Env D) (st : ChainState) (block : Block D)
    (accepted : st.checkBlock env block = .ok true) (a : String) (v : D)
    (unsent : ∀ tx ∈ block.transxList, tx.fromAddr ≠ a)
    (stored : balance env.amounts st.balances a = some v) :
    (∃ v', balance env.amounts
        (updateBlance env.amounts st.balances block.transxList).state a = some v' ∧
          NotLess v v') ↔
      NotLess v (receive a (block.transxList.takeWhile fun tx =>
        Holds env.amounts st.balances tx.toAddr) v) := by
  have settled := updateBlance_settled (t := env.amounts) st.balances block.transxList
  rw [settled.balance_eq, stored, Option.map_some,
    settle_applied_of_unsent (senders_of_accepted accepted) (holds_of_balance stored) unsent]
  simp

end Accepted

/-! ### Exact decimals -/

/-- Exact decimals that are received add up. -/
theorem receive_eq (a : String) (txs : List TX) (v : Amount) :
    receive a txs v = v + credits txs a := by
  induction txs generalizing v with
  | nil => exact (add_zero v).symm
  | cons tx txs ih =>
    have turn : receive a (tx :: txs) v =
        receive a txs (if tx.toAddr = a then v + tx.value else v) := rfl
    rw [turn, ih]
    unfold credits
    rw [List.map_cons, Ledger.moved_cons]
    split
    · exact add_assoc ..
    · rw [zero_add]

/-- Of exact decimals those that do not add up to something negative take nothing away. -/
theorem notLess_receive_iff (a : String) (txs : List TX) (v : Amount) :
    NotLess v (receive a txs v) ↔ 0 ≤ credits txs a := by
  unfold NotLess
  rw [receive_eq]
  constructor
  · rintro (same | more)
    · exact le_of_eq (add_eq_left.mp same).symm
    · exact (le_add_iff_nonneg_right v).mp more
  · exact fun nonneg => Or.inr ((le_add_iff_nonneg_right v).mpr nonneg)

/-- What stays behind when an assertion fails: the transactions before the one that does not
go through are applied in full, and nothing of it or of the later ones. The balances are
those before the call exactly when what was applied cancels out on every account. -/
theorem stopped_update (t : AmountText) (s : Store) (txs : List TX)
    (stopped : (updateBlance t s txs).fault = some .assertFailed) :
    ∃ pre tx post, txs = pre ++ tx :: post ∧ (tx.fromAddr ∉ s ∨ tx.toAddr ∉ s) ∧
      (updateBlance t s pre).fault = none ∧
      (updateBlance t s txs).state = (updateBlance t s pre).state ∧
      (∀ a, balance t (updateBlance t s txs).state a =
        (balance t s a).map (· + Ledger.moved (pre.flatMap TX.entries) a)) ∧
      ((∀ a, balance t (updateBlance t s txs).state a = balance t s a) ↔
        ∀ a, Holds t s a → Ledger.moved (pre.flatMap TX.entries) a = 0) := by
  -- up to the assertion the update is that of the transactions before
  obtain ⟨pre, tx, post, split, named, missing, state⟩ := updateBlance_assertFailed stopped
  obtain ⟨done, entries⟩ := updateBlance_of_named named
  have posted := updateBlance_posted (t := t) s pre
  rw [entries, ← state] at posted
  refine ⟨pre, tx, post, split, missing, done, state, posted.balance_eq, ?_⟩
  constructor
  · intro unchanged a holds
    obtain ⟨v, read⟩ := Option.isSome_iff_exists.mp holds
    have after := (posted.balance_eq a).symm.trans (unchanged a)
    rw [read, Option.map_some, Option.some.injEq] at after
    exact add_eq_left.mp after
  · intro cancels a
    rw [posted.balance_eq]
    cases read : balance t s a with
    | none => rfl
    | some v =>
      have holds : Holds t s a := by rw [Holds, read]; rfl
      rw [Option.map_some, cancels a holds, add_zero]

/-! ### Examples of blocks -/

/-- SHA-256 of what is signed in a payment to an account that does not exist. -/
def oddDigests : List (String × String) :=
  [("104a04c10", "8db41ce1502630af60555d546f8d9e7cc6793986d21f4f9f0a10bf5e55edeeaa")]

def oddCrypto : Crypto := sampleCryptoWith (oddDigests ++ sampleDigests)

/-- `04a` pays 10 to `04b` and 10 to an account that does not exist. -/
def strayBlock : Block :=
  let stray : TX :=
    { timeStamp := 1, fromAddr := "04a", toAddr := "04c", value := 10000000, signature := "" }
  sampleBlock 1 "genesis" "h1" [samplePayment 1 "a" "04b",
    { stray with signature := stray.calSignature oddCrypto sampleAmountText "a" }]

def oddEnv : Env := { sampleEnv [strayBlock] with crypto := oddCrypto }

theorem only_signers_lose_paid :
    ∃ v', balance doubleText
      (updateBlance doubleText (doubleNode "0.4").balances threeTenths).state "04b" = some v' ∧
        NotLess (.ofInt 0) v' :=
  (only_signers_lose_iff (doubleEnv []) (doubleNode "0.4").toChainState
    (sampleBlock 1 "genesis" "h1" threeTenths) (by decide +kernel) "04b" (.ofInt 0)
    (by decide +kernel) (by decide +kernel)).mpr (by decide +kernel)

/-- `04a` pays -10 to `04b`. -/
def reverseBlock : Block Binary64 :=
  sampleBlock 1 "genesis" "h1" [doublePayment 1 "a" "04b" (-10000000)]

/-- The check accepts the block, and the account that it takes money from signed nothing. -/
theorem recipient_pays :
    let node := doubleNode "20"
    let after := (updateBlance doubleText node.balances reverseBlock.transxList).state
    node.checkBlock (doubleEnv []) reverseBlock = .ok true ∧
      (∀ tx ∈ reverseBlock.transxList, tx.fromAddr ≠ "04b") ∧
      balance doubleText node.balances "04b" = some (.ofInt 0) ∧
      balance doubleText after "04b" = some (.ofInt (-10)) ∧
      ¬NotLess (Binary64.ofInt 0) (.ofInt (-10)) := by
  decide +kernel

theorem executable_twoPayments :
    (updateBlance sampleAmountText richNode.balances twoPayments.transxList).fault ≠
      some .assertFailed :=
  (executable_iff (sampleEnv [twoPayments]) richNode.toChainState twoPayments
    (by decide +kernel)).1.mpr (by decide +kernel)

/-- The check accepts the block, and `UpdateBlance` fails its assertion in it. -/
theorem accepted_stops :
    richNode.checkBlock oddEnv strayBlock = .ok true ∧
      (updateBlance oddEnv.amounts richNode.balances strayBlock.transxList).fault =
        some .assertFailed := by
  decide +kernel

theorem stopped_update_stray :
    ∃ pre tx post, strayBlock.transxList = pre ++ tx :: post ∧
      (tx.fromAddr ∉ richNode.balances ∨ tx.toAddr ∉ richNode.balances) ∧
      (updateBlance sampleAmountText richNode.balances strayBlock.transxList).state =
        (updateBlance sampleAmountText richNode.balances pre).state := by
  obtain ⟨pre, tx, post, split, missing, -, state, -⟩ :=
    stopped_update sampleAmountText richNode.balances strayBlock.transxList (by decide +kernel)
  exact ⟨pre, tx, post, split, missing, state⟩

/-- The assertion fails at the second transaction, and the first has been paid. -/
theorem stops_halfway :
    (updateBlance sampleAmountText richNode.balances strayBlock.transxList).fault =
        some .assertFailed ∧
      balance sampleAmountText richNode.balances "04a" = some 20000000 ∧
      balance sampleAmountText (updateBlance sampleAmountText richNode.balances
        strayBlock.transxList).state "04a" = some 10000000 := by
  decide +kernel

end Ruccoin.Coin
