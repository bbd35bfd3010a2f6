import Ruccoin.Coin.Structure
import Ruccoin.Foundation.Outcome
import Mathlib.Data.List.AList

/-!
# The balance database

`UpdateBlance` applies transactions one after the other to a store of texts. Every account
by itself goes from one balance to the next, each of them rounded when it is computed and
again when it is printed, and the call stops at the first transaction with an account that is
missing or cannot be read.

## Main result

`updateBlance_settled`: every call, whether it returns or stops at a fault, leaves each
account with what the transactions in `applied` make of its balance.
-/

namespace Ruccoin.Coin

/-- The LevelDB database: the text stored for each address. -/
abbrev Store := AList fun _ : String => String

variable {D : Type} [Double D]

section Model

variable (t : AmountText D)

/-- The stored balance, when there is one and `stod` reads it. -/
def balance (s : Store) (a : String) : Option D := (s.lookup a).bind t.stod

/-- The account is in the store and its text is a balance. -/
def Holds (s : Store) (a : String) : Prop := (balance t s a).isSome

instance (s : Store) (a : String) : Decidable (Holds t s a) :=
  inferInstanceAs (Decidable ((balance t s a).isSome = true))

/-- Every account a transaction names has a balance. -/
def Named (s : Store) (txs : List (TX D)) : Prop :=
  ∀ tx ∈ txs, Holds t s tx.fromAddr ∧ Holds t s tx.toAddr

instance (s : Store) (txs : List (TX D)) : Decidable (Named t s txs) :=
  inferInstanceAs (Decidable (∀ tx ∈ txs, Holds t s tx.fromAddr ∧ Holds t s tx.toAddr))

/-- The transactions for which `UpdateBlance` writes something: those before the first with
an account that is missing or cannot be read, and that one too when only its recipient's
text is no balance. -/
def applied (s : Store) : List (TX D) → List (TX D)
  | [] => []
  | tx :: txs =>
    if ¬Holds t s tx.fromAddr ∨ tx.toAddr ∉ s then []
    else if ¬Holds t s tx.toAddr then [tx]
    else tx :: applied s txs

end Model

variable {t : AmountText D} {s s' s'' : Store}

theorem mem_of_holds {a : String} (holds : Holds t s a) : a ∈ s := by
  rw [← AList.lookup_isSome]
  unfold Holds balance at holds
  cases found : s.lookup a with
  | none => simp [found] at holds
  | some text => rfl

/-- Two texts that can be read are what a transaction needs. -/
theorem holds_iff {a : String} :
    Holds t s a ↔ ∃ text v, s.lookup a = some text ∧ t.stod text = some v := by
  simp only [Holds, balance, Option.isSome_iff_exists, Option.bind_eq_some_iff]
  exact exists_comm.trans (by simp only [exists_and_left])

theorem holds_of_balance {a : String} {v : D} (read : balance t s a = some v) : Holds t s a := by
  rw [Holds, read]
  rfl

/-- A text that was written is read back as the amount it shows. -/
theorem balance_insert (t : AmountText D) (s : Store) (a : String) (v : D) (b : String) :
    balance t (s.insert a (t.toString v)) b =
      if b = a then some (Double.printed v) else balance t s b := by
  unfold balance
  by_cases here : b = a
  · subst here
    rw [AList.lookup_insert, if_pos rfl]
    exact t.reread v
  · rw [AList.lookup_insert_ne here, if_neg here]

/-- Writing the text of an account that is there keeps the accounts. -/
theorem mem_insert_of_mem {a : String} (member : a ∈ s) (text : String) (b : String) :
    b ∈ s.insert a text ↔ b ∈ s := by
  rw [AList.mem_insert]
  constructor
  · rintro (rfl | old)
    · exact member
    · exact old
  · exact Or.inr

/-- What is applied are the first transactions of the list. -/
theorem applied_initial (t : AmountText D) (s : Store) (txs : List (TX D)) :
    applied t s txs <+: txs := by
  induction txs with
  | nil => exact List.prefix_rfl
  | cons tx txs ih =>
    unfold applied
    split
    · exact List.nil_prefix
    · split
      · exact List.cons_prefix_cons.mpr ⟨rfl, List.nil_prefix⟩
      · exact List.cons_prefix_cons.mpr ⟨rfl, ih⟩

theorem applied_of_named {txs : List (TX D)} (named : Named t s txs) : applied t s txs = txs := by
  induction txs with
  | nil => rfl
  | cons tx txs ih =>
    obtain ⟨sender, recipient⟩ := named tx List.mem_cons_self
    have found := mem_of_holds recipient
    rw [applied, if_neg (by simp [sender, found]), if_neg (by simp [recipient]),
      ih fun u member => named u (List.mem_cons_of_mem tx member)]

/-! ### The update -/

section Update

variable [Add D] [Sub D] (t)

/-- `UpdateBlance` on one transaction: both balances are read before either is written. -/
def updateTx (s : Store) (tx : TX D) : Outcome Store Fault :=
  match s.lookup tx.fromAddr, s.lookup tx.toAddr with
  | some fromBalance, some toBalance =>
    match t.stod fromBalance with
    | none => ⟨s, some .stodFailed⟩
    | some fromValue =>
      let s := s.insert tx.fromAddr (t.toString (fromValue - tx.value))
      -- the recipient's text is read by now, but turned into a number only here
      match t.stod toBalance with
      | none => ⟨s, some .stodFailed⟩
      | some toValue => ⟨s.insert tx.toAddr (t.toString (toValue + tx.value)), none⟩
  | _, _ => ⟨s, some .assertFailed⟩

def updateBlance : Store → List (TX D) → Outcome Store Fault := Outcome.each (updateTx t)

end Update

/-! ### What becomes of a balance -/

variable [Add D] [Sub D]

/-- What a transaction makes of a balance of the account `a`. The recipient's text is written
last and was read first, so a transfer to oneself loses its debit. -/
def TX.settle (a : String) (tx : TX D) (v : D) : D :=
  if tx.toAddr = a then Double.printed (v + tx.value)
  else if tx.fromAddr = a then Double.printed (v - tx.value)
  else v

/-- What transactions make of it, one after the other. -/
def settle (a : String) (txs : List (TX D)) (v : D) : D :=
  txs.foldl (fun v tx => tx.settle a v) v

/-- The store `s'` has the accounts of `s`, with the transactions settled. -/
structure Settled (t : AmountText D) (s s' : Store) (txs : List (TX D)) : Prop where
  mem_iff : ∀ a, a ∈ s' ↔ a ∈ s
  balance_eq : ∀ a, balance t s' a = (balance t s a).map (settle a txs)

namespace Settled

variable {txs rest : List (TX D)}

theorem refl (t : AmountText D) (s : Store) : Settled t s s [] := by
  refine ⟨fun a => Iff.rfl, fun a => ?_⟩
  cases balance t s a <;> rfl

theorem trans (first : Settled t s s' txs) (second : Settled t s' s'' rest) :
    Settled t s s'' (txs ++ rest) := by
  refine ⟨fun a => (second.mem_iff a).trans (first.mem_iff a), fun a => ?_⟩
  rw [second.balance_eq, first.balance_eq, Option.map_map]
  congr 1
  funext v
  exact (List.foldl_append ..).symm

theorem holds_iff (settled : Settled t s s' txs) (a : String) : Holds t s' a ↔ Holds t s a := by
  unfold Holds
  rw [settled.balance_eq, Option.isSome_map]

/-- Stores with the same accounts apply the same transactions. -/
theorem applied_eq (settled : Settled t s s' txs) (more : List (TX D)) :
    applied t s' more = applied t s more := by
  induction more with
  | nil => rfl
  | cons tx more ih => simp only [applied, settled.holds_iff, settled.mem_iff, ih]

end Settled

/-! ### One transaction -/

theorem updateTx_of_holds {tx : TX D} (sender : Holds t s tx.fromAddr)
    (recipient : Holds t s tx.toAddr) :
    (updateTx t s tx).fault = none ∧ Settled t s (updateTx t s tx).state [tx] := by
  obtain ⟨fromText, fromValue, foundFrom, readFrom⟩ := holds_iff.mp sender
  obtain ⟨toText, toValue, foundTo, readTo⟩ := holds_iff.mp recipient
  have balanceFrom : balance t s tx.fromAddr = some fromValue := by
    rw [balance, foundFrom]
    exact readFrom
  have balanceTo : balance t s tx.toAddr = some toValue := by
    rw [balance, foundTo]
    exact readTo
  have written : updateTx t s tx =
      ⟨(s.insert tx.fromAddr (t.toString (fromValue - tx.value))).insert tx.toAddr
        (t.toString (toValue + tx.value)), none⟩ := by
    simp only [updateTx, foundFrom, foundTo, readFrom, readTo]
  rw [written]
  refine ⟨rfl, fun a => ?_, fun a => ?_⟩
  · have kept := mem_insert_of_mem (mem_of_holds sender)
    rw [mem_insert_of_mem ((kept _ _).mpr (mem_of_holds recipient)), kept]
  · rw [balance_insert, balance_insert]
    unfold settle TX.settle
    -- the second write replaces the first when both are of one account
    by_cases credited : tx.toAddr = a
    · subst credited
      simp [balanceTo]
    · by_cases debited : tx.fromAddr = a
      · subst debited
        simp [balanceFrom, credited, Ne.symm credited]
      · cases balance t s a <;> simp [credited, debited, Ne.symm credited, Ne.symm debited]

/-- Without a readable sender, or without a recipient, nothing is written. -/
theorem updateTx_of_missing {tx : TX D} (missing : ¬Holds t s tx.fromAddr ∨ tx.toAddr ∉ s) :
    (updateTx t s tx).fault ≠ none ∧ (updateTx t s tx).state = s := by
  unfold updateTx
  cases foundFrom : s.lookup tx.fromAddr with
  | none =>
    -- the assertion that both texts were found fails
    exact ⟨by simp, rfl⟩
  | some fromText =>
    cases foundTo : s.lookup tx.toAddr with
    | none => exact ⟨by simp, rfl⟩
    | some toText =>
      have present : tx.toAddr ∈ s := AList.lookup_isSome.mp (by rw [foundTo]; rfl)
      cases readFrom : t.stod fromText with
      | none =>
        -- `stod` throws before anything is written
        simp [readFrom]
      | some v =>
        rcases missing with sender | recipient
        · exact absurd (holds_iff.mpr ⟨fromText, v, foundFrom, readFrom⟩) sender
        · exact absurd present recipient

/-- With a recipient whose text is no balance, the debit is all that is written. -/
theorem updateTx_of_unreadable {tx : TX D} (sender : Holds t s tx.fromAddr)
    (present : tx.toAddr ∈ s) (recipient : ¬Holds t s tx.toAddr) :
    (updateTx t s tx).fault ≠ none ∧ Settled t s (updateTx t s tx).state [tx] := by
  obtain ⟨fromText, fromValue, foundFrom, readFrom⟩ := holds_iff.mp sender
  obtain ⟨toText, foundTo⟩ := Option.isSome_iff_exists.mp (AList.lookup_isSome.mpr present)
  have unread : t.stod toText = none := by
    rw [Option.eq_none_iff_forall_ne_some]
    intro v readTo
    exact recipient (holds_iff.mpr ⟨toText, v, foundTo, readTo⟩)
  have balanceFrom : balance t s tx.fromAddr = some fromValue := by
    rw [balance, foundFrom]
    exact readFrom
  have balanceTo : balance t s tx.toAddr = none := by
    rw [balance, foundTo]
    exact unread
  have other : tx.fromAddr ≠ tx.toAddr := by
    intro same
    rw [same] at sender
    exact recipient sender
  simp only [updateTx, foundFrom, foundTo, readFrom, unread]
  refine ⟨by simp, fun a => mem_insert_of_mem (mem_of_holds sender) _ a, fun a => ?_⟩
  rw [balance_insert]
  unfold settle TX.settle
  by_cases credited : tx.toAddr = a
  · -- the recipient has no balance before and none after
    subst credited
    simp [balanceTo, other.symm]
  · by_cases debited : tx.fromAddr = a
    · subst debited
      simp [balanceFrom, credited]
    · cases balance t s a <;> simp [credited, debited, Ne.symm debited]

/-- The call stops before it writes anything, or between its writes, or goes through. -/
theorem updateTx_cases (t : AmountText D) (s : Store) (tx : TX D) :
    ((¬Holds t s tx.fromAddr ∨ tx.toAddr ∉ s) ∧ (updateTx t s tx).fault ≠ none ∧
        (updateTx t s tx).state = s) ∨
      (Holds t s tx.fromAddr ∧ tx.toAddr ∈ s ∧ ¬Holds t s tx.toAddr ∧
        (updateTx t s tx).fault ≠ none ∧ Settled t s (updateTx t s tx).state [tx]) ∨
      (Holds t s tx.fromAddr ∧ Holds t s tx.toAddr ∧ (updateTx t s tx).fault = none ∧
        Settled t s (updateTx t s tx).state [tx]) := by
  by_cases missing : ¬Holds t s tx.fromAddr ∨ tx.toAddr ∉ s
  · exact Or.inl ⟨missing, updateTx_of_missing missing⟩
  · right
    rw [not_or, not_not, not_not] at missing
    obtain ⟨sender, present⟩ := missing
    by_cases recipient : Holds t s tx.toAddr
    · exact Or.inr ⟨sender, recipient, updateTx_of_holds sender recipient⟩
    · exact Or.inl
        ⟨sender, present, recipient, updateTx_of_unreadable sender present recipient⟩

/-! ### A list of transactions -/

theorem updateBlance_append (s : Store) (txs rest : List (TX D)) :
    updateBlance t s (txs ++ rest) = (updateBlance t s txs).andThen (updateBlance t · rest) :=
  Outcome.each_append ..

theorem updateBlance_cons (s : Store) (tx : TX D) (txs : List (TX D)) :
    updateBlance t s (tx :: txs) = (updateTx t s tx).andThen (updateBlance t · txs) :=
  Outcome.each_cons ..

theorem updateBlance_settled (s : Store) (txs : List (TX D)) :
    Settled t s (updateBlance t s txs).state (applied t s txs) := by
  induction txs generalizing s with
  | nil => exact .refl t s
  | cons tx txs ih =>
    rw [updateBlance_cons, applied]
    rcases updateTx_cases t s tx with ⟨missing, stopped, state⟩ |
      ⟨sender, present, unreadable, stopped, debit⟩ | ⟨sender, recipient, done, first⟩
    · rw [if_pos missing, Outcome.andThen_of_stopped stopped, state]
      exact .refl t s
    · rw [if_neg (by simp [sender, present]), if_pos unreadable,
        Outcome.andThen_of_stopped stopped]
      exact debit
    · have present := mem_of_holds recipient
      rw [if_neg (by simp [sender, present]), if_neg (not_not.mpr recipient),
        Outcome.andThen_of_none done, ← first.applied_eq txs]
      exact first.trans (ih _)

/-- `UpdateBlance` returns exactly when all accounts are there. -/
theorem updateBlance_returns_iff {txs : List (TX D)} :
    (updateBlance t s txs).fault = none ↔ Named t s txs := by
  induction txs generalizing s with
  | nil => exact iff_of_true rfl fun _ member => nomatch member
  | cons tx txs ih =>
    rw [updateBlance_cons]
    have unfolded : Named t s (tx :: txs) ↔
        (Holds t s tx.fromAddr ∧ Holds t s tx.toAddr) ∧ Named t s txs := List.forall_mem_cons
    rcases updateTx_cases t s tx with ⟨missing, stopped, -⟩ |
      ⟨sender, present, unreadable, stopped, -⟩ | ⟨sender, recipient, done, first⟩
    · rw [Outcome.andThen_of_stopped stopped]
      refine iff_of_false stopped fun named => ?_
      obtain ⟨⟨sender, recipient⟩, -⟩ := unfolded.mp named
      exact missing.elim (· sender) (· (mem_of_holds recipient))
    · rw [Outcome.andThen_of_stopped stopped]
      exact iff_of_false stopped fun named => unreadable (unfolded.mp named).1.2
    · have accounts : Named t (updateTx t s tx).state txs ↔ Named t s txs := by
        simp only [Named, first.holds_iff]
      rw [Outcome.andThen_of_none done, ih, unfolded, accounts]
      exact (and_iff_right ⟨sender, recipient⟩).symm

end Ruccoin.Coin
