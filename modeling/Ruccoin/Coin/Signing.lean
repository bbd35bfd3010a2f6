import Ruccoin.Coin.Pool

/-!
# What a transaction signature authorises

`getHash` prints the time stamp, the two addresses and the amount one after the other, with
nothing between them, and the amount with six significant digits. Payments that run together
in the same text have the same signature. Those that agree in the lengths of the first three
fields differ in none of them, and the amounts may differ in what is not printed.
-/

namespace Ruccoin.Coin

variable {c : Crypto} {t : AmountText} {tx tx' : TX}

/-- The text that `getHash` digests. -/
def TX.signedText (t : AmountText) (tx : TX) : String :=
  toString tx.timeStamp.toNat ++ tx.fromAddr ++ tx.toAddr ++ t.stream tx.value

theorem TX.getHash_eq (tx : TX) : tx.getHash c t = c.sha256Hex (tx.signedText t) := rfl

theorem TX.validateSignature_iff :
    tx.validateSignature c t = true ↔ ∃ key, c.hexToPublicKey tx.fromAddr = some key ∧
      c.verifyHex (tx.getHash c t) tx.signature key = true := by
  unfold TX.validateSignature
  cases c.hexToPublicKey tx.fromAddr with
  | none => simp
  | some key => simp

/-- One signature that is accepted twice was accepted for one text. -/
theorem signedText_eq_of_valid (collisionFree : c.CollisionFree) (binding : c.Binding)
    (valid : tx.validateSignature c t = true) (valid' : tx'.validateSignature c t = true)
    (same : tx.signature = tx'.signature) : tx.signedText t = tx'.signedText t := by
  obtain ⟨key, -, verified⟩ := TX.validateSignature_iff.mp valid
  obtain ⟨key', -, verified'⟩ := TX.validateSignature_iff.mp valid'
  rw [← same] at verified'
  have hashes := (binding _ _ _ _ _ verified verified').1
  rw [TX.getHash_eq, TX.getHash_eq] at hashes
  exact collisionFree hashes

theorem timeStamp_eq_of_toString {a b : UInt64}
    (same : toString a.toNat = toString b.toNat) : a = b := by
  apply UInt64.toNat.inj
  have digits : Nat.toDigits 10 a.toNat = Nat.toDigits 10 b.toNat := String.ofList_inj.mp same
  rw [← Nat.ofDigitChars_ten_toDigits (n := a.toNat), digits, Nat.ofDigitChars_ten_toDigits]

/-- A signed text with the lengths of its first three fields determines what is printed. -/
theorem fields_eq_of_signedText (same : tx.signedText t = tx'.signedText t)
    (stamps : (toString tx.timeStamp.toNat).length = (toString tx'.timeStamp.toNat).length)
    (senders : tx.fromAddr.length = tx'.fromAddr.length)
    (recipients : tx.toAddr.length = tx'.toAddr.length) :
    tx.timeStamp = tx'.timeStamp ∧ tx.fromAddr = tx'.fromAddr ∧ tx.toAddr = tx'.toAddr ∧
      t.stream tx.value = t.stream tx'.value := by
  unfold TX.signedText at same
  rw [← String.toList_inj] at same
  simp only [String.toList_append, List.append_assoc] at same
  simp only [← String.length_toList] at stamps senders recipients
  obtain ⟨stamp, rest⟩ := List.append_inj same stamps
  obtain ⟨sender, rest⟩ := List.append_inj rest senders
  obtain ⟨recipient, amount⟩ := List.append_inj rest recipients
  exact ⟨timeStamp_eq_of_toString (String.toList_inj.mp stamp), String.toList_inj.mp sender,
    String.toList_inj.mp recipient, String.toList_inj.mp amount⟩

/-- Two accepted transactions with one signature are the same payment exactly when their time
stamps, senders and recipients have the same lengths, and amounts that print alike are the
same. -/
theorem same_payment_iff (c : Crypto) (t : AmountText) (collisionFree : c.CollisionFree)
    (binding : c.Binding) (tx tx' : TX) (valid : tx.validateSignature c t = true)
    (valid' : tx'.validateSignature c t = true) (same : tx.signature = tx'.signature) :
    tx.SamePayment tx' ↔
      (toString tx.timeStamp.toNat).length = (toString tx'.timeStamp.toNat).length ∧
      tx.fromAddr.length = tx'.fromAddr.length ∧ tx.toAddr.length = tx'.toAddr.length ∧
      (t.stream tx.value = t.stream tx'.value → tx.value = tx'.value) := by
  have texts := signedText_eq_of_valid collisionFree binding valid valid' same
  constructor
  · rintro ⟨stamp, sender, recipient, value⟩
    exact ⟨by rw [stamp], by rw [sender], by rw [recipient], fun _ => value⟩
  · rintro ⟨stamps, senders, recipients, amounts⟩
    obtain ⟨stamp, sender, recipient, printed⟩ :=
      fields_eq_of_signedText texts stamps senders recipients
    exact ⟨stamp, sender, recipient, amounts printed⟩

/-! ### A signature for several payments -/

/-- The amounts of the examples, of which the doubles are streamed. -/
def significantText : AmountText :=
  { sampleAmountText with stream := fun v => (Binary64.ofMillionths v).significant }

/-- SHA-256 of `104a04b10`. -/
def tenDigest : String := "baa996c6fe954e4588061a792e5218341d26105fe9a13b3fbd21ba3b674af148"

/-- SHA-256 of `104a04b1e+06`. -/
def millionDigest : String := "1412161b72b023139636d2c403b4eb5f0f3edab6cfe31dfb021edf6dda863f2c"

/-- What the owner of the key `a` has signed. -/
def signatureOf (digest : String) : Option (List UInt8) :=
  if digest = tenDigest then some [1] else if digest = millionDigest then some [2] else none

/-- The two digests and their signatures. Any other text is its own digest, marked as such,
and has not been signed. -/
def signingCrypto : Crypto where
  PrivateKey := String
  PublicKey := String
  hexToPrivateKey hex := some hex
  hexToPublicKey hex := match hex.toList with
    | '0' :: '4' :: key => some (String.ofList key)
    | _ => none
  ecdsaSign text key := if key = "a" then signatureOf text else none
  ecdsaVerify text bytes key := decide (key = "a" ∧ signatureOf text = some bytes)
  sha256Hex data :=
    if data = "104a04b10" then tenDigest
    else if data = "104a04b1e+06" then millionDigest
    else "?" ++ data
  unsetByte _ := 0

theorem signingCrypto_collisionFree : signingCrypto.CollisionFree := by
  have marked : ∀ text : String, ("?" ++ text).toList = '?' :: text.toList := by simp
  have unmarked : ∀ digest : String, digest.toList.head? ≠ some '?' →
      ∀ text : String, digest ≠ "?" ++ text := by
    rintro digest other text rfl
    rw [marked] at other
    exact other rfl
  have ten := unmarked tenDigest (by decide)
  have million := unmarked millionDigest (by decide)
  have apart : tenDigest ≠ millionDigest := by decide
  intro x y same
  unfold signingCrypto at same
  dsimp only at same
  split_ifs at same with x_ten y_ten y_million x_million y_ten y_million y_ten y_million
  · exact x_ten.trans y_ten.symm
  · exact absurd same apart
  · exact absurd same (ten y)
  · exact absurd same.symm apart
  · exact x_million.trans y_million.symm
  · exact absurd same (million y)
  · exact absurd same.symm (ten x)
  · exact absurd same.symm (million x)
  · have chars := congrArg String.toList same
    rw [marked, marked] at chars
    exact String.toList_inj.mp (List.cons.inj chars).2

theorem signingCrypto_binding : signingCrypto.Binding := by
  -- the key is a text here
  intro text text' bytes (key : String) (key' : String) verified verified'
  obtain ⟨owner, signed⟩ : key = "a" ∧ signatureOf text = some bytes :=
    of_decide_eq_true verified
  obtain ⟨owner', signed'⟩ : key' = "a" ∧ signatureOf text' = some bytes :=
    of_decide_eq_true verified'
  refine ⟨?_, owner.trans owner'.symm⟩
  have known : ∀ text bytes, signatureOf text = some bytes →
      text = if bytes = [1] then tenDigest else millionDigest := by
    intro text bytes found
    unfold signatureOf at found
    split_ifs at found with ten million
    · obtain rfl := Option.some.inj found
      exact ten
    · obtain rfl := Option.some.inj found
      exact million
  rw [known text bytes signed, known text' bytes signed']

/-- A payment from `04a` in the first second, with the signature of one of the two texts. -/
def signedPayment (toAddr : String) (value : Amount) (signature : String) : TX :=
  { timeStamp := 1, fromAddr := "04a", toAddr, value, signature }

theorem same_payment_ten :
    let tx := signedPayment "04b" 10000000 "01"
    let tx' := signedPayment "04b1" 0 "01"
    ¬tx.SamePayment tx' := by
  intro tx tx'
  rw [same_payment_iff signingCrypto significantText signingCrypto_collisionFree
    signingCrypto_binding tx tx' (by decide +kernel) (by decide +kernel) rfl]
  decide

/-- The signature of a payment of 10 is also one of nothing to somebody else, and that of a
million coins also one of a million and one. -/
theorem signature_reused :
    signingCrypto.CollisionFree ∧ signingCrypto.Binding ∧
      (let tx := signedPayment "04b" 10000000 "01"
       let tx' := signedPayment "04b1" 0 "01"
       tx.validateSignature signingCrypto significantText = true ∧
         tx'.validateSignature signingCrypto significantText = true ∧ ¬tx.SamePayment tx') ∧
      (let tx := signedPayment "04b" 1000000000000 "02"
       let tx' := signedPayment "04b" 1000001000000 "02"
       tx.validateSignature signingCrypto significantText = true ∧
         tx'.validateSignature signingCrypto significantText = true ∧ ¬tx.SamePayment tx') :=
  ⟨signingCrypto_collisionFree, signingCrypto_binding, by decide +kernel, by decide +kernel⟩

end Ruccoin.Coin
