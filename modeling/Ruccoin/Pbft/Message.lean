import Ruccoin.Crypto

/-!
# Protocol messages

`Message` of `bft_node.h`, with `Signate`, `CheckSignature` and `GetDigest`. The signature
covers the type, the view, the sequence number and the digest, printed one after the other;
the key it is checked against is the one the message itself carries.
-/

namespace Ruccoin.Pbft

/-- How a call ends other than by returning. -/
inductive Fault where
  | assertFailed
  | invalidArgument (what : String)
deriving DecidableEq, Repr

/-- `PBFT_MType`. The enumeration travels as an integer and is not range-checked on
arrival, so a message can carry a value the program has no name for. -/
inductive MType where
  | preprepare
  | prepare
  | commit
  | other (code : Int)
deriving DecidableEq, Repr

/-- `Request` of `include/bft.h`. -/
structure Request where
  clientId : Nat
  timeStamp : Nat
  body : String
deriving DecidableEq, Repr

structure Message where
  mtype : MType
  replicaId : Nat
  clientId : Nat
  timeStamp : Nat
  pubKey : String
  seq : Nat
  viewId : Nat
  digest : String
  signature : String := ""
  body : String := ""
deriving DecidableEq, Repr

def MType.toInt : MType → Except Fault Nat
  | .preprepare => .ok 1
  | .prepare => .ok 2
  | .commit => .ok 3
  | .other _ => .error (.invalidArgument "Unknown PBFT message type")

/-- The types the program itself sends. -/
def MType.Known (t : MType) : Prop := ∃ n, t.toInt = .ok n

@[simp] theorem MType.known_preprepare : MType.preprepare.Known := ⟨1, rfl⟩
@[simp] theorem MType.known_prepare : MType.prepare.Known := ⟨2, rfl⟩
@[simp] theorem MType.known_commit : MType.commit.Known := ⟨3, rfl⟩

instance : DecidablePred MType.Known
  | .preprepare => isTrue MType.known_preprepare
  | .prepare => isTrue MType.known_prepare
  | .commit => isTrue MType.known_commit
  | .other _ => isFalse fun ⟨_, number⟩ => nomatch number

namespace Message

/-- The text that is signed: `ss << ToInt(m.mtype) << m.view_id << m.seq << m.digest`. -/
def signedText (m : Message) : Except Fault String :=
  m.mtype.toInt.map fun t => toString t ++ toString m.viewId ++ toString m.seq ++ m.digest

variable (c : Crypto)

def getDigest (data : String) : String := c.ruccoinHash data

/-- `Signate` stores the signature in the message and reports nothing: when the key cannot
be read or signing fails, the message is left as it was. -/
def signate (m : Message) (privKey : String) : Except Fault Message :=
  m.signedText.map fun text =>
    { m with signature := (c.signHex text privKey).getD m.signature }

/-- `hexToPublicKey` makes an object of every text, so the text is put together in any case;
when the key is none, `ECDSA_verify` fails. -/
def checkSignature (m : Message) : Except Fault Bool :=
  m.signedText.map fun text => match c.hexToPublicKey m.pubKey with
    | none => false
    | some publicKey => c.verifyHex text m.signature publicKey

variable {c}

theorem signedText_of_known {m : Message} (known : m.mtype.Known) :
    ∃ text, m.signedText = .ok text := by
  obtain ⟨n, hn⟩ := known
  exact ⟨_, by rw [signedText, hn]; rfl⟩

/-- Signing writes the signature and nothing else. -/
theorem signate_frame {m sm : Message} {privKey : String}
    (signed : m.signate c privKey = .ok sm) : sm = { m with signature := sm.signature } := by
  unfold signate at signed
  cases ht : m.signedText with
  | error e =>
    -- a message of an unknown type raises an exception
    simp [ht, Except.map] at signed
  | ok text =>
    simp only [ht, Except.map, Except.ok.injEq] at signed
    rw [← signed]

/-- Under a key pair the assertion after `Signate` holds: the signed message passes
`CheckSignature`. -/
theorem checkSignature_signate {m : Message} {privKey : String}
    (pair : c.KeyPair privKey m.pubKey) (known : m.mtype.Known) :
    ∃ sm, m.signate c privKey = .ok sm ∧ sm.checkSignature c = .ok true := by
  obtain ⟨text, ht⟩ := signedText_of_known known
  obtain ⟨pub, signature, readPub, signed, verified⟩ := pair.verifies text
  refine ⟨{ m with signature }, ?_, ?_⟩
  · simp [signate, ht, signed, Except.map]
  · have same : ({ m with signature } : Message).signedText = .ok text := ht
    simp [checkSignature, readPub, same, verified, Except.map]

end Message

end Ruccoin.Pbft
