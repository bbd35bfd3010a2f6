import Ruccoin.Foundation.Result
import Ruccoin.Pbft.Handler
import Mathlib.Data.Set.Basic

/-!
# What an accepted signature says

`CheckSignature` verifies a message under the key the message carries. The table `nodes_`,
which holds the configured keys, is not consulted, and the signed text leaves out the sender
and the body. So acceptance says that the holder of some key signed the four fields of the
text, and nothing about the replica the message names.
-/

namespace Ruccoin.Pbft

/-- The holder of `key` ran `Signate` on `message`. -/
structure Signing (Key : Type) where
  key : Key
  message : Message

/-- `ECDSA_verify` accepts only what the holder of the key signed. -/
def Sound (c : Crypto) (signed : Set (Signing c.PublicKey)) : Prop :=
  ∀ (m : Message) (text : String) (key : c.PublicKey), c.hexToPublicKey m.pubKey = some key →
    m.signedText = .ok text → c.verifyHex text m.signature key = true →
      ∃ e ∈ signed, e.key = key ∧ e.message.signedText = .ok text

/-- The holder of the key configured for the replica that `m` names signed a message with
the fields of `m`. -/
def Authentic (c : Crypto) (nodes : List NodeMeta) (signed : Set (Signing c.PublicKey))
    (m : Message) : Prop :=
  ∃ node ∈ nodes, node.replicaId = m.replicaId ∧ ∃ e ∈ signed,
    c.hexToPublicKey node.pubKey = some e.key ∧
    e.message.mtype = m.mtype ∧ e.message.replicaId = m.replicaId ∧
    e.message.viewId = m.viewId ∧ e.message.seq = m.seq ∧ e.message.digest = m.digest ∧
    e.message.body = m.body

/-- The same keys under another verification. -/
abbrev withVerify (c : Crypto) (verify : String → List UInt8 → c.PublicKey → Bool) : Crypto :=
  { c with ecdsaVerify := verify }

namespace Message

variable {c : Crypto}

/-- A message is accepted when its key can be read and its text verifies under it. -/
theorem checkSignature_iff {m : Message} :
    m.checkSignature c = .ok true ↔ ∃ key text, c.hexToPublicKey m.pubKey = some key ∧
      m.signedText = .ok text ∧ c.verifyHex text m.signature key = true := by
  unfold checkSignature
  cases readText : m.signedText with
  | error e => simp [Except.map]
  | ok text => cases readKey : c.hexToPublicKey m.pubKey <;> simp [Except.map]

/-- The text does not say where the view ends and the number begins. -/
example : (⟨.commit, 0, 0, 0, "", 23, 1, "d", "", ""⟩ : Message).signedText =
    (⟨.commit, 0, 0, 0, "", 3, 12, "d", "", ""⟩ : Message).signedText := by decide

/-- The text has a type in front, so a message of an unknown type has none. -/
theorem known_of_signedText {m : Message} {text : String} (read : m.signedText = .ok text) :
    m.mtype.Known := by
  obtain ⟨n, number, -⟩ := Result.map_ok.mp read
  exact ⟨n, number⟩

end Message

/-- Whatever the node table, acceptance makes authentic only those messages that are never
accepted. The text of any other may have been signed by the key it carries, for another
replica. -/
theorem authentic_iff (c : Crypto) (nodes : List NodeMeta) (m : Message) :
    (∀ (verify : String → List UInt8 → c.PublicKey → Bool) (signed : Set (Signing c.PublicKey)),
      Sound (withVerify c verify) signed → m.checkSignature (withVerify c verify) = .ok true →
        Authentic c nodes signed m) ↔
      c.hexToPublicKey m.pubKey = none ∨ ¬m.mtype.Known := by
  classical
  constructor
  · intro authentic
    by_contra readable
    obtain ⟨hasKey, known⟩ := not_or.mp readable
    obtain ⟨key, readKey⟩ := Option.ne_none_iff_exists'.mp hasKey
    obtain ⟨text, readText⟩ := Message.signedText_of_known (not_not.mp known)
    -- the one signature ever made: the same text, for the next replica
    let other : Message := { m with replicaId := m.replicaId + 1 }
    let verify : String → List UInt8 → c.PublicKey → Bool := fun text' bytes key' =>
      decide (text' = text ∧ bytes = HexText.decode c.unsetByte m.signature ∧ key' = key)
    -- the text leaves out the sender, so it is the text of `m` as well
    have sound : Sound (withVerify c verify) {⟨key, other⟩} := by
      intro m' text' key' _ _ verified
      obtain ⟨sameText, -, sameKey⟩ := of_decide_eq_true verified
      refine ⟨_, Set.mem_singleton _, sameKey.symm, ?_⟩
      rw [sameText]
      exact readText
    have accepted : m.checkSignature (withVerify c verify) = .ok true :=
      Message.checkSignature_iff.mpr
        ⟨key, text, readKey, readText, decide_eq_true ⟨rfl, rfl, rfl⟩⟩
    -- but no signature was made for the replica that `m` names
    obtain ⟨node, -, -, e, member, -, -, sender, -⟩ := authentic verify _ sound accepted
    rw [Set.mem_singleton_iff.mp member] at sender
    exact absurd sender (Nat.succ_ne_self m.replicaId)
  · intro unreadable verify signed sound accepted
    obtain ⟨key, text, readKey, readText, -⟩ := Message.checkSignature_iff.mp accepted
    rcases unreadable with noKey | unknown
    · rw [noKey] at readKey
      cases readKey
    · exact absurd (Message.known_of_signedText readText) unknown

/-- What a stranger, whose key is not configured, signed. -/
def strangerSigned : Message :=
  { mtype := .commit, replicaId := 9, clientId := 0, timeStamp := 0, pubKey := "04stranger",
    seq := 0, viewId := 0, digest := "d", body := "A" }

/-- What the stranger sends with this signature: a Commit of replica 0 for another body. -/
def impersonation : Message :=
  { strangerSigned with
    replicaId := 0
    body := "B"
    signature := (sampleCrypto.signHex "300d" "stranger").getD "" }

/-- Only the stranger's signature on that text has been made. -/
def strangerOnly (text : String) (bytes : List UInt8) (key : String) : Bool :=
  sampleCrypto.ecdsaVerify text bytes key && decide (text = "300d" ∧ key = "stranger")

theorem impersonated :
    Sound (withVerify sampleCrypto strangerOnly) {⟨("stranger" : String), strangerSigned⟩} ∧
      impersonation.checkSignature (withVerify sampleCrypto strangerOnly) = .ok true ∧
      ¬Authentic sampleCrypto (PBFTHandler.init (sampleConfig 4) 0).nodes
        {⟨("stranger" : String), strangerSigned⟩} impersonation := by
  have limited : ∀ {text : String} {bytes : List UInt8} {key : String},
      strangerOnly text bytes key = true → text = "300d" ∧ key = "stranger" :=
    fun verified => of_decide_eq_true (Bool.and_eq_true_iff.mp verified).2
  refine ⟨?_, ?_, ?_⟩
  · intro m text key _ _ verified
    obtain ⟨rfl, rfl⟩ := limited verified
    exact ⟨_, Set.mem_singleton _, rfl, rfl⟩
  · decide +kernel
  · rintro ⟨node, -, -, e, member, -, -, sender, -⟩
    rw [Set.mem_singleton_iff.mp member] at sender
    exact absurd sender (by decide)

end Ruccoin.Pbft
