import Ruccoin.Foundation.HexText

/-!
# The cryptography the program links against

OpenSSL and picosha2 are not part of the repository. Their functions are parameters here,
under the names the source calls them by, and what a result assumes of them is a named
hypothesis: `KeyPair` says that verifying accepts what signing produced, `Binding` that it
accepts nothing else, and `CollisionFree` that digests can stand for texts.
-/

namespace Ruccoin

structure Crypto where
  PrivateKey : Type
  PublicKey : Type
  /-- `none` when the text is not the hex of a scalar. -/
  hexToPrivateKey : String → Option PrivateKey
  /-- `none` when the text is not the hex of a curve point; OpenSSL then rejects
  whatever is verified under the key. -/
  hexToPublicKey : String → Option PublicKey
  ecdsaSign : String → PrivateKey → Option (List UInt8)
  ecdsaVerify : String → List UInt8 → PublicKey → Bool
  /-- SHA-256 of a text, as 64 lower-case hex digits. -/
  sha256Hex : String → String
  /-- What `sscanf` leaves in the uninitialised `byte` where the signature text does not
  hold two hex digits. -/
  unsetByte : List Char → UInt8

namespace Crypto

variable (c : Crypto)

/-- `RuccoinHash`. -/
def ruccoinHash (data : String) : String := c.sha256Hex data

/-- The signing loop shared by `Signate` and `CalSignature`: sign, then print each byte
with `%02x`. `none` when the key cannot be read or signing fails. -/
def signHex (text privHex : String) : Option String :=
  (c.hexToPrivateKey privHex).bind fun key =>
    (c.ecdsaSign text key).map HexText.encode

/-- The verifying loop shared by `CheckSignature` and `ValidateSignature`, once the public
key has been read: scan the signature two characters at a time, then verify. -/
def verifyHex (text signature : String) (key : c.PublicKey) : Bool :=
  c.ecdsaVerify text (HexText.decode c.unsetByte signature) key

/-- The two hex texts hold a private key and its public key, and verifying under the one
accepts whatever was signed under the other. -/
def KeyPair (privHex pubHex : String) : Prop :=
  ∃ priv pub, c.hexToPrivateKey privHex = some priv ∧ c.hexToPublicKey pubHex = some pub ∧
    ∀ text, ∃ bytes, c.ecdsaSign text priv = some bytes ∧ c.ecdsaVerify text bytes pub = true

/-- No two texts have the same digest. -/
def CollisionFree : Prop := Function.Injective c.sha256Hex

/-- A signature is accepted for one text and under one key only. -/
def Binding : Prop :=
  ∀ text text' bytes key key', c.ecdsaVerify text bytes key = true →
    c.ecdsaVerify text' bytes key' = true → text = text' ∧ key = key'

variable {c}

/-- Signing under a key pair succeeds, and its hex text verifies. -/
theorem KeyPair.verifies {privHex pubHex : String} (pair : c.KeyPair privHex pubHex)
    (text : String) :
    ∃ pub signature, c.hexToPublicKey pubHex = some pub ∧
      c.signHex text privHex = some signature ∧ c.verifyHex text signature pub = true := by
  obtain ⟨priv, pub, readPriv, readPub, signs⟩ := pair
  obtain ⟨bytes, signed, verified⟩ := signs text
  refine ⟨pub, HexText.encode bytes, readPub, ?_, ?_⟩
  · simp [signHex, readPriv, signed]
  · simpa only [verifyHex, HexText.decode_encode] using verified

end Crypto

/-- The sum of the bytes of a text, modulo 256. -/
def checksum (text : String) : UInt8 :=
  UInt8.ofNat (text.toByteArray.data.toList.map UInt8.toNat).sum

/-- SHA-256 of the texts that the examples hash. -/
def sampleDigests : List (String × String) :=
  [("", "e3b0c44298fc1c149afbf4c8996fb92427ae41e4649b934ca495991b7852b855"),
    ("A", "559aead08264d5795d3909718cdd05abd49572e84fe55590eef31a88a08fdffd"),
    ("B", "df7e70e5021544f4834bbee64a9e3789febc4be81470df629cad6ddb03320a5c"),
    ("104a04b10", "baa996c6fe954e4588061a792e5218341d26105fe9a13b3fbd21ba3b674af148"),
    ("204a04b10", "2d14f5a2a4f59501929914866acabbf433306d4222bc21d0634993602ddc2624"),
    ("304b04a10", "4d2edc217577bcccde4f9c071124e6f459c456b28728d40e6f1f65db2f730817"),
    ("104a04a10", "e72061fa13357a1a02d2601f0dcb507b601902f3458923f56723b2cc79155bd6")]

/-- A scheme to run examples with: the public key of `k` is `04k`, a signature is a checksum
of the key and one of the text, and the digests are those listed. -/
def sampleCryptoWith (digests : List (String × String)) : Crypto where
  PrivateKey := String
  PublicKey := String
  hexToPrivateKey hex := some hex
  hexToPublicKey hex := match hex.toList with
    | '0' :: '4' :: key => some (String.ofList key)
    | _ => none
  ecdsaSign text key := some [checksum key, checksum text]
  ecdsaVerify text bytes key := bytes == [checksum key, checksum text]
  sha256Hex data := (digests.lookup data).getD data
  unsetByte _ := 0

def sampleCrypto : Crypto := sampleCryptoWith sampleDigests

theorem sampleCrypto_keyPair (key : String) :
    sampleCrypto.KeyPair key ("04" ++ key) := by
  refine ⟨key, key, rfl, ?_, fun text => ⟨_, rfl, ?_⟩⟩
  · simp [sampleCrypto, sampleCryptoWith]
  · simp [sampleCrypto, sampleCryptoWith]

end Ruccoin
