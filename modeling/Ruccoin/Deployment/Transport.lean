import Ruccoin.Coin.Node
import Ruccoin.Pbft.Interference

/-!
# Signed data on its way

What is signed with the key that belongs to the address or public key it names is accepted
where it arrives. A transaction gets there inside a block, as text; its digest leaves the
signature out. A message of the protocol is checked before it is sent.
-/

namespace Ruccoin

open Coin Pbft PBFTHandler

variable {D : Type}

/-- The text of this value stands for it. -/
def Coin.JsonText.Preserves (json : JsonText D) (j : Json D) : Prop :=
  json.parse (json.dump j) = .ok j

namespace Deployment

variable [Double D] {env : Env D} {c : Crypto}

/-! ### Transactions -/

/-- A block of transactions, each signed with the private key next to it. -/
def signedBlock (env : Env D) (header : BlockHeader) (drafts : List (TX D × String)) :
    Block D where
  header := header
  transxList := drafts.map fun (tx, privKey) =>
    { tx with signature := tx.calSignature env.crypto env.amounts privKey }

theorem signedBlock_validates {header : BlockHeader} {drafts : List (TX D × String)}
    (pairs : ∀ d ∈ drafts, env.crypto.KeyPair d.2 d.1.fromAddr) :
    ∀ tx ∈ (signedBlock env header drafts).transxList,
      tx.validateSignature env.crypto env.amounts = true := by
  intro tx member
  obtain ⟨d, drafted, rfl⟩ := List.mem_map.mp member
  exact TX.validateSignature_calSignature (pairs d drafted)

theorem parseBlock_dump {block : Block D} (preserved : env.json.Preserves block.toJson) :
    env.parseBlock (env.json.dump block.toJson) = .ok block := by
  unfold Env.parseBlock
  rw [preserved]
  exact Block.fromJson_toJson block

/-! ### Messages -/

theorem not_keyPair_of_sign_error {h : PBFTHandler} {m : Message} {e : Pbft.Fault}
    (failed : h.sign c m = .error e) (known : m.mtype.Known) :
    ¬c.KeyPair h.privKey m.pubKey := by
  intro pair
  obtain ⟨sm, signed, -⟩ := sign_ok pair known
  cases failed.symm.trans signed

/-- A handler whose keys belong together never fails the assertion after `Signate`. -/
theorem call_ne_assertFailed {h : PBFTHandler} (pair : c.KeyPair h.privKey h.pubKey)
    (a : Call) : h.call c a ≠ .error .assertFailed := by
  have delivered : ∀ (master : Master) (m : Message) (endpoint : Endpoint),
      h.call c (endpoint.call master m) ≠ .error .assertFailed := by
    intro master m endpoint failed
    by_cases known : m.mtype.Known
    · -- with these keys the call returns, so the assertion held
      obtain ⟨h', effects, returned, -⟩ : ∃ h' effects,
          deliver c master h (endpoint, m) = .ok (h', effects) ∧ _ :=
        deliver_returns pair (d := (endpoint, m)) known
      rw [deliver, failed] at returned
      cases returned
    · -- it ends before there is anything to sign
      obtain ⟨what, raised⟩ : ∃ what,
          deliver c master h (endpoint, m) = .error (.invalidArgument what) :=
        deliver_raises (d := (endpoint, m)) known
      rw [deliver, failed] at raised
      cases raised
  cases a with
  | getRequest req =>
    intro failed
    -- the request changes the log, not the keys that sign
    have settings := addRequest_settings h req
    apply not_keyPair_of_sign_error (Result.map_error.mp failed) MType.known_preprepare
    rwa [settings.privKey, settings.pubKey]
  | prepare master m => exact delivered master m .prepare
  | commit m => exact delivered (fun _ => .rpcError) m .commit
  | reply m => exact delivered (fun _ => .rpcError) m .reply

/-- Signing, encoding, decoding and checking go together. -/
theorem signed_data_survives (env : Env D) :
    (∀ (header : BlockHeader) (drafts : List (TX D × String)),
      (∀ d ∈ drafts, env.crypto.KeyPair d.2 d.1.fromAddr) →
        let block := signedBlock env header drafts
        Block.fromJson block.toJson = .ok block ∧
          (env.json.Preserves block.toJson →
            env.parseBlock (env.json.dump block.toJson) = .ok block) ∧
          ∀ tx ∈ block.transxList, tx.validateSignature env.crypto env.amounts = true) ∧
    (∀ (m : Message) (privKey : String), env.crypto.KeyPair privKey m.pubKey → m.mtype.Known →
      ∃ sm, m.signate env.crypto privKey = .ok sm ∧ sm.checkSignature env.crypto = .ok true) ∧
    (∀ h : PBFTHandler, env.crypto.KeyPair h.privKey h.pubKey →
      ∀ a, h.call env.crypto a ≠ .error .assertFailed) := by
  refine ⟨fun header drafts pairs => ?_, fun m privKey => Message.checkSignature_signate,
    fun h => call_ne_assertFailed⟩
  intro block
  exact ⟨Block.fromJson_toJson block, parseBlock_dump, signedBlock_validates pairs⟩

/-- Two payments of different owners, one of which has been signed before. -/
def signedDrafts : List (TX × String) :=
  [(⟨1, "04a", "04b", 10000000, ""⟩, "a"), (⟨3, "04b", "04a", 10000000, "00"⟩, "b")]

def transportedBlock : Block :=
  signedBlock (sampleEnv []) (sampleBlock (D := Amount) 1 "genesis" "h1" []).header signedDrafts

def transportEnv : Env := { sampleEnv [] with json := sampleTextOf transportedBlock.toJson }

theorem signed_data_survives_sample :
    let h := PBFTHandler.init (sampleConfig 1) 0
    let m : Message := ⟨.commit, 0, 1, 1, h.pubKey, 0, 0, "digest", "", ""⟩
    transportEnv.parseBlock (transportEnv.json.dump transportedBlock.toJson) =
        .ok transportedBlock ∧
      (∀ tx ∈ transportedBlock.transxList,
        tx.validateSignature transportEnv.crypto transportEnv.amounts = true) ∧
      (∃ sm, m.signate transportEnv.crypto h.privKey = .ok sm ∧
        sm.checkSignature transportEnv.crypto = .ok true) ∧
      h.call transportEnv.crypto (.getRequest ⟨1, 1, "body"⟩) ≠ .error .assertFailed := by
  intro h m
  have pairs : ∀ d ∈ signedDrafts, transportEnv.crypto.KeyPair d.2 d.1.fromAddr := by
    intro d member
    rcases List.mem_pair.mp member with rfl | rfl
    · exact sampleCrypto_keyPair "a"
    · exact sampleCrypto_keyPair "b"
  have pair : transportEnv.crypto.KeyPair h.privKey h.pubKey := sampleCrypto_keyPair h.privKey
  obtain ⟨blocks, messages, calls⟩ := signed_data_survives transportEnv
  obtain ⟨-, sent, valid⟩ := blocks _ signedDrafts pairs
  exact ⟨sent (sampleTextOf_parse _), valid, messages m h.privKey pair MType.known_commit,
    calls h pair _⟩

end Deployment

end Ruccoin
