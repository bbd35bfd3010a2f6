import Ruccoin.Coin.Check
import Ruccoin.Coin.Run

/-!
# The chain of hashes and its files

`CommitProposal` appends the hash that the proposed header carries and writes the block to a
file of that name. `PackBlock` computes the hash from the header, but `CheckBlock` does not
compute it again, nor does it look whether the chain or the directory has it already. The
chain and its files are sound as long as the committed blocks are.
-/

namespace Ruccoin.Coin

/-- What `WriteBlock` prints of a block that was parsed is parsed back to it. -/
def Reparses (env : Env) : Prop :=
  ∀ p block, env.parseBlock p = .ok block →
    env.parseBlock (env.json.pretty block.toJson ++ "\n") = .ok block

/-- The file named `hash` stores a header that follows `prevHash` and carries its own
header hash. -/
def Links (env : Env) (files : List BlockFile) (prevHash hash : String) : Prop :=
  ∃ block, readBlock env files hash = some (.ok block) ∧ block.header.prevHash = prevHash ∧
    block.header.hash = headerHash env.crypto block.header

instance (env : Env) (files : List BlockFile) (prevHash hash : String) :
    Decidable (Links env files prevHash hash) :=
  match read : readBlock env files hash with
  | some (.ok block) =>
    decidable_of_iff (block.header.prevHash = prevHash ∧
      block.header.hash = headerHash env.crypto block.header) (by simp [Links, read])
  | some (.error _) => isFalse (by simp [Links, read])
  | none => isFalse (by simp [Links, read])

/-! ### Reading what was written -/

section Files

variable {env : Env} {files : List BlockFile} {block : Block} {hash : String}

theorem readBlock_writeBlock (creatable : env.creatable (block.header.hash ++ ".json") = true) :
    readBlock env (writeBlock env files block) block.header.hash =
      some (env.parseBlock (env.json.pretty block.toJson ++ "\n")) := by
  simp [readBlock, writeBlock, creatable]

/-- The files of other blocks are read as before. -/
theorem readBlock_writeBlock_ne (other : hash ≠ block.header.hash) :
    readBlock env (writeBlock env files block) hash = readBlock env files hash := by
  have name : block.header.hash ++ ".json" ≠ hash ++ ".json" := fun same =>
    other ((String.append_left_inj ".json").mp same).symm
  unfold readBlock writeBlock
  dsimp only
  split
  · congr 1
    rw [List.find?_cons_of_neg (by simpa using name), List.find?_filter]
    congr 1
    funext file
    -- a file with the name of `hash` is not the one that is written over
    by_cases here : file.name = hash ++ ".json"
    · simp [here, name.symm]
    · simp [here]
  · rfl

theorem mem_writeBlock {file : BlockFile}
    (creatable : env.creatable (block.header.hash ++ ".json") = true) :
    file ∈ writeBlock env files block ↔
      file = ⟨block.header.hash ++ ".json", env.json.pretty block.toJson ++ "\n"⟩ ∨
        file ∈ files ∧ file.name ≠ block.header.hash ++ ".json" := by
  simp [writeBlock, creatable]

end Files

namespace NodeRun

open Transition

/-- The hashes differ, each block but the genesis block is stored under its own hash and
follows the one before, and no file has been lost or changed. -/
structure HashChain (env : Env) (r : NodeRun) : Prop where
  distinct : r.node.blockChainHash.Nodup
  linked : r.node.blockChainHash.IsChain (Links env r.node.blockchain)
  kept : ∀ file ∈ r.files, file ∈ r.node.blockchain

/-- The hash that the block carries is not in the chain yet. It is the hash of its header and
writing the block changes no file that is there; or the file cannot be created, and one of
that name already stores a header that can follow the tip. -/
def SealedBlock (env : Env) (node : CoinNode) (block : Block) : Prop :=
  block.header.hash ∉ node.blockChainHash ∧
    if env.creatable (block.header.hash ++ ".json") = true then
      block.header.hash = headerHash env.crypto block.header ∧
        ∀ file ∈ node.blockchain, file.name = block.header.hash ++ ".json" →
          file.text = env.json.pretty block.toJson ++ "\n"
    else Links env node.blockchain node.tip block.header.hash

/-- Every block that is applied is sealed. -/
def Sealed (env : Env) (r : NodeRun) : NodeCall → Prop
  | .commitProposal p => Result.Returns (env.parseBlock p) fun block =>
      Named env.amounts r.node.balances block.transxList →
        SealedBlock env r.node.toCoinNode block
  | _ => True

instance (env : Env) (node : CoinNode) (block : Block) :
    Decidable (SealedBlock env node block) := inferInstanceAs (Decidable (_ ∧ _))

instance (env : Env) (r : NodeRun) : ∀ call, Decidable (Sealed env r call)
  | .commitProposal _ => inferInstanceAs (Decidable (Result.Returns _ _))
  | .addTransx _ => inferInstanceAs (Decidable True)
  | .packBlock _ _ => inferInstanceAs (Decidable True)

variable {env : Env} {r r' : NodeRun} {block : Block}

/-- Every file of the directory is on record. -/
def Recorded (r : NodeRun) : Prop := ∀ file ∈ r.node.blockchain, file ∈ r.files

theorem recorded_step {call : NodeCall} (before : Recorded r)
    (taken : step env r call = some r') : Recorded r' := by
  rw [step_perform taken]
  cases call with
  | addTransx tx =>
    rw [perform_addTransx]
    split <;> exact before
  | packBlock random merkle =>
    rw [perform_packBlock]
    exact before
  | commitProposal p => exact fun file member => List.mem_append_right _ member

/-- A block that was applied extends the chain soundly when its hash is new, its file follows
the tip, and all earlier files are still read as before. -/
theorem hashChain_returned (done : Returned env r r' block) :
    HashChain env r' ↔
      (r.node.blockChainHash.Nodup ∧ block.header.hash ∉ r.node.blockChainHash) ∧
      (r.node.blockChainHash.IsChain (Links env r'.node.blockchain) ∧
        Links env r'.node.blockchain r.node.tip block.header.hash) ∧
      ∀ file ∈ r'.files, file ∈ r'.node.blockchain := by
  have last : r.node.blockChainHash.getLast? = some r.node.tip := by
    rw [ChainState.tip, List.getLast?_eq_some_getLast r.node.rooted]
  have distinct_iff : r'.node.blockChainHash.Nodup ↔
      r.node.blockChainHash.Nodup ∧ block.header.hash ∉ r.node.blockChainHash := by
    rw [done.blockChainHash, List.nodup_append', List.disjoint_singleton]
    simp
  have linked_iff : r'.node.blockChainHash.IsChain (Links env r'.node.blockchain) ↔
      r.node.blockChainHash.IsChain (Links env r'.node.blockchain) ∧
        Links env r'.node.blockchain r.node.tip block.header.hash := by
    rw [done.blockChainHash, List.isChain_append, last]
    simp
  rw [← distinct_iff, ← linked_iff]
  exact ⟨fun sound => ⟨sound.distinct, sound.linked, sound.kept⟩,
    fun ⟨distinct, linked, kept⟩ => ⟨distinct, linked, kept⟩⟩

/-- A block on the tip that is applied and written extends the chain soundly exactly when it
is sealed. -/
theorem hashChain_written (reparsed : env.parseBlock (env.json.pretty block.toJson ++ "\n") =
      .ok block) (creatable : env.creatable (block.header.hash ++ ".json") = true)
    (onTip : block.header.prevHash = r.node.tip) (done : Returned env r r' block)
    (recorded : Recorded r) (before : HashChain env r) :
    HashChain env r' ↔ SealedBlock env r.node.toCoinNode block := by
  have read : readBlock env r'.node.blockchain block.header.hash = some (.ok block) := by
    rw [done.blockchain, readBlock_writeBlock creatable, reparsed]
  -- the files of the old blocks are read as before when the new one has another name
  have old_links : block.header.hash ∉ r.node.blockChainHash →
      r.node.blockChainHash.IsChain (Links env r'.node.blockchain) := by
    intro fresh
    refine before.linked.imp_of_mem_imp fun prevHash hash _ member => ?_
    rintro ⟨b, found, facts⟩
    refine ⟨b, ?_, facts⟩
    rw [done.blockchain, readBlock_writeBlock_ne fun same => fresh (same ▸ member)]
    exact found
  have new_link : Links env r'.node.blockchain r.node.tip block.header.hash ↔
      block.header.hash = headerHash env.crypto block.header := by
    constructor
    · rintro ⟨b, found, -, own⟩
      rw [read] at found
      obtain rfl := Except.ok.inj (Option.some.inj found)
      exact own
    · exact fun own => ⟨block, read, onTip, own⟩
  rw [hashChain_returned done, new_link, SealedBlock, if_pos creatable]
  constructor
  · rintro ⟨⟨-, fresh⟩, ⟨-, own⟩, kept⟩
    refine ⟨fresh, own, fun file member named => ?_⟩
    -- the file is still there, so it is the one that was written
    have still := kept file (done.files ▸ List.mem_append_left _ (recorded file member))
    rw [done.blockchain, mem_writeBlock creatable] at still
    rcases still with rfl | ⟨-, other⟩
    · rfl
    · exact absurd named other
  · rintro ⟨fresh, own, unchanged⟩
    refine ⟨⟨before.distinct, fresh⟩, ⟨old_links fresh, own⟩, fun file member => ?_⟩
    rw [done.files, List.mem_append, ← done.blockchain] at member
    rcases member with old | new
    · have present := before.kept file old
      rw [done.blockchain, mem_writeBlock creatable]
      by_cases named : file.name = block.header.hash ++ ".json"
      · left
        rw [← unchanged file present named, ← named]
      · exact Or.inr ⟨present, named⟩
    · exact new

/-- When the file cannot be created the chain grows over the directory as it is. -/
theorem hashChain_unwritten (unwritable : ¬env.creatable (block.header.hash ++ ".json") = true)
    (done : Returned env r r' block) (before : HashChain env r) :
    HashChain env r' ↔ SealedBlock env r.node.toCoinNode block := by
  have same : writeBlock env r.node.blockchain block = r.node.blockchain := if_neg unwritable
  have kept : ∀ file ∈ r'.files, file ∈ r.node.blockchain := by
    intro file member
    rw [done.files, same, List.mem_append] at member
    exact member.elim (before.kept file) id
  rw [hashChain_returned done, done.blockchain, same, SealedBlock, if_neg unwritable]
  constructor
  · rintro ⟨⟨-, fresh⟩, ⟨-, link⟩, -⟩
    exact ⟨fresh, link⟩
  · rintro ⟨fresh, link⟩
    exact ⟨⟨before.distinct, fresh⟩, ⟨before.linked, link⟩, kept⟩

/-- A call that leaves the chain and the directory alone. -/
theorem HashChain.quiet (before : HashChain env r)
    (chain : r'.node.blockChainHash = r.node.blockChainHash)
    (directory : r'.node.blockchain = r.node.blockchain)
    (files : ∀ file ∈ r'.files, file ∈ r.files ∨ file ∈ r.node.blockchain) :
    HashChain env r' where
  distinct := chain ▸ before.distinct
  linked := by
    rw [chain, directory]
    exact before.linked
  kept file member := by
    rw [directory]
    exact (files file member).elim (before.kept file) id

theorem hashChain_step {call : NodeCall} (reparses : Reparses env) (recorded : Recorded r)
    (before : HashChain env r) (checked : Checked env r call)
    (taken : step env r call = some r') : HashChain env r' ↔ Sealed env r call := by
  rw [step_perform taken]
  cases call with
  | addTransx tx =>
    rw [perform_addTransx]
    refine iff_of_true ?_ trivial
    split
    · exact before.quiet rfl rfl fun _ => Or.inl
    · exact before
  | packBlock random merkle =>
    rw [perform_packBlock]
    exact iff_of_true (before.quiet rfl rfl fun _ => Or.inl) trivial
  | commitProposal p =>
    obtain ⟨block, parsed, accepted⟩ := checked_block checked
    have sealed_iff : Sealed env r (.commitProposal p) ↔
        (Named env.amounts r.node.balances block.transxList →
          SealedBlock env r.node.toCoinNode block) := by
      simp [Sealed, Result.Returns, parsed]
    rw [sealed_iff]
    by_cases named : Named env.amounts r.node.balances block.transxList
    · simp only [named, forall_const]
      have onTip : block.header.prevHash = r.node.tip := ((checkBlock_iff ..).mp accepted).1
      have done := commit_returned (r := r) parsed named
      -- a file whose name cannot be created is not written, and nobody notices
      by_cases creatable : env.creatable (block.header.hash ++ ".json") = true
      · exact hashChain_written (reparses p block parsed) creatable onTip done recorded before
      · exact hashChain_unwritten creatable done before
    · -- the call stops in `UpdateBlance`, before it comes to the chain
      have stopped := commit_stopped (r := r) parsed named
      refine iff_of_true ?_ fun all => absurd all named
      apply before.quiet stopped.blockChainHash stopped.blockchain
      intro file member
      rwa [stopped.files, List.mem_append] at member

/-- Over checked blocks, a run that starts with the genesis block alone keeps the chain and
its files sound exactly when every block that is applied is sealed. -/
theorem hash_chain_iff {node : PackingNode} {genesis : String} {run : List NodeCall}
    (reparses : Reparses env) (alone : node.blockChainHash = [genesis])
    (checked : Meets (step env) (Checked env) (start node) run)
    (ran : exec (step env) (start node) run = some r) :
    Always (step env) (HashChain env) (start node) run ↔
      Meets (step env) (Sealed env) (start node) run := by
  have atStart : HashChain env (start node) := by
    refine ⟨?_, ?_, fun file member => member⟩
    · exact alone ▸ List.nodup_singleton genesis
    · exact alone ▸ List.isChain_singleton genesis
  refine always_iff_meets atStart ?_ checked ran
  intro s call s' reached before accepted taken
  have recorded : Recorded s := reached.invariant (P := Recorded) (fun _ member => member)
    fun _ _ _ _ recorded _ taken => recorded_step recorded taken
  exact hashChain_step reparses recorded before accepted taken

/-! ### Two runs -/

/-- The sample library prints the listed blocks so that they are parsed back. -/
theorem sampleEnv_reparses {c : Crypto} {blocks : List Block}
    (printed : ∀ b ∈ blocks, (sampleEnv blocks).parseBlock
      ((sampleEnv blocks).json.pretty b.toJson ++ "\n") = .ok b) :
    Reparses { sampleEnv blocks with crypto := c } := by
  intro p block parsed
  obtain ⟨j, read, decoded⟩ := Result.bind_ok.mp parsed
  -- only the listed blocks are ever parsed
  obtain ⟨b, listed, rfl⟩ : ∃ b ∈ blocks, b.toJson = j := by
    unfold sampleEnv sampleJsonText sampleJsonTextWith at read
    dsimp only at read
    split at read
    next b found => exact ⟨b, List.mem_of_find?_eq_some found, Except.ok.inj read⟩
    next => cases read
  rw [Block.fromJson_toJson] at decoded
  obtain rfl := Except.ok.inj decoded
  exact printed b listed

/-- SHA-256 of the header in the next example. -/
def headerDigests : List (String × String) :=
  [("12378178319genesismerklenonce",
    "56e4ff6c596a19302c31810d1cdeae7b58dd75aaf6d99f05dc42ae4b42cd19f3")]

/-- A block under the hash of its header. -/
def sealedBlock : Block :=
  sampleBlock 1 "genesis" "56e4ff6c596a19302c31810d1cdeae7b58dd75aaf6d99f05dc42ae4b42cd19f3"
    [samplePayment 1 "a" "04b"]

def sealedEnv : Env :=
  { sampleEnv [sealedBlock] with crypto := sampleCryptoWith (headerDigests ++ sampleDigests) }

def sealedRun : List NodeCall := [.commitProposal (sealedEnv.json.dump sealedBlock.toJson)]

theorem hash_chain_sealed :
    ∃ r, exec (step sealedEnv) (start samplePackingNode) sealedRun = some r ∧
      r.node.blockChainHash = ["genesis", sealedBlock.header.hash] ∧ HashChain sealedEnv r := by
  obtain ⟨r, ran, chain⟩ := exec_of_run (step sealedEnv) (start samplePackingNode) sealedRun
    (p := fun r => decide (r.node.blockChainHash = ["genesis", sealedBlock.header.hash]))
    (by decide +kernel)
  refine ⟨r, ran, of_decide_eq_true chain, ?_⟩
  have always := (hash_chain_iff (sampleEnv_reparses (by decide +kernel)) rfl
    (by decide +kernel) ran).mpr (by decide +kernel)
  exact always.last ran

/-- Two payments in blocks that both claim the hash `h1`. -/
def collidingBlocks : List Block :=
  [sampleBlock 1 "genesis" "h1" [samplePayment 1 "a" "04b"],
    sampleBlock 2 "h1" "h1" [samplePayment 3 "b" "04a"]]

def collidingRun : List NodeCall :=
  collidingBlocks.map fun b => .commitProposal ((sampleEnv collidingBlocks).json.dump b.toJson)

/-- Both blocks pass the check, and the second is written over the first. -/
theorem chain_broken :
    let env := sampleEnv collidingBlocks
    Reparses env ∧ Meets (step env) (Checked env) (start samplePackingNode) collidingRun ∧
      ∃ r, exec (step env) (start samplePackingNode) collidingRun = some r ∧
        r.node.blockChainHash = ["genesis", "h1", "h1"] ∧ r.node.blockchain.length = 1 ∧
        r.files.length = 2 ∧ ¬HashChain env r := by
  intro env
  refine ⟨sampleEnv_reparses (c := sampleCrypto) (by decide +kernel), by decide +kernel, ?_⟩
  obtain ⟨r, ran, ends⟩ := exec_of_run (step env) (start samplePackingNode) collidingRun
    (p := fun r => decide (r.node.blockChainHash = ["genesis", "h1", "h1"] ∧
      r.node.blockchain.length = 1 ∧ r.files.length = 2)) (by decide +kernel)
  obtain ⟨chain, directory, files⟩ := of_decide_eq_true ends
  refine ⟨r, ran, chain, directory, files, fun sound => ?_⟩
  have distinct := sound.distinct
  rw [chain] at distinct
  exact absurd distinct (by decide)

end NodeRun

end Ruccoin.Coin
