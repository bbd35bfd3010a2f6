import Ruccoin.Coin.Node
import Ruccoin.Foundation.Paths
import Ruccoin.Foundation.Result

/-!
# Rebuilding the chain from its files

`ReadBlockChainHash` lists the directory in whatever order the file system has, and then
looks again and again for a file that names the end of the chain as its predecessor. The
loop uses up one file a turn, and what it builds is a maximal path of the relation between
blocks and their predecessors. Where no two blocks have the same predecessor there is only
one such path, and the order of the directory does not matter.
-/

namespace Ruccoin.Coin

variable {env : Env} {genesis : String} {files files' : List BlockFile}
  {pairs : List (String × String)}

/-- `block_json["header"]["prev_hash"]`. -/
def prevHashIn (env : Env) (text : String) : Except Fault String := do
  let header ← (← env.json.parse text).indexOrNull "header"
  (← header.indexOrNull "prev_hash").getString

/-- A file that is not the genesis block's has `hash` in its name and names `prevHash`. -/
def NamesPrevious (env : Env) (genesis : String) (files : List BlockFile)
    (prevHash hash : String) : Prop :=
  hash ≠ genesis ∧ ∃ file ∈ files,
    blockStem file.name = some hash ∧ prevHashIn env file.text = .ok prevHash

/-- `ReadBlockChainHash`. -/
def readBlockChainHash (env : Env) (genesis : String) (files : List BlockFile) :
    Except Fault (List String) :=
  (hashPrehash env genesis files).map fun pairs => linkChain pairs.length pairs genesis

/-- The chain of a node is the one that is read when it starts. -/
theorem init_blockChainHash {conf : CoinConfig} {id : Nat} {disk : Disk} {node : CoinNode}
    (started : CoinNode.init env conf id disk = .ok node) :
    readBlockChainHash env conf.genesisBlock disk.blockchain = .ok node.blockChainHash := by
  unfold CoinNode.init at started
  split at started
  · cases started
  · obtain ⟨pairs, read, rfl⟩ := Result.map_ok.mp started
    exact Result.map_ok.mpr ⟨pairs, read, rfl⟩

/-! ### The listing -/

/-- The hashes in the names of block files, with the texts, the genesis block left out. -/
def namedTexts (genesis : String) (files : List BlockFile) : List (String × String) :=
  (files.filterMap fun file => (blockStem file.name).map (·, file.text)).filter (·.1 ≠ genesis)

theorem mem_namedTexts {hash text : String} :
    (hash, text) ∈ namedTexts genesis files ↔
      hash ≠ genesis ∧ ∃ file ∈ files, blockStem file.name = some hash ∧ file.text = text := by
  unfold namedTexts
  rw [List.mem_filter, List.mem_filterMap, decide_eq_true_eq, and_comm]
  simp only [Option.map_eq_some_iff, Prod.mk.injEq]
  constructor
  · rintro ⟨other, file, member, stem, named, rfl, same⟩
    exact ⟨other, file, member, named, same⟩
  · rintro ⟨other, file, member, named, same⟩
    exact ⟨other, file, member, hash, named, rfl, same⟩

theorem hashPrehash_eq (env : Env) (genesis : String) (files : List BlockFile) :
    hashPrehash env genesis files =
      (namedTexts genesis files).mapM fun named => (prevHashIn env named.2).map (named.1, ·) := by
  unfold hashPrehash
  change List.mapM _ (namedTexts genesis files) = _
  congr 1
  funext ⟨stem, text⟩
  unfold prevHashIn
  dsimp only [bind]
  cases env.json.parse text with
  | error e => rfl
  | ok j =>
    dsimp only [Except.bind]
    cases j.indexOrNull "header" with
    | error e => rfl
    | ok header =>
      dsimp only
      cases header.indexOrNull "prev_hash" with
      | error e => rfl
      | ok value => cases value.getString <;> rfl

/-- What the loop is given: the links between the files. -/
theorem mem_hashPrehash (read : hashPrehash env genesis files = .ok pairs)
    {prevHash hash : String} :
    (hash, prevHash) ∈ pairs ↔ NamesPrevious env genesis files prevHash hash := by
  rw [hashPrehash_eq] at read
  rw [Result.mem_mapM_ok read]
  unfold NamesPrevious
  simp only [Prod.exists, mem_namedTexts, Result.map_ok, Prod.mk.injEq]
  constructor
  · rintro ⟨stem, text, ⟨other, file, member, named, rfl⟩, found, returned, rfl, rfl⟩
    exact ⟨other, file, member, named, returned⟩
  · rintro ⟨other, file, member, named, returned⟩
    exact ⟨hash, file.text, ⟨other, file, member, named, rfl⟩, prevHash, returned, rfl, rfl⟩

theorem toList_of_blockStem {name stem : String} (named : blockStem name = some stem) :
    name.toList = stem.toList ++ ".json".toList := by
  unfold blockStem at named
  dsimp only at named
  split at named
  next extension =>
    obtain ⟨⟨chars, split⟩, -⟩ := extension
    have five : ".json".toList.length = 5 := rfl
    obtain rfl := Option.some.inj named
    rw [String.toList_ofList, ← split, List.length_append, five, Nat.add_sub_cancel,
      List.take_left]
  next => cases named

/-- Files with distinct names have distinct hashes in them. -/
theorem hashPrehash_distinct (distinct : (files.map BlockFile.name).Nodup)
    (read : hashPrehash env genesis files = .ok pairs) :
    (genesis :: pairs.map Prod.fst).Nodup := by
  have hashes : pairs.map Prod.fst = (namedTexts genesis files).map Prod.fst := by
    rw [hashPrehash_eq, Result.mapM_ok] at read
    rw [← List.forall₂_eq_eq_eq, List.forall₂_map_left_iff, List.forall₂_map_right_iff]
    refine read.flip.imp fun pair named returned => ?_
    obtain ⟨prevHash, -, rfl⟩ := Result.map_ok.mp returned
    rfl
  have stems : ((files.filterMap fun file => (blockStem file.name).map (·, file.text)).map
      Prod.fst) = (files.map BlockFile.name).filterMap blockStem := by
    simp [List.map_filterMap, List.filterMap_map, Function.comp_def]
  rw [List.nodup_cons, hashes]
  constructor
  · intro member
    obtain ⟨⟨hash, text⟩, named, rfl⟩ := List.mem_map.mp member
    exact (mem_namedTexts.mp named).1 rfl
  · have sublist : ((namedTexts genesis files).map Prod.fst).Sublist
        ((files.map BlockFile.name).filterMap blockStem) :=
      stems ▸ List.filter_sublist.map Prod.fst
    refine List.Nodup.sublist sublist (distinct.filterMap ?_)
    intro name name' stem named named'
    rw [← String.toList_inj, toList_of_blockStem named, toList_of_blockStem named']

/-! ### The loop -/

/-- The runs of the loop that end: what is left of `hash_prehash`, `block_chain_hash_`, and
the latter at the end. -/
inductive LinkLoop : List (String × String) → List String → List String → Prop where
  /-- No pair continues the chain; this is so when none is left, too. -/
  | stop {left : List (String × String)} {chain : List String} :
      (∀ pair ∈ left, some pair.2 ≠ chain.getLast?) → LinkLoop left chain chain
  /-- The first pair that continues the chain is erased. -/
  | turn {before after : List (String × String)} {pair : String × String}
      {chain result : List String} :
      (∀ earlier ∈ before, some earlier.2 ≠ chain.getLast?) → some pair.2 = chain.getLast? →
        LinkLoop (before ++ after) (chain ++ [pair.1]) result →
          LinkLoop (before ++ pair :: after) chain result

/-- The loop ends after at most one turn for each pair, with the chain that `linkChain`
computes. -/
theorem linkLoop_linkChain {turns : Nat} (enough : pairs.length ≤ turns) (chain : List String)
    (last : String) : LinkLoop pairs (chain ++ [last]) (chain ++ linkChain turns pairs last) := by
  -- every turn takes one pair out, so there are enough turns for all of them
  induction turns generalizing pairs chain last with
  | zero =>
    obtain rfl := List.length_eq_zero_iff.mp (Nat.le_zero.mp enough)
    exact .stop fun pair member => absurd member List.not_mem_nil
  | succ turns ih =>
    unfold linkChain
    cases found : pairs.find? (·.2 = last) with
    | none =>
      refine .stop fun pair member => ?_
      have other := List.find?_eq_none.mp found pair member
      simpa using other
    | some pair =>
      obtain ⟨here, before, after, rfl, others⟩ := List.find?_eq_some_iff_append.mp found
      have erased : (before ++ pair :: after).eraseP (·.2 = last) = before ++ after := by
        rw [List.eraseP_append_right _ fun earlier member => by simpa using others earlier member]
        simp [of_decide_eq_true here]
      have fewer : (before ++ after).length ≤ turns := by
        rw [List.length_append, List.length_cons] at enough
        rw [List.length_append]
        omega
      have rest := ih fewer (chain ++ [last]) pair.1
      dsimp only
      rw [erased, List.append_cons chain last (linkChain turns _ _)]
      refine .turn ?_ ?_ rest
      · intro earlier member
        simpa using others earlier member
      · simpa using here

/-- What holds between the turns: every pair is left or has its hash in the chain, and no
hash is there twice. -/
structure LinkInvariant (genesis : String) (pairs left : List (String × String))
    (chain : List String) : Prop where
  first : chain.head? = some genesis
  linked : chain.IsChain fun prevHash hash => (hash, prevHash) ∈ pairs
  distinct : (chain ++ left.map Prod.fst).Nodup
  listed : left ⊆ pairs
  used : ∀ pair ∈ pairs, pair ∈ left ∨ pair.1 ∈ chain

namespace LinkInvariant

variable {left before after : List (String × String)} {pair : String × String}
  {chain result : List String}

theorem start (distinct : (genesis :: pairs.map Prod.fst).Nodup) :
    LinkInvariant genesis pairs pairs [genesis] where
  first := rfl
  linked := List.isChain_singleton genesis
  distinct := distinct
  listed := List.Subset.refl pairs
  used _ member := Or.inl member

theorem turn (invariant : LinkInvariant genesis pairs (before ++ pair :: after) chain)
    (follows : some pair.2 = chain.getLast?) :
    LinkInvariant genesis pairs (before ++ after) (chain ++ [pair.1]) := by
  have moved : (before ++ pair :: after).Perm (pair :: (before ++ after)) := List.perm_middle
  refine ⟨?_, ?_, ?_, ?_, ?_⟩
  · rw [List.head?_append, invariant.first]
    rfl
  · rw [List.isChain_append]
    refine ⟨invariant.linked, List.isChain_singleton _, fun last ends hash head => ?_⟩
    obtain rfl : pair.1 = hash := by simpa using head
    rw [← follows, Option.mem_some_iff] at ends
    rw [← ends]
    exact invariant.listed (moved.mem_iff.mpr List.mem_cons_self)
  · -- the hash only moves from the pairs to the chain
    have same : (chain ++ [pair.1] ++ (before ++ after).map Prod.fst).Perm
        (chain ++ (before ++ pair :: after).map Prod.fst) := by
      rw [List.append_assoc]
      exact (moved.symm.map Prod.fst).append_left chain
    exact same.nodup_iff.mpr invariant.distinct
  · exact fun other member =>
      invariant.listed (moved.mem_iff.mpr (List.mem_cons_of_mem pair member))
  · intro other member
    rcases invariant.used other member with unused | used
    · rcases List.mem_cons.mp (moved.mem_iff.mp unused) with rfl | later
      · exact Or.inr (List.mem_append_right _ List.mem_cons_self)
      · exact Or.inl later
    · exact Or.inr (List.mem_append_left _ used)

/-- When the loop ends the chain is a maximal path. -/
theorem maximal (looped : LinkLoop left chain result)
    (invariant : LinkInvariant genesis pairs left chain) :
    Paths.Maximal (fun prevHash hash => (hash, prevHash) ∈ pairs) genesis result := by
  induction looped with
  | stop ended =>
    refine ⟨invariant.first, invariant.linked, (List.nodup_append.mp invariant.distinct).1, ?_⟩
    intro last ends hash link
    rcases invariant.used _ link with unused | used
    · exact absurd ends.symm (ended _ unused)
    · exact used
  | turn _ follows _ ih => exact ih (invariant.turn follows)

end LinkInvariant

/-- Over files with distinct names the loop ends, with a list that starts with the genesis
block, repeats nothing, has each block follow its predecessor and cannot be extended; a node
that is initialised on the files has this chain. If no block has two successors, it is the
same list for every order of the files. -/
theorem chain_reconstructed (env : Env) (genesis : String) (files : List BlockFile)
    (pairs : List (String × String)) (distinct : (files.map BlockFile.name).Nodup)
    (read : hashPrehash env genesis files = .ok pairs) :
    ∃ chain, readBlockChainHash env genesis files = .ok chain ∧
      LinkLoop pairs [genesis] chain ∧
      Paths.Maximal (NamesPrevious env genesis files) genesis chain ∧
      (∀ conf id disk node, CoinNode.init env conf id disk = .ok node →
        conf.genesisBlock = genesis → disk.blockchain = files → node.blockChainHash = chain) ∧
      ((∀ prevHash hash hash', NamesPrevious env genesis files prevHash hash →
          NamesPrevious env genesis files prevHash hash' → hash = hash') →
        ∀ files', files'.Perm files → readBlockChainHash env genesis files' = .ok chain) := by
  -- the same holds of every order
  have each : ∀ listing pairs, (listing.map BlockFile.name).Nodup →
      hashPrehash env genesis listing = .ok pairs →
        LinkLoop pairs [genesis] (linkChain pairs.length pairs genesis) ∧
        Paths.Maximal (NamesPrevious env genesis listing) genesis
          (linkChain pairs.length pairs genesis) := by
    intro listing pairs distinct read
    have looped : LinkLoop pairs [genesis] (linkChain pairs.length pairs genesis) :=
      linkLoop_linkChain le_rfl [] genesis
    have path := LinkInvariant.maximal looped (.start (hashPrehash_distinct distinct read))
    simp only [mem_hashPrehash read] at path
    exact ⟨looped, path⟩
  obtain ⟨looped, path⟩ := each files pairs distinct read
  have chained : readBlockChainHash env genesis files =
      .ok (linkChain pairs.length pairs genesis) := Result.map_ok.mpr ⟨pairs, read, rfl⟩
  refine ⟨_, chained, looped, path, ?_, fun functional files' perm => ?_⟩
  · rintro conf id disk node started rfl rfl
    exact Except.ok.inj ((init_blockChainHash started).symm.trans chained)
  have names : (files'.map BlockFile.name).Nodup :=
    (perm.map BlockFile.name).nodup_iff.mpr distinct
  have texts : (namedTexts genesis files').Perm (namedTexts genesis files) :=
    (perm.filterMap _).filter _
  rw [hashPrehash_eq] at read
  obtain ⟨pairs', read', -⟩ := Result.mapM_perm texts read
  rw [← hashPrehash_eq] at read'
  have same : NamesPrevious env genesis files' = NamesPrevious env genesis files := by
    funext prevHash hash
    unfold NamesPrevious
    simp only [perm.mem_iff]
  obtain ⟨-, path'⟩ := each files' pairs' names read'
  rw [same] at path'
  exact Result.map_ok.mpr ⟨pairs', read', path'.unique functional path⟩

/-- Two blocks on the genesis block, and one whose predecessor is nowhere. -/
def scatteredBlocks : List Block :=
  [sampleBlock 2 "h1" "h2" [], sampleBlock 0 "" "genesis" [], sampleBlock 4 "h3" "h4" [],
    sampleBlock 1 "genesis" "h1" []]

def scatteredFiles : List BlockFile :=
  scatteredBlocks.map fun b => ⟨b.header.hash ++ ".json",
    (sampleEnv scatteredBlocks).json.pretty b.toJson ++ "\n"⟩

theorem chain_reconstructed_scattered :
    readBlockChainHash (sampleEnv scatteredBlocks) "genesis" scatteredFiles.reverse =
      .ok ["genesis", "h1", "h2"] := by
  have read : hashPrehash (sampleEnv scatteredBlocks) "genesis" scatteredFiles =
      .ok [("h2", "h1"), ("h4", "h3"), ("h1", "genesis")] := by decide +kernel
  obtain ⟨chain, found, -, -, -, same⟩ := chain_reconstructed (sampleEnv scatteredBlocks) "genesis"
    scatteredFiles _ (by decide +kernel) read
  have listed : readBlockChainHash (sampleEnv scatteredBlocks) "genesis" scatteredFiles =
      .ok ["genesis", "h1", "h2"] := by decide +kernel
  rw [found, Except.ok.injEq] at listed
  rw [← listed]
  refine same (fun prevHash hash hash' link link' => ?_) _ (List.reverse_perm _)
  rw [← mem_hashPrehash read] at link link'
  have apart : ([("h2", "h1"), ("h4", "h3"), ("h1", "genesis")].map Prod.snd).Nodup := by decide
  exact congrArg Prod.fst (List.inj_on_of_nodup_map apart link link' rfl)

end Ruccoin.Coin
