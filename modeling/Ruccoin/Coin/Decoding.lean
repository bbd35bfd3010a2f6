import Ruccoin.Coin.Proposing
import Ruccoin.Foundation.Result

/-!
# Proposals that are no blocks

`CheckProposal` decodes whatever text the primary sent. The decoders have no answer to a
text of another form but an exception, and what they decode is a little more than what
`to_json` writes. The check itself throws at a sender whose balance is no number.
-/

namespace Ruccoin.Coin

open Result

variable {D : Type}

/-! ### The form of a block -/

/-- The types that `get_to` tells apart here. It casts any number. -/
inductive FieldType where
  | number
  | text

namespace Json

inductive HasType : Json D → FieldType → Prop where
  | integer (n : Int) : HasType (.integer n) .number
  | float (v : D) : HasType (.float v) .number
  | string (s : String) : HasType (.string s) .text

/-- An object with this field. -/
def HasField (j : Json D) (key : String) (value : Json D) : Prop :=
  ∃ fields, j = .object fields ∧ fields.lookup key = some value

/-- An object with all of these fields. -/
def Complete (fields : List (String × FieldType)) (j : Json D) : Prop :=
  ∀ field ∈ fields, ∃ value, j.HasField field.1 value ∧ value.HasType field.2

end Json

def headerFields : List (String × FieldType) :=
  [("height", .number), ("target", .number), ("prev_hash", .text), ("hash", .text),
    ("merkle_root", .text), ("nonce", .text)]

def txFields : List (String × FieldType) :=
  [("time_stamp", .number), ("from", .text), ("to", .text), ("value", .number),
    ("signature", .text)]

namespace Json

/-- An object with a complete header and an array of complete transactions. -/
structure IsBlock (j : Json D) : Prop where
  header : ∃ header, j.HasField "header" header ∧ header.Complete headerFields
  transxList : ∃ items, j.HasField "transx_list" (.array items) ∧
    ∀ item ∈ items, item.Complete txFields

/-- What is decoded as a block. The loop over `transx_list` goes through the values of an
object too, and through nothing when it is `null`. -/
structure Decodable (j : Json D) : Prop where
  header : ∃ header, j.HasField "header" header ∧ header.Complete headerFields
  transxList : ∃ list, j.HasField "transx_list" list ∧
    ∀ item ∈ list.elements, item.Complete txFields

theorem IsBlock.decodable {j : Json D} (block : j.IsBlock) : j.Decodable where
  header := block.header
  transxList :=
    have ⟨items, listed, complete⟩ := block.transxList
    ⟨.array items, listed, complete⟩

/-! ### What the decoders accept -/

variable {j value : Json D} {key : String}

theorem atKey_ok : j.atKey key = .ok value ↔ j.HasField key value := by
  cases j with
  | object fields =>
    unfold atKey HasField
    cases found : fields.lookup key with
    | none => simp [found]
    | some value' => simp [found]
  | _ => simp [atKey, HasField]

theorem index_ok : j.index key = .ok value ↔ j.HasField key value := by
  cases j with
  | object fields =>
    unfold index HasField
    cases found : fields.lookup key with
    | none => simp [found]
    | some value' => simp [found]
  | _ => simp [index, HasField]

theorem hasType_number :
    value.HasType .number ↔ (∃ n, value = .integer n) ∨ ∃ v, value = .float v := by
  constructor
  · rintro (n | v)
    · exact Or.inl ⟨n, rfl⟩
    · exact Or.inr ⟨v, rfl⟩
  · rintro (⟨n, rfl⟩ | ⟨v, rfl⟩)
    · exact .integer n
    · exact .float v

theorem hasType_text : value.HasType .text ↔ ∃ s, value = .string s := by
  constructor
  · rintro ⟨⟩
    exact ⟨_, rfl⟩
  · rintro ⟨s, rfl⟩
    exact .string s

theorem getUInt64_succeeds [Double D] : Succeeds value.getUInt64 ↔ value.HasType .number := by
  rw [hasType_number]
  cases value <;> simp [getUInt64, Succeeds]

theorem getDouble_succeeds [Double D] : Succeeds value.getDouble ↔ value.HasType .number := by
  rw [hasType_number]
  cases value <;> simp [getDouble, Succeeds]

theorem getString_succeeds : Succeeds value.getString ↔ value.HasType .text := by
  rw [hasType_text]
  cases value <;> simp [getString, Succeeds]

/-- A field is read when it is there and of its type, and then the rest is. -/
theorem field_succeeds {α β : Type} {get : Json D → Except Fault α} {type : FieldType}
    {f : α → Except Fault β} {rest : Prop}
    (typed : ∀ value, Succeeds (get value) ↔ value.HasType type)
    (same : ∀ a, Succeeds (f a) ↔ rest) :
    Succeeds ((j.atKey key).bind fun value => (get value).bind f) ↔
      (∃ value, j.HasField key value ∧ value.HasType type) ∧ rest := by
  constructor
  · rintro ⟨b, returned⟩
    obtain ⟨value, found, read⟩ := bind_ok.mp returned
    obtain ⟨got, later⟩ := (succeeds_bind same).mp ⟨b, read⟩
    exact ⟨⟨value, atKey_ok.mp found, (typed value).mp got⟩, later⟩
  · rintro ⟨⟨value, field, type⟩, later⟩
    obtain ⟨b, read⟩ := (succeeds_bind same).mpr ⟨(typed value).mpr type, later⟩
    exact ⟨b, bind_ok.mpr ⟨value, atKey_ok.mpr field, read⟩⟩

end Json

open Json

variable [Double D]

theorem BlockHeader.fromJson_succeeds {j : Json D} :
    Succeeds (BlockHeader.fromJson j) ↔ j.Complete headerFields := by
  unfold Complete headerFields
  simp only [List.forall_mem_cons]
  apply field_succeeds (fun _ => getUInt64_succeeds)
  intro height
  apply field_succeeds (fun _ => getUInt64_succeeds)
  intro target
  apply field_succeeds (fun _ => getString_succeeds)
  intro prevHash
  apply field_succeeds (fun _ => getString_succeeds)
  intro hash
  apply field_succeeds (fun _ => getString_succeeds)
  intro merkleRoot
  apply field_succeeds (fun _ => getString_succeeds)
  intro nonce
  exact iff_of_true ⟨_, rfl⟩ (List.forall_mem_nil _)

theorem TX.fromJson_succeeds {j : Json D} :
    Succeeds (TX.fromJson j) ↔ j.Complete txFields := by
  unfold Complete txFields
  simp only [List.forall_mem_cons]
  apply field_succeeds (fun _ => getUInt64_succeeds)
  intro timeStamp
  apply field_succeeds (fun _ => getString_succeeds)
  intro fromAddr
  apply field_succeeds (fun _ => getString_succeeds)
  intro toAddr
  apply field_succeeds (fun _ => getDouble_succeeds)
  intro value
  apply field_succeeds (fun _ => getString_succeeds)
  intro signature
  exact iff_of_true ⟨_, rfl⟩ (List.forall_mem_nil _)

theorem Block.fromJson_succeeds {j : Json D} :
    Succeeds (Block.fromJson j) ↔ j.Decodable := by
  constructor
  · rintro ⟨block, decoded⟩
    -- the header is looked up with `at`, the list with `[]`
    obtain ⟨header, headerFound, decoded⟩ := bind_ok.mp decoded
    obtain ⟨h, headerRead, decoded⟩ := bind_ok.mp decoded
    obtain ⟨list, listFound, decoded⟩ := bind_ok.mp decoded
    obtain ⟨txs, listRead, -⟩ := bind_ok.mp decoded
    constructor
    · exact ⟨header, atKey_ok.mp headerFound, BlockHeader.fromJson_succeeds.mp ⟨h, headerRead⟩⟩
    · refine ⟨list, index_ok.mp listFound, fun item member => ?_⟩
      exact TX.fromJson_succeeds.mp (succeeds_mapM.mp ⟨txs, listRead⟩ item member)
  · rintro ⟨⟨header, headerField, complete⟩, ⟨list, listField, items⟩⟩
    obtain ⟨h, headerRead⟩ := BlockHeader.fromJson_succeeds.mpr complete
    obtain ⟨txs, listRead⟩ : Succeeds (list.elements.mapM TX.fromJson) :=
      succeeds_mapM.mpr fun item member => TX.fromJson_succeeds.mpr (items item member)
    refine ⟨⟨h, txs⟩, bind_ok.mpr ⟨header, atKey_ok.mpr headerField, ?_⟩⟩
    refine bind_ok.mpr ⟨h, headerRead, bind_ok.mpr ⟨list, index_ok.mpr listField, ?_⟩⟩
    exact bind_ok.mpr ⟨txs, listRead, rfl⟩

theorem parseBlock_succeeds {env : Env D} {p : String} :
    Succeeds (env.parseBlock p) ↔ ∃ j, env.json.parse p = .ok j ∧ j.Decodable := by
  constructor
  · rintro ⟨block, parsed⟩
    obtain ⟨j, text, decoded⟩ := bind_ok.mp parsed
    exact ⟨j, text, Block.fromJson_succeeds.mp ⟨block, decoded⟩⟩
  · rintro ⟨j, text, decodable⟩
    obtain ⟨block, decoded⟩ := Block.fromJson_succeeds.mpr decodable
    exact ⟨block, bind_ok.mpr ⟨j, text, decoded⟩⟩

/-! ### What the check answers -/

variable [Sub D] [LT D] [DecidableLT D] {env : Env D} {st : ChainState} {block : Block D}

/-- The check gets to no sender whose stored balance is no number: where all transactions
before one pass and it validates, the balance of its sender can be read if there is one. -/
def Readable (env : Env D) (s : Store) (txs : List (TX D)) : Prop :=
  ∀ before tx after, txs = before ++ tx :: after →
    (∀ u ∈ before, u.validateSignature env.crypto env.amounts = true) →
      Affordable env.amounts s before →
        tx.validateSignature env.crypto env.amounts = true →
          tx.fromAddr ∈ s → Holds env.amounts s tx.fromAddr

theorem checkTransx_succeeds_iff {s : Store} {txs : List (TX D)} :
    Succeeds (ChainState.checkTransx env s ∅ txs) ↔ Readable env s txs := by
  rw [succeeds_iff_not_raises, checkTransx_raises_iff]
  constructor
  · intro never before tx after split passed affordable valid stored
    by_contra unread
    -- the check would get to this balance, and throw
    refine never ⟨before, tx, after, split, ?_, valid, stored, ?_⟩
    · exact checkTransx_start_iff.mpr ⟨passed, affordable⟩
    · rwa [Holds, Option.not_isSome_iff_eq_none] at unread
  · rintro readable ⟨before, tx, after, split, passed, valid, stored, unread⟩
    obtain ⟨valids, affordable⟩ := checkTransx_start_iff.mp passed
    have holds := readable before tx after split valids affordable valid stored
    exact absurd unread (Option.isSome_iff_ne_none.mp holds)

theorem checkBlock_succeeds_iff :
    Succeeds (st.checkBlock env block) ↔
      (block.header.prevHash = st.tip → Readable env st.balances block.transxList) := by
  unfold ChainState.checkBlock
  by_cases onTip : block.header.prevHash = st.tip
  · rw [if_neg (not_not.mpr onTip), checkTransx_succeeds_iff]
    exact ⟨fun readable _ => readable, fun readable => readable onTip⟩
  · -- a block off the tip is refused before its transactions are looked at
    rw [if_pos onTip]
    exact iff_of_true ⟨false, rfl⟩ fun linked => absurd linked onTip

/-- The text is that of an object with a complete header and a list of complete
transactions. -/
def WellFormed (env : Env D) (p : String) : Prop :=
  ∃ j, env.json.parse p = .ok j ∧ j.IsBlock

/-- The proposals that `CheckProposal` answers as it should. -/
structure Answerable (env : Env D) (st : ChainState) (p : String) : Prop where
  decodable : ∃ j, env.json.parse p = .ok j ∧ j.Decodable
  readable : ∀ block, env.parseBlock p = .ok block → block.header.prevHash = st.tip →
    Readable env st.balances block.transxList
  /-- What would be accepted has its transactions in an array. -/
  listed : ∀ block, env.parseBlock p = .ok block → block.header.prevHash = st.tip →
    (∀ tx ∈ block.transxList, tx.validateSignature env.crypto env.amounts = true) →
      Affordable env.amounts st.balances block.transxList → WellFormed env p

/-- `CheckProposal` returns, and returns false for all that is no block, exactly for the
proposals that can be answered. -/
theorem checkProposal_iff (env : Env D) (st : ChainState) (p : String) :
    ((∃ verdict, st.checkProposal env p = .ok verdict) ∧
        (¬WellFormed env p → st.checkProposal env p = .ok false)) ↔
      Answerable env st p := by
  constructor
  · rintro ⟨⟨verdict, answered⟩, refused⟩
    obtain ⟨block, parsed, checked⟩ := bind_ok.mp answered
    have only : ∀ {block'}, env.parseBlock p = .ok block' → block' = block := by
      intro block' parsed'
      exact Except.ok.inj (parsed'.symm.trans parsed)
    refine ⟨parseBlock_succeeds.mp ⟨block, parsed⟩, ?_, ?_⟩
    · intro block' parsed' onTip
      obtain rfl := only parsed'
      exact checkBlock_succeeds_iff.mp ⟨verdict, checked⟩ onTip
    · intro block' parsed' onTip valid affordable
      obtain rfl := only parsed'
      by_contra illFormed
      -- the block would be accepted
      have accepted := (checkBlock_iff_affordable env st block').mpr ⟨onTip, valid, affordable⟩
      have answer := bind_ok.mpr ⟨block', parsed', accepted⟩
      cases answer.symm.trans (refused illFormed)
  · intro answerable
    obtain ⟨block, parsed⟩ := parseBlock_succeeds.mpr answerable.decodable
    obtain ⟨verdict, checked⟩ := checkBlock_succeeds_iff.mpr (answerable.readable block parsed)
    have answer : st.checkProposal env p = .ok verdict := bind_ok.mpr ⟨block, parsed, checked⟩
    refine ⟨⟨verdict, answer⟩, fun illFormed => ?_⟩
    cases verdict with
    | false => exact answer
    | true =>
      -- what is accepted has its transactions in an array
      obtain ⟨onTip, valid, affordable⟩ := (checkBlock_iff_affordable env st block).mp checked
      exact absurd (answerable.listed block parsed onTip valid affordable) illFormed

/-- The empty text is no JSON, and the exception of the parser leaves `CheckProposal`. -/
theorem empty_proposal_raises :
    sampleNode.checkProposal (sampleEnv []) "" = .error .parseError ∧
      ¬((∃ verdict, sampleNode.checkProposal (sampleEnv []) "" = .ok verdict) ∧
        (¬WellFormed (sampleEnv []) "" →
          sampleNode.checkProposal (sampleEnv []) "" = .ok false)) := by
  have raised : sampleNode.checkProposal (sampleEnv []) "" = .error .parseError := rfl
  refine ⟨raised, ?_⟩
  rintro ⟨⟨verdict, answered⟩, -⟩
  cases raised.symm.trans answered

/-- A block without transactions, with `null` in place of their list. -/
def nullList : Json :=
  .object [("header", (sampleBlock 1 "genesis" "h1" [] : Block).header.toJson),
    ("transx_list", .null)]

/-- It is accepted. -/
theorem nullList_accepted :
    let env : Env := { sampleEnv [] with json := sampleTextOf nullList }
    sampleNode.checkProposal env (env.json.dump nullList) = .ok true ∧
      ¬WellFormed env (env.json.dump nullList) := by
  intro env
  have parsed : env.json.parse (env.json.dump nullList) = .ok nullList :=
    sampleTextOf_parse nullList
  constructor
  · unfold ChainState.checkProposal Env.parseBlock
    rw [parsed]
    rfl
  · -- `null` is no array
    rintro ⟨j, text, -, items, ⟨fields, same, found⟩, -⟩
    cases Except.ok.inj (parsed.symm.trans text)
    cases same
    cases found

end Ruccoin.Coin
