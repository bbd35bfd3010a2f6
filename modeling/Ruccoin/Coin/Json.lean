import Ruccoin.Coin.Structure

/-!
# Blocks as JSON

The `to_json` and `from_json` functions of `structure.h`. Parsing and printing are those of
the JSON library and parameters here; what the library does with a parsed value (`at`,
`operator[]`, `get_to`, iteration) follows its documentation.
-/

namespace Ruccoin.Coin

inductive Json (D : Type := Amount) where
  | null
  | boolean (b : Bool)
  | integer (n : Int)
  | float (v : D)
  | string (s : String)
  | array (items : List (Json D))
  /-- The fields in the order of their keys. -/
  | object (fields : List (String × Json D))

/-- The texts of the JSON library. -/
structure JsonText (D : Type := Amount) where
  parse : String → Except Fault (Json D)
  /-- `j.dump()`. -/
  dump : Json D → String
  /-- What `os << std::setw(2) << j` writes. -/
  pretty : Json D → String

variable {D : Type}

namespace Json

/-- `j.at(key)`. -/
def atKey (j : Json D) (key : String) : Except Fault (Json D) :=
  match j with
  | .object fields => match fields.lookup key with
    | some value => .ok value
    | none => .error (.outOfRange key)
  | _ => .error .typeError

/-- `j[key]` on a constant value: a missing key is an assertion of the library. -/
def index (j : Json D) (key : String) : Except Fault (Json D) :=
  match j with
  | .object fields => match fields.lookup key with
    | some value => .ok value
    | none => .error .assertFailed
  | _ => .error .typeError

/-- `j[key]` on a value that may change: a missing key is added, with the value `null`. -/
def indexOrNull (j : Json D) (key : String) : Except Fault (Json D) :=
  match j with
  | .object fields => .ok ((fields.lookup key).getD .null)
  | .null => .ok .null
  | _ => .error .typeError

/-- What a range-based `for` visits: a value that is no collection is visited itself. -/
def elements : Json D → List (Json D)
  | .array items => items
  | .object fields => fields.map Prod.snd
  | .null => []
  | j => [j]

/-- Any number, cast. -/
def getUInt64 [Double D] : Json D → Except Fault UInt64
  | .integer n => .ok (UInt64.ofInt n)
  | .float v => .ok (Double.toUInt64 v)
  | _ => .error .typeError

def getDouble [Double D] : Json D → Except Fault D
  | .integer n => .ok (Double.ofInteger n)
  | .float v => .ok v
  | _ => .error .typeError

def getString : Json D → Except Fault String
  | .string s => .ok s
  | _ => .error .typeError

end Json

namespace BlockHeader

def toJson (header : BlockHeader) : Json D :=
  .object [("hash", .string header.hash), ("height", .integer header.height.toNat),
    ("merkle_root", .string header.merkleRoot), ("nonce", .string header.nonce),
    ("prev_hash", .string header.prevHash), ("target", .integer header.target.toNat)]

def fromJson [Double D] (j : Json D) : Except Fault BlockHeader := do
  let height ← (← j.atKey "height").getUInt64
  let target ← (← j.atKey "target").getUInt64
  let prevHash ← (← j.atKey "prev_hash").getString
  let hash ← (← j.atKey "hash").getString
  let merkleRoot ← (← j.atKey "merkle_root").getString
  let nonce ← (← j.atKey "nonce").getString
  return { height, target, prevHash, hash, merkleRoot, nonce }

end BlockHeader

namespace TX

def toJson (tx : TX D) : Json D :=
  .object [("from", .string tx.fromAddr), ("signature", .string tx.signature),
    ("time_stamp", .integer tx.timeStamp.toNat), ("to", .string tx.toAddr),
    ("value", .float tx.value)]

def fromJson [Double D] (j : Json D) : Except Fault (TX D) := do
  let timeStamp ← (← j.atKey "time_stamp").getUInt64
  let fromAddr ← (← j.atKey "from").getString
  let toAddr ← (← j.atKey "to").getString
  let value ← (← j.atKey "value").getDouble
  let signature ← (← j.atKey "signature").getString
  return { timeStamp, fromAddr, toAddr, value, signature }

end TX

namespace Block

def toJson (block : Block D) : Json D :=
  .object [("header", block.header.toJson),
    ("transx_list", .array (block.transxList.map TX.toJson))]

def fromJson [Double D] (j : Json D) : Except Fault (Block D) := do
  let header ← BlockHeader.fromJson (← j.atKey "header")
  let transxList ← (← j.index "transx_list").elements.mapM TX.fromJson
  return { header, transxList }

end Block

/-! ### Decoding what was encoded -/

section Object

variable {key key' : String} {value : Json D} {fields : List (String × Json D)}

@[simp] theorem Json.atKey_first :
    (Json.object ((key, value) :: fields)).atKey key = .ok value := by
  simp [atKey]

@[simp] theorem Json.atKey_later (other : key ≠ key') :
    (Json.object ((key', value) :: fields)).atKey key = (Json.object fields).atKey key := by
  have differs : (key == key') = false := beq_false_of_ne other
  simp [atKey, List.lookup_cons, differs]

@[simp] theorem Json.index_first :
    (Json.object ((key, value) :: fields)).index key = .ok value := by
  simp [index]

@[simp] theorem Json.index_later (other : key ≠ key') :
    (Json.object ((key', value) :: fields)).index key = (Json.object fields).index key := by
  have differs : (key == key') = false := beq_false_of_ne other
  simp [index, List.lookup_cons, differs]

end Object

@[simp] theorem Json.getUInt64_toNat [Double D] (n : UInt64) :
    (Json.integer (D := D) n.toNat).getUInt64 = .ok n := by
  have bound : n.toNat < 2 ^ 64 := n.toNat_lt
  have inRange : ((n.toNat : Int) % 2 ^ 64).toNat = n.toNat := by omega
  rw [getUInt64, UInt64.ofInt, inRange, UInt64.ofNat_toNat]

theorem BlockHeader.fromJson_toJson [Double D] (header : BlockHeader) :
    fromJson (D := D) header.toJson = .ok header := by
  simp [fromJson, toJson, Json.getString, bind, Except.bind, pure, Except.pure]

theorem TX.fromJson_toJson [Double D] (tx : TX D) : fromJson tx.toJson = .ok tx := by
  simp [fromJson, toJson, Json.getString, Json.getDouble, bind, Except.bind, pure, Except.pure]

/-- A block is decoded from the value it was encoded in. -/
theorem Block.fromJson_toJson [Double D] (block : Block D) : fromJson block.toJson = .ok block := by
  have transactions : (block.transxList.map TX.toJson).mapM TX.fromJson =
      .ok block.transxList := by
    induction block.transxList with
    | nil => rfl
    | cons tx txs ih => simp [TX.fromJson_toJson, ih, bind, Except.bind, pure, Except.pure]
  simp [fromJson, toJson, Json.elements, BlockHeader.fromJson_toJson, transactions, bind,
    Except.bind, pure, Except.pure]

/-! ### Texts to run examples with -/

/-- A text between the two ends of a collection, on lines of their own when indented. -/
private def enclose (first last : String) (indent : Option Nat) (parts : List String) : String :=
  match indent, parts with
  | _, [] => first ++ last
  | none, parts => first ++ String.intercalate "," parts ++ last
  | some depth, parts =>
    let line := "\n" ++ String.ofList (List.replicate (depth + 2) ' ')
    first ++ line ++ String.intercalate ("," ++ line) parts ++ "\n" ++
      String.ofList (List.replicate depth ' ') ++ last

mutual

/-- The text of a value whose strings need no escapes, on one line or indented from a
column. -/
private def render (number : D → String) (indent : Option Nat) : Json D → String
  | .null => "null"
  | .boolean b => if b then "true" else "false"
  | .integer n => toString n
  | .float v => number v
  | .string s => "\"" ++ s ++ "\""
  | .array items => enclose "[" "]" indent (renderItems number (indent.map (· + 2)) items)
  | .object fields =>
    enclose "\x7b" "\x7d" indent (renderFields number (indent.map (· + 2)) fields)

private def renderItems (number : D → String) (indent : Option Nat) :
    List (Json D) → List String
  | [] => []
  | j :: items => render number indent j :: renderItems number indent items

private def renderFields (number : D → String) (indent : Option Nat) :
    List (String × Json D) → List String
  | [] => []
  | (key, j) :: fields =>
    ("\"" ++ key ++ "\"" ++ (if indent.isSome then ": " else ":") ++ render number indent j) ::
      renderFields number indent fields

end

/-- The library on the texts of the listed blocks, with the texts of numbers as given; it
rejects all others. -/
def sampleJsonTextWith (number : D → String) (blocks : List (Block D)) : JsonText D where
  dump := render number none
  pretty := render number (some 0)
  parse text :=
    match blocks.find? fun b => text = render number none b.toJson ∨
      text = render number (some 0) b.toJson ++ "\n" with
    | some b => .ok b.toJson
    | none => .error .parseError

/-- The text of a number without a fraction. -/
private def wholeNumber (v : Amount) : String := toString (v / 1000000) ++ ".0"

def sampleJsonText (blocks : List Block) : JsonText := sampleJsonTextWith wholeNumber blocks

/-- The library on the text of this value. -/
def sampleTextOf (j : Json) : JsonText where
  dump := render wholeNumber none
  pretty := render wholeNumber (some 0)
  parse text := if text = render wholeNumber none j then .ok j else .error .parseError

theorem sampleTextOf_parse (j : Json) :
    (sampleTextOf j).parse ((sampleTextOf j).dump j) = .ok j := by
  unfold sampleTextOf
  exact if_pos rfl

end Ruccoin.Coin
