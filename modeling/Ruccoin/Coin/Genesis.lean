import Ruccoin.Coin.Restart

/-!
# The first balances

`client::GenUser` of `client.cc` writes the file that every coin node fills its empty
database from with `ReadUserData`. The two agree on the lines only through the commas that
the one puts between the fields and the other looks for.
-/

namespace Ruccoin.Coin

/-! ### Writing the file -/

structure UserLine where
  privKey : String
  addr : String
  balance : String

def UserLine.text (line : UserLine) : String :=
  line.privKey ++ "," ++ line.addr ++ "," ++ line.balance

/-- `conf_json[key]["priv_key"]` and `conf_json[key]["addr"]`. -/
def readAccount (conf : Json) (key : String) : Except Fault Account := do
  let privKey ← (← (← conf.indexOrNull key).indexOrNull "priv_key").getString
  let addr ← (← (← conf.indexOrNull key).indexOrNull "addr").getString
  return { addr, privKey }

def accountLine (conf : Json) (key balance : String) : Except Fault UserLine := do
  let account ← readAccount conf key
  return { privKey := account.privKey, addr := account.addr, balance }

/-- The line of a configured node. -/
def nodeLine (conf : Json) (addr : String) : Except Fault UserLine :=
  accountLine conf (toString (parseAddr addr).2) "300"

def rewardLine (conf : Json) : Except Fault UserLine :=
  accountLine conf "reward_user" "888888888"

/-- A key pair as OpenSSL exports it: the text of `BN_bn2hex` and the bytes of
`i2o_ECPublicKey`, of which there are none when it fails. -/
structure ExportedKeys where
  privHex : String
  pubBytes : List UInt8

def genAddr (keys : ExportedKeys) : String × String :=
  (keys.privHex, HexText.encode keys.pubBytes)

/-- The line of a generated user. -/
def userLine (keys : ExportedKeys) : UserLine where
  privKey := (genAddr keys).1
  addr := (genAddr keys).2
  balance := "300"

structure Client where
  nodesAddr : List String
  addr2priv : Store
  /-- What `GenUser` has written to the file named by `user_init_file`, `none` when the file
  could not be opened. -/
  keyFile : Option String

namespace Client

def put (client : Client) (line : UserLine) : Client :=
  { client with
    addr2priv := client.addr2priv.insert line.addr line.privKey
    keyFile := client.keyFile.map (· ++ line.text ++ "\n") }

/-- The line is put when the configuration has it. -/
def putRead (client : Client) (read : Except Fault UserLine) : Outcome Client Fault :=
  match read with
  | .ok line => ⟨client.put line, none⟩
  | .error e => ⟨client, some e⟩

/-- A configuration that cannot be opened is parsed as an empty text. -/
def parseConf (json : JsonText) (config : Option String) : Except Fault Json :=
  match config with
  | some text => json.parse text
  | none => .error .parseError

/-- `GenUser`, where `opened` tells whether the file can be written and `keys i` are the keys
generated in turn `i`. -/
def genUser (json : JsonText) (config : Option String) (opened : Bool)
    (keys : Nat → ExportedKeys) (n : Int) (client : Client) : Outcome Client Fault :=
  if opened then
    let client := { client with keyFile := some "" }
    match parseConf json config with
    | .error e => ⟨client, some e⟩
    | .ok conf =>
      (Outcome.each (fun c addr => c.putRead (nodeLine conf addr)) client
        client.nodesAddr).andThen fun c =>
      (c.putRead (rewardLine conf)).andThen fun c =>
      ⟨(List.range n.toNat).foldl (fun c i => c.put (userLine (keys i))) c, none⟩
  else ⟨{ client with keyFile := none }, none⟩

end Client

/-! ### What is in the file -/

/-- The text of a list of lines, each of them ended. -/
def fileText (lines : List UserLine) : String :=
  String.ofList (lines.flatMap fun line => line.text.toList ++ ['\n'])

/-- A text that can stand between two commas of a line. -/
def Clean (s : String) : Prop := ',' ∉ s.toList ∧ '\n' ∉ s.toList

instance (s : String) : Decidable (Clean s) := inferInstanceAs (Decidable (_ ∧ _))

structure UserLine.Clean (line : UserLine) : Prop where
  privKey : Coin.Clean line.privKey
  addr : Coin.Clean line.addr
  balance : Coin.Clean line.balance

/-- The lines of a call that wrote them all. -/
def GenLines (conf : Json) (nodesAddr : List String) (keys : Nat → ExportedKeys) (n : Int)
    (lines : List UserLine) : Prop :=
  ∃ nodes reward, List.Forall₂ (fun addr line => nodeLine conf addr = .ok line) nodesAddr nodes ∧
    rewardLine conf = .ok reward ∧
    lines = nodes ++ reward :: (List.range n.toNat).map fun i => userLine (keys i)

/-- The lines that a stopped call has written can only be of these kinds. -/
def GenLine (conf : Json) (keys : Nat → ExportedKeys) (line : UserLine) : Prop :=
  (∃ addr, nodeLine conf addr = .ok line) ∨ rewardLine conf = .ok line ∨
    ∃ i, line = userLine (keys i)

theorem fileText_append (lines lines' : List UserLine) :
    fileText (lines ++ lines') = fileText lines ++ fileText lines' := by
  unfold fileText
  rw [List.flatMap_append, String.ofList_append]

theorem fileText_singleton (line : UserLine) : fileText [line] = line.text ++ "\n" := by
  unfold fileText
  rw [List.flatMap_singleton, String.ofList_append, String.ofList_toList]

namespace Client

variable {client client' client'' : Client} {lines lines' : List UserLine}

/-- The lines that were added to the file from one state of the client to another. -/
def Wrote (client client' : Client) (lines : List UserLine) : Prop :=
  client'.keyFile = client.keyFile.map (· ++ fileText lines)

theorem Wrote.refl (client : Client) : Wrote client client [] := by
  unfold Wrote
  cases client.keyFile with
  | none => rfl
  | some text => simp [fileText]

theorem Wrote.trans (first : Wrote client client' lines) (second : Wrote client' client'' lines') :
    Wrote client client'' (lines ++ lines') := by
  unfold Wrote at first second ⊢
  rw [second, first]
  cases client.keyFile with
  | none => rfl
  | some text => simp [fileText_append, String.append_assoc]

theorem wrote_put (client : Client) (line : UserLine) :
    Wrote client (client.put line) [line] := by
  unfold Wrote
  rw [fileText_singleton, put]
  simp only [String.append_assoc]

/-- The computation adds lines of this kind to the file, and such a list of them if it
returns. -/
def Writes (client : Client) (o : Outcome Client Fault) (kind : UserLine → Prop)
    (all : List UserLine → Prop) : Prop :=
  ∃ lines, Wrote client o.state lines ∧ (∀ line ∈ lines, kind line) ∧
    (o.fault = none → all lines)

section Writes

variable {o : Outcome Client Fault} {next : Client → Outcome Client Fault}
  {kind kind' : UserLine → Prop} {all all' : List UserLine → Prop}

theorem Writes.mono (writes : Writes client o kind all) (kinds : ∀ line, kind line → kind' line)
    (alls : ∀ lines, all lines → all' lines) : Writes client o kind' all' := by
  obtain ⟨lines, wrote, made, returns⟩ := writes
  exact ⟨lines, wrote, fun line member => kinds line (made line member),
    fun returned => alls lines (returns returned)⟩

theorem Writes.andThen (first : Writes client o kind all)
    (rest : ∀ c, Writes c (next c) kind all') :
    Writes client (o.andThen next) kind fun lines =>
      ∃ before after, lines = before ++ after ∧ all before ∧ all' after := by
  obtain ⟨before, wrote, kinds, returns⟩ := first
  cases stopped : o.fault with
  | some e =>
    -- what has been written stays in the file
    rw [Outcome.andThen_of_some stopped]
    refine ⟨before, wrote, kinds, fun returned => ?_⟩
    rw [stopped] at returned
    cases returned
  | none =>
    rw [Outcome.andThen_of_none stopped]
    obtain ⟨after, wrote', kinds', returns'⟩ := rest o.state
    refine ⟨before ++ after, wrote.trans wrote', ?_, fun returned => ?_⟩
    · exact List.forall_mem_append.mpr ⟨kinds, kinds'⟩
    · exact ⟨before, after, rfl, returns stopped, returns' returned⟩

theorem writes_putRead (client : Client) (read : Except Fault UserLine) :
    Writes client (client.putRead read) (fun line => read = .ok line)
      fun lines => ∃ line, read = .ok line ∧ lines = [line] := by
  cases read with
  | error e =>
    -- the exception comes before the line is written
    exact ⟨[], .refl client, List.forall_mem_nil _, fun returned => by cases returned⟩
  | ok line =>
    refine ⟨[line], wrote_put client line, ?_, fun _ => ⟨line, rfl, rfl⟩⟩
    exact List.forall_mem_singleton.mpr rfl

theorem writes_nodes (conf : Json) (client : Client) (addrs : List String) :
    Writes client (Outcome.each (fun c addr => c.putRead (nodeLine conf addr)) client addrs)
      (fun line => ∃ addr, nodeLine conf addr = .ok line)
      (List.Forall₂ (fun addr line => nodeLine conf addr = .ok line) addrs) := by
  induction addrs generalizing client with
  | nil => exact ⟨[], .refl client, List.forall_mem_nil _, fun _ => .nil⟩
  | cons addr addrs ih =>
    rw [Outcome.each_cons]
    -- the line of the first node, then those of the others
    have first : Writes client (client.putRead (nodeLine conf addr))
        (fun line => ∃ addr, nodeLine conf addr = .ok line) _ :=
      (writes_putRead client _).mono (fun line read => ⟨addr, read⟩) fun _ all => all
    apply (first.andThen ih).mono fun _ kind => kind
    rintro lines ⟨before, after, rfl, ⟨line, read, rfl⟩, rest⟩
    exact .cons read rest

theorem writes_users (keys : Nat → ExportedKeys) (client : Client) (turns : List Nat) :
    Writes client ⟨turns.foldl (fun c i => c.put (userLine (keys i))) client, none⟩
      (fun line => ∃ i, line = userLine (keys i))
      (· = turns.map fun i => userLine (keys i)) := by
  refine ⟨turns.map fun i => userLine (keys i), ?_, ?_, fun _ => rfl⟩
  · induction turns generalizing client with
    | nil => exact .refl client
    | cons i turns ih => exact (wrote_put client _).trans (ih (client.put (userLine (keys i))))
  · exact List.forall_mem_map.mpr fun i _ => ⟨i, rfl⟩

end Writes

/-- The file is made of lines that the call put there, and of all of them if it returned. -/
theorem genUser_lines {json : JsonText} {config : Option String} {opened : Bool}
    {keys : Nat → ExportedKeys} {n : Int} {client : Client} {text : String}
    (wrote : (genUser json config opened keys n client).state.keyFile = some text) :
    ∃ lines, text = fileText lines ∧
      (∀ line ∈ lines, ∃ conf, parseConf json config = .ok conf ∧ GenLine conf keys line) ∧
      ((genUser json config opened keys n client).fault = none →
        ∃ conf, parseConf json config = .ok conf ∧
          GenLines conf client.nodesAddr keys n lines) := by
  suffices writes : opened = true → Writes { client with keyFile := some "" }
      (genUser json config opened keys n client)
      (fun line => ∃ conf, parseConf json config = .ok conf ∧ GenLine conf keys line)
      fun lines => ∃ conf, parseConf json config = .ok conf ∧
        GenLines conf client.nodesAddr keys n lines by
    cases opened with
    | false =>
      -- without the file nothing is written
      cases wrote
    | true =>
      obtain ⟨lines, added, kinds, all⟩ := writes rfl
      rw [Wrote, wrote] at added
      exact ⟨lines, by simpa using added, kinds, all⟩
  rintro rfl
  unfold genUser
  rw [if_pos rfl]
  dsimp only
  cases parsed : parseConf json config with
  | error e =>
    -- the file has been opened before the configuration is read, and stays empty
    exact ⟨[], .refl _, List.forall_mem_nil _, fun returned => by cases returned⟩
  | ok conf =>
    -- the lines of the nodes, of the rewards and of the users
    have users : ∀ c, Writes c _ (GenLine conf keys) _ := fun c =>
      (writes_users keys c (List.range n.toNat)).mono
        (fun line made => Or.inr (Or.inr made)) fun _ all => all
    have reward : ∀ c, Writes c _ (GenLine conf keys) _ := fun c =>
      (writes_putRead c (rewardLine conf)).mono
        (fun line read => Or.inr (Or.inl read)) fun _ all => all
    have nodes : ∀ c, Writes c _ (GenLine conf keys) _ := fun c =>
      (writes_nodes conf c client.nodesAddr).mono (fun line made => Or.inl made) fun _ all => all
    apply ((nodes _).andThen fun c => (reward c).andThen users).mono
    · exact fun line kind => ⟨conf, rfl, kind⟩
    · rintro lines ⟨first, rest, rfl, all, paid, made, rfl, ⟨line, read, rfl⟩, rfl⟩
      exact ⟨conf, rfl, first, line, all, read, rfl⟩

end Client

/-! ### Reading it back -/

theorem getlines_fileText {lines : List UserLine} (clean : ∀ line ∈ lines, line.Clean) :
    getlines (fileText lines).toList = lines.map (·.text.toList) := by
  have parts : (fileText lines).toList.splitOn '\n' = lines.map (·.text.toList) ++ [[]] := by
    unfold fileText
    rw [String.toList_ofList]
    induction lines with
    | nil => rfl
    | cons line lines ih =>
      have inside : '\n' ∉ line.text.toList := by
        obtain ⟨privKey, addr, balance⟩ := clean line List.mem_cons_self
        simp [UserLine.text, privKey.2, addr.2, balance.2]
      rw [List.flatMap_cons, List.append_assoc, List.singleton_append,
        List.splitOn_append_cons_self_of_not_mem inside,
        ih fun other member => clean other (List.mem_cons_of_mem line member)]
      rfl
  -- `getline` makes no line of the empty rest behind the last newline
  unfold getlines
  rw [parts]
  simp

/-- The first comma behind a clean text is the one put there. -/
theorem Clean.cut {s : String} (clean : Clean s) (rest : List Char) :
    (s.toList ++ ',' :: rest).takeWhile (· ≠ ',') = s.toList ∧
      (s.toList ++ ',' :: rest).dropWhile (· ≠ ',') = ',' :: rest := by
  have before : ∀ c ∈ s.toList, decide (c ≠ ',') = true := by
    intro c member
    exact decide_eq_true fun comma => clean.1 (comma ▸ member)
  constructor
  · rw [List.takeWhile_append_of_pos before, List.takeWhile_cons_of_neg (by simp),
      List.append_nil]
  · rw [List.dropWhile_append_of_pos before, List.dropWhile_cons_of_neg (by simp)]

theorem userEntry_text {line : UserLine} (clean : line.Clean) :
    userEntry line.text.toList = some (line.addr, line.balance) := by
  have text : line.text.toList =
      line.privKey.toList ++ ',' :: (line.addr.toList ++ ',' :: line.balance.toList) := by
    simp [UserLine.text]
  unfold userEntry
  -- the first comma ends the private key, the second the address
  rw [text, (clean.privKey.cut _).2]
  dsimp only
  rw [(clean.addr.cut _).2, (clean.addr.cut _).1]
  simp

theorem userEntry_of_short {line : List Char} (short : line.count ',' < 2) :
    userEntry line = none := by
  -- behind a comma that was found there is one less
  have comma : ∀ {cs rest : List Char} {c}, cs.dropWhile (· ≠ ',') = c :: rest →
      rest.count ',' < cs.count ',' := by
    intro cs rest c found
    have first : c = ',' := by
      have stops := List.head?_dropWhile_not (fun c : Char => decide (c ≠ ',')) cs
      rw [found] at stops
      simpa using stops
    have split := List.takeWhile_append_dropWhile (p := fun c : Char => decide (c ≠ ',')) (l := cs)
    rw [found, first] at split
    rw [← split, List.count_append, List.count_cons_self]
    omega
  unfold userEntry
  cases first : line.dropWhile (· ≠ ',') with
  | nil => rfl
  | cons c rest =>
    cases second : rest.dropWhile (· ≠ ',') with
    | nil => simp only [second]
    | cons c' amount =>
      -- two commas have been found
      have outer := comma first
      have inner := comma second
      omega

/-- Lines with fewer than two commas have been inserted into a list of lines. -/
inductive Inserted : List (List Char) → List (List Char) → Prop where
  | nil : Inserted [] []
  | keep (line : List Char) {lines lines'} (rest : Inserted lines lines') :
      Inserted (line :: lines) (line :: lines')
  | extra {line : List Char} (short : line.count ',' < 2) {lines lines'}
      (rest : Inserted lines lines') : Inserted lines (line :: lines')

theorem Inserted.refl (lines : List (List Char)) : Inserted lines lines := by
  induction lines with
  | nil => exact .nil
  | cons line lines ih => exact .keep line ih

theorem Inserted.entries {lines lines' : List (List Char)} (inserted : Inserted lines lines') :
    lines'.filterMap userEntry = lines.filterMap userEntry := by
  induction inserted with
  | nil => rfl
  | keep line _ ih => rw [List.filterMap_cons, List.filterMap_cons, ih]
  | extra short _ ih => rw [List.filterMap_cons_none (userEntry_of_short short), ih]

theorem userEntries_fileText {lines : List UserLine} (clean : ∀ line ∈ lines, line.Clean) :
    userEntries (some (fileText lines)) = lines.map fun line => (line.addr, line.balance) := by
  unfold userEntries
  dsimp only
  rw [getlines_fileText clean, List.filterMap_map]
  apply List.filterMap_eq_map_iff_forall_eq_some.mpr
  exact fun line member => userEntry_text (clean line member)

/-! ### The round trip -/

/-- Whatever keys and addresses `GenUser` can find in the configuration are clean. -/
def CleanConf (json : JsonText) (config : Option String) : Prop :=
  ∀ conf key account, Client.parseConf json config = .ok conf →
    readAccount conf key = .ok account → Clean account.privKey ∧ Clean account.addr

theorem clean_of_hex {s : String} (hex : ∀ c ∈ s.toList, (HexText.hexVal c).isSome) :
    Clean s := by
  constructor
  · intro comma
    exact absurd (hex ',' comma) (by decide)
  · intro newline
    exact absurd (hex '\n' newline) (by decide)

theorem UserLine.clean_of_account {conf : Json} {key balance : String} {line : UserLine}
    (clean : ∀ account, readAccount conf key = .ok account →
      Coin.Clean account.privKey ∧ Coin.Clean account.addr)
    (amount : Coin.Clean balance) (read : accountLine conf key balance = .ok line) :
    line.Clean := by
  obtain ⟨account, found, made⟩ := Result.bind_ok.mp read
  cases made
  exact ⟨(clean account found).1, (clean account found).2, amount⟩

theorem GenLine.clean {json : JsonText} {config : Option String} {conf : Json}
    {keys : Nat → ExportedKeys} {line : UserLine} (cleanConf : CleanConf json config)
    (hex : ∀ i, ∀ c ∈ (keys i).privHex.toList, (HexText.hexVal c).isSome)
    (parsed : Client.parseConf json config = .ok conf) (kind : GenLine conf keys line) :
    line.Clean := by
  rcases kind with ⟨addr, read⟩ | read | ⟨i, rfl⟩
  · exact UserLine.clean_of_account (fun account => cleanConf conf _ account parsed)
      (by decide) read
  · exact UserLine.clean_of_account (fun account => cleanConf conf _ account parsed)
      (by decide) read
  · -- a generated user has hex digits in both fields
    have whole : Clean "300" := by decide
    refine ⟨clean_of_hex (hex i), clean_of_hex fun c member => ?_, whole⟩
    apply HexText.hexVal_of_mem_encodeChars
    simpa [userLine, genAddr, HexText.encode] using member

/-- The file that `GenUser` wrote fills an empty database with one entry for each address in
it, which holds the balance of the last line for that address, and with nothing else. Lines
with fewer than two commas make no difference, wherever they are inserted. -/
theorem readUserData_genUser {json : JsonText} {config : Option String} {opened : Bool}
    {keys : Nat → ExportedKeys} {n : Int} {client : Client} {text : String}
    (cleanConf : CleanConf json config)
    (hex : ∀ i, ∀ c ∈ (keys i).privHex.toList, (HexText.hexVal c).isSome)
    (wrote : (client.genUser json config opened keys n).state.keyFile = some text) :
    ∃ lines, text = fileText lines ∧
      ((client.genUser json config opened keys n).fault = none →
        ∃ conf, Client.parseConf json config = .ok conf ∧
          GenLines conf client.nodesAddr keys n lines) ∧
      (∀ a v, (readUserData (some text) ∅).lookup a = some v ↔
        LastWrite.IsLast (lines.map fun line => (line.addr, line.balance)) a v) ∧
      (∀ a, (readUserData (some text) ∅).keys.count a =
        if ∃ line ∈ lines, line.addr = a then 1 else 0) ∧
      ∀ text', Inserted (getlines text.toList) (getlines text'.toList) →
        readUserData (some text') ∅ = readUserData (some text) ∅ := by
  obtain ⟨lines, rfl, kinds, all⟩ := Client.genUser_lines wrote
  have clean : ∀ line ∈ lines, line.Clean := by
    intro line member
    obtain ⟨conf, parsed, kind⟩ := kinds line member
    exact kind.clean cleanConf hex parsed
  have entries := userEntries_fileText clean
  refine ⟨lines, rfl, all, ?_, ?_, ?_⟩
  · intro a v
    rw [readUserData_eq_writeAll, entries]
    exact LastWrite.lookup_empty_writeAll
  · intro a
    have written : a ∈ (readUserData (some (fileText lines)) ∅).keys ↔
        ∃ line ∈ lines, line.addr = a := by
      rw [← AList.mem_keys, readUserData_eq_writeAll, entries, LastWrite.mem_writeAll,
        List.map_map, List.mem_map]
      simp
    -- a store has no key twice
    rw [(AList.keys_nodup _).count]
    simp only [written]
  · intro text' inserted
    -- what is read are the entries of the lines
    unfold readUserData userEntries
    dsimp only
    rw [inserted.entries]

/-- A configuration of one node, whose owner is paid the rewards too. -/
def genesisConf : Json :=
  .object [("18090", .object [("addr", .string "040a"), ("priv_key", .string "A")]),
    ("reward_user", .object [("addr", .string "040a"), ("priv_key", .string "A")])]

def genesisClient : Client := ⟨["127.0.0.1:18090"], ∅, none⟩

theorem genesisConf_clean (config : Option String) :
    CleanConf (sampleTextOf genesisConf) config := by
  intro conf key account parsed read
  have same : conf = genesisConf := by
    cases config with
    | none => cases parsed
    | some text =>
      unfold Client.parseConf sampleTextOf at parsed
      dsimp only at parsed
      split at parsed
      · exact (Except.ok.inj parsed).symm
      · cases parsed
  subst same
  by_cases node : key = "18090"
  · subst node
    cases read
    decide
  · by_cases reward : key = "reward_user"
    · subst reward
      cases read
      decide
    · -- under any other key there is nothing
      have missing : genesisConf.indexOrNull key = .ok .null := by
        simp [genesisConf, Json.indexOrNull, List.lookup_cons, beq_false_of_ne node,
          beq_false_of_ne reward]
      unfold readAccount at read
      rw [missing] at read
      cases read

/-- Two users, of the same keys. -/
def genesisRun : Outcome Client Fault :=
  let json := sampleTextOf genesisConf
  genesisClient.genUser json (some (json.dump genesisConf)) true (fun _ => ⟨"B", [4, 11]⟩) 2

/-- Of the lines for one address the last counts, and a line with one comma in front of them
all makes no difference. -/
theorem readUserData_genesisRun :
    let text := "A,040a,300\nA,040a,888888888\nB,040b,300\nB,040b,300\n"
    genesisRun.state.keyFile = some text ∧ genesisRun.fault = none ∧
      (readUserData (some ("a, b\n" ++ text)) ∅).keys = ["040b", "040a"] ∧
      (readUserData (some ("a, b\n" ++ text)) ∅).lookup "040a" = some "888888888" := by
  intro text
  have wrote : genesisRun.state.keyFile = some text := by decide +kernel
  have hex : ∀ c ∈ "B".toList, (HexText.hexVal c).isSome := by
    intro c member
    obtain rfl : c = 'B' := by simpa using member
    rfl
  obtain ⟨-, -, -, -, -, same⟩ :=
    readUserData_genUser (genesisConf_clean _) (fun _ => hex) wrote
  have front : getlines ("a, b\n" ++ text).toList = "a, b".toList :: getlines text.toList := by
    decide +kernel
  have inserted : Inserted (getlines text.toList) (getlines ("a, b\n" ++ text).toList) := by
    rw [front]
    exact .extra (by decide +kernel) (.refl _)
  rw [same _ inserted]
  exact ⟨wrote, by decide +kernel⟩

end Ruccoin.Coin
