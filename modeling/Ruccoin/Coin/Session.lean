import Ruccoin.Coin.Genesis
import Ruccoin.Foundation.Lines
import Ruccoin.Foundation.Transition

/-!
# A session of the client

`client::Run` reads lines from the standard input until one of them is `quit`. A line of an
account, another and a value becomes a transaction, which is signed with the key that the
client has stored for the first account and sent to all coin nodes. The loop does not look at
the state of the stream.
-/

namespace Ruccoin.Coin

open Transition Lines

/-- What the client is linked against. -/
structure ClientEnv extends Env where
  /-- `operator>>` of a `double` on what is left of a line, `none` when it fails. -/
  readDouble : List Char → Option Amount

/-! ### One line -/

inductive Command where
  | quit
  | gen
  | invalid
  | pay (fromAddr toAddr : String) (value : Amount)
deriving DecidableEq

/-- `isspace` in the C locale. -/
def isSpace (c : Char) : Bool := c.isWhitespace || c == '\x0b' || c == '\x0c'

/-- `operator>>` of a `std::string`. -/
def readWord (text : List Char) : Option (String × List Char) :=
  let text := text.dropWhile isSpace
  let word := text.takeWhile (!isSpace ·)
  if word = [] then none else some (String.ofList word, text.dropWhile (!isSpace ·))

/-- `iss >> from >> to >> value`. -/
def readPayment (env : ClientEnv) (input : List Char) : Option (String × String × Amount) := do
  let (fromAddr, rest) ← readWord input
  let (toAddr, rest) ← readWord rest
  let value ← env.readDouble rest
  return (fromAddr, toAddr, value)

/-- What `Run` makes of a line. -/
def command (env : ClientEnv) (input : List Char) : Command :=
  if String.ofList input = "quit" then .quit
  else if String.ofList input = "gen" then .gen
  else match readPayment env input with
    | some (fromAddr, toAddr, value) => .pay fromAddr toAddr value
    | none => .invalid

namespace Client

/-- `GetPrivateKey`: the empty text for an account that is not stored. -/
def getPrivateKey (client : Client) (addr : String) : String :=
  (client.addr2priv.lookup addr).getD ""

/-- `Signate`. -/
def signate (env : ClientEnv) (client : Client) (tx : TX) : Except Fault TX :=
  if tx.signature ≠ "" then .error .assertFailed
  else if client.getPrivateKey tx.fromAddr = "" then .error .assertFailed
  else .ok { tx with
    signature := tx.calSignature env.crypto env.amounts (client.getPrivateKey tx.fromAddr) }

end Client

/-! ### The loop -/

/-- What a turn of the loop finds: the time, which nodes can be reached, and what `GenUser`
works with. -/
structure Turn where
  timeStamp : UInt64
  reaches : String → Bool
  config : Option String
  opened : Bool
  keys : Nat → ExportedKeys

structure Session where
  client : Client
  reader : Reader
  /-- The `AddTransx` calls that went through, the latest last: at which node, with what. -/
  calls : List (String × TX)
  returned : Bool

namespace Session

def start (client : Client) (text : List Char) : Session where
  client := client
  reader := Reader.start text
  calls := []
  returned := false

/-- `SendTransx`: a node that cannot be reached is passed over. -/
def sendTransx (t : Turn) (s : Session) (tx : TX) : Outcome Session Fault :=
  if tx.signature = "" then ⟨s, some .assertFailed⟩
  else ⟨{ s with
    calls := s.calls ++ (s.client.nodesAddr.filter t.reaches).map fun addr => (addr, tx) }, none⟩

def execute (env : ClientEnv) (t : Turn) (s : Session) : Command → Outcome Session Fault
  | .quit => ⟨{ s with returned := true }, none⟩
  | .gen =>
    let generated := s.client.genUser env.json t.config t.opened t.keys 20
    ⟨{ s with client := generated.state }, generated.fault⟩
  | .invalid => ⟨s, none⟩
  | .pay fromAddr toAddr value =>
    if s.client.getPrivateKey fromAddr = "" then ⟨s, none⟩
    else match s.client.signate env ⟨t.timeStamp, fromAddr, toAddr, value, ""⟩ with
      | .ok tx => s.sendTransx t tx
      | .error e => ⟨s, some e⟩

/-- One turn of the loop of `Run`. -/
def turn (env : ClientEnv) (t : Turn) (s : Session) : Outcome Session Fault :=
  let s := { s with reader := s.reader.getline }
  s.execute env t (command env s.reader.input)

/-- A turn that ends in an exception or a failed assertion ends the process. -/
def step (env : ClientEnv) (s : Session) (t : Turn) : Option Session :=
  if s.returned then none
  else match s.turn env t with
    | ⟨s', none⟩ => some s'
    | ⟨_, some _⟩ => none

/-! ### What a turn does -/

variable {env : ClientEnv} {client : Client} {text : List Char} {t : Turn} {s s' : Session}
  {run : List Turn}

/-- The transaction of a payment. -/
def payment (env : ClientEnv) (t : Turn) (client : Client) (fromAddr toAddr : String)
    (value : Amount) : TX :=
  let tx : TX := ⟨t.timeStamp, fromAddr, toAddr, value, ""⟩
  { tx with signature := tx.calSignature env.crypto env.amounts (client.getPrivateKey fromAddr) }

/-- The calls that a command leads to. -/
def submits (env : ClientEnv) (t : Turn) (client : Client) : Command → List (String × TX)
  | .pay fromAddr toAddr value =>
    if client.getPrivateKey fromAddr = "" then []
    else (client.nodesAddr.filter t.reaches).map fun addr =>
      (addr, payment env t client fromAddr toAddr value)
  | _ => []

/-- Only `gen` changes what the client has stored. -/
def clientAfter (env : ClientEnv) (t : Turn) (client : Client) : Command → Client
  | .gen => (client.genUser env.json t.config t.opened t.keys 20).state
  | _ => client

/-- The payment of a known account is signed and sent. -/
theorem execute_pay {fromAddr toAddr : String} {value : Amount}
    (known : s.client.getPrivateKey fromAddr ≠ "") :
    s.execute env t (.pay fromAddr toAddr value) =
      s.sendTransx t (payment env t s.client fromAddr toAddr value) := by
  simp only [execute, known, if_false, Client.signate, ne_eq, not_true]
  rfl

theorem execute_state {cmd : Command} (done : (s.execute env t cmd).fault = none) :
    (s.execute env t cmd).state =
      { s with
        client := clientAfter env t s.client cmd
        calls := s.calls ++ submits env t s.client cmd
        returned := s.returned || decide (cmd = .quit) } := by
  cases cmd with
  | quit => simp [execute, clientAfter, submits]
  | gen => simp [execute, clientAfter, submits]
  | invalid => simp [execute, clientAfter, submits]
  | pay fromAddr toAddr value =>
    by_cases known : s.client.getPrivateKey fromAddr = ""
    · simp [execute, known, clientAfter, submits]
    · rw [execute_pay known] at done ⊢
      unfold sendTransx at done ⊢
      split at done
      next => cases done
      next signed =>
        rw [if_neg signed]
        simp [clientAfter, submits, known]

/-- A turn carries out the line that `getline` leaves in the variable. -/
theorem step_cases (taken : s.step env t = some s') :
    s.returned = false ∧ s' =
      { client := clientAfter env t s.client (command env s.reader.getline.input)
        reader := s.reader.getline
        calls := s.calls ++ submits env t s.client (command env s.reader.getline.input)
        returned := decide (command env s.reader.getline.input = .quit) } := by
  unfold step at taken
  split at taken
  next => cases taken
  next running =>
    have running : s.returned = false := by simpa using running
    refine ⟨running, ?_⟩
    split at taken
    next s₁ turned =>
      cases taken
      have state := execute_state (congrArg Outcome.fault turned)
      rw [show s' = (turn env t s).state from (congrArg Outcome.state turned).symm, turn, state]
      simp [running]
    next => cases taken

/-! ### Whole sessions -/

theorem command_quit_iff {input : List Char} :
    command env input = .quit ↔ String.ofList input = "quit" := by
  unfold command
  split
  next quit => simp [quit]
  next other =>
    refine iff_of_false (fun same => ?_) other
    split at same
    · cases same
    · split at same <;> cases same

/-- After `k` turns the loop has read `k` lines. -/
theorem reader_run (ran : exec (step env) (start client text) run = some s) :
    s.reader = Reader.getline^[run.length] (Reader.start text) := by
  induction run using List.reverseRecOn generalizing s with
  | nil =>
    cases ran
    rfl
  | append_singleton run t ih =>
    obtain ⟨s₁, before, taken⟩ := exec_concat.mp ran
    obtain ⟨-, rfl⟩ := step_cases taken
    rw [List.length_append, List.length_singleton, Function.iterate_succ_apply', ← ih before]

/-- Turn `k` carries out line `k`, and from the last line on that line. -/
theorem turn_line (ran : exec (step env) (start client text) run = some s)
    (taken : s.step env t = some s') :
    s.returned = false ∧
      s'.client = clientAfter env t s.client (command env (line text run.length)) ∧
      s'.calls = s.calls ++ submits env t s.client (command env (line text run.length)) ∧
      s'.returned = decide (command env (line text run.length) = .quit) := by
  obtain ⟨running, rfl⟩ := step_cases taken
  have input : s.reader.getline.input = line text run.length := by
    rw [reader_run ran, ← Function.iterate_succ_apply' Reader.getline]
    exact input_getline text [] run.length
  rw [input]
  exact ⟨running, rfl, rfl, rfl⟩

/-- The loop has returned when it has read `quit`. -/
theorem returned_iff (ran : exec (step env) (start client text) run = some s) :
    s.returned = true ↔ ∃ k < run.length, String.ofList (line text k) = "quit" := by
  induction run using List.reverseRecOn generalizing s with
  | nil =>
    cases ran
    simp [start]
  | append_singleton run t ih =>
    obtain ⟨s₁, before, taken⟩ := exec_concat.mp ran
    obtain ⟨running, -, -, returned⟩ := turn_line before taken
    -- `quit` was not among the lines before
    have earlier := (ih before).not.mp (by simp [running])
    rw [returned, decide_eq_true_iff, command_quit_iff, List.length_append, List.length_singleton]
    constructor
    · exact fun quit => ⟨run.length, Nat.lt_succ_self _, quit⟩
    · rintro ⟨k, below, quit⟩
      rcases Nat.lt_succ_iff_lt_or_eq.mp below with lower | rfl
      · exact absurd ⟨k, lower, quit⟩ earlier
      · exact quit

/-- The last line of a text, empty when the text ends with a line feed. -/
def lastLine (text : List Char) : List Char :=
  (text.splitOn '\n').getLast (List.splitOn_ne_nil _ _)

/-- The same command submits the same as long as it changes nothing that is stored. -/
theorem submits_after {cmd : Command} (t t' : Turn) :
    submits env t (clientAfter env t' client cmd) cmd = submits env t client cmd := by
  cases cmd <;> rfl

/-- The loop returns when it has read the line `quit`. When it has come to the end of its
input without, every further turn carries out the last line again: if that is a payment of an
account that the client knows, it is sent again with the time of the turn, and if it is `gen`
the keys are generated again. -/
theorem session_repeats (ran : exec (step env) (start client text) run = some s) :
    (s.returned = true ↔ ∃ k < run.length, String.ofList (line text k) = "quit") ∧
    ((text.splitOn '\n').length ≤ run.length → ∀ rest s', exec (step env) s rest = some s' →
      s'.returned = s.returned ∧
      s'.client = rest.foldl (fun client t =>
        clientAfter env t client (command env (lastLine text))) s.client ∧
      s'.calls = s.calls ++
        rest.flatMap fun t => submits env t s.client (command env (lastLine text))) := by
  refine ⟨returned_iff ran, fun past rest => ?_⟩
  -- what is stored may change, but not what the last line submits
  suffices all : ∀ s', exec (step env) s rest = some s' →
      (s'.returned = s.returned ∧
        s'.client = rest.foldl (fun client t =>
          clientAfter env t client (command env (lastLine text))) s.client ∧
        s'.calls = s.calls ++
          rest.flatMap fun t => submits env t s.client (command env (lastLine text))) ∧
      ∀ t, submits env t s'.client (command env (lastLine text)) =
        submits env t s.client (command env (lastLine text)) from fun s' later => (all s' later).1
  induction rest using List.reverseRecOn with
  | nil =>
    intro s' later
    cases later
    simp
  | append_singleton rest t ih =>
    intro s' later
    obtain ⟨s₁, between, taken⟩ := exec_concat.mp later
    obtain ⟨⟨running, kept, calls⟩, same⟩ := ih s₁ between
    have whole : exec (step env) (start client text) (run ++ rest) = some s₁ := by
      rw [exec_append, ran]
      exact between
    obtain ⟨open₁, stored, added, returned⟩ := turn_line whole taken
    have last : line text (run ++ rest).length = lastLine text := by
      apply line_of_le
      rw [List.length_append]
      omega
    rw [last] at stored added returned
    refine ⟨⟨?_, ?_, ?_⟩, fun t' => ?_⟩
    · rw [returned, ← running, open₁, decide_eq_false_iff_not, command_quit_iff]
      intro quit
      -- the last line had been read before
      have some_line : 0 < (text.splitOn '\n').length :=
        List.length_pos_iff.mpr (List.splitOn_ne_nil _ _)
      have read : line text ((text.splitOn '\n').length - 1) = lastLine text :=
        line_of_le (by omega)
      have returned₀ : s.returned = true :=
        (returned_iff ran).mpr ⟨(text.splitOn '\n').length - 1, by omega, read ▸ quit⟩
      rw [← running, open₁] at returned₀
      cases returned₀
    · rw [stored, kept, List.foldl_append, List.foldl_cons, List.foldl_nil]
    · rw [added, calls, same, List.flatMap_append, List.flatMap_singleton, List.append_assoc]
    · rw [stored, submits_after, same]

end Session

/-! ### A client to run examples with -/

/-- A value is read as `stod` reads it. -/
def sampleClientEnv : ClientEnv :=
  { sampleEnv [] with
    readDouble := fun text => sampleAmountText.stod (String.ofList (text.dropWhile isSpace)) }

/-- The client of a node that has the key of the account `04a`. -/
def sampleClient : Client where
  nodesAddr := ["127.0.0.1:18090"]
  addr2priv := (∅ : Store).insert "04a" "a"
  keyFile := none

/-- A turn in which every node can be reached and `gen` finds no configuration. -/
def sampleTurn (timeStamp : UInt64) : Turn where
  timeStamp := timeStamp
  reaches _ := true
  config := none
  opened := true
  keys _ := ⟨"0b", [4, 11]⟩

/-- One payment in an input that ends without `quit` is sent in each of three turns. -/
theorem Session.session_repeats_unended :
    ∃ s s', exec (step sampleClientEnv) (start sampleClient "04a 04b 10".toList)
        [sampleTurn 1] = some s ∧
      exec (step sampleClientEnv) s [sampleTurn 2, sampleTurn 2] = some s' ∧
      s'.returned = false ∧ s'.calls = s.calls ++
        [("127.0.0.1:18090", samplePayment 2 "a" "04b"),
          ("127.0.0.1:18090", samplePayment 2 "a" "04b")] := by
  obtain ⟨s, ran, ends⟩ := exec_of_run (step sampleClientEnv)
    (start sampleClient "04a 04b 10".toList) [sampleTurn 1]
    (p := fun s => decide (s.returned = false ∧
      submits sampleClientEnv (sampleTurn 2) s.client
        (command sampleClientEnv (lastLine "04a 04b 10".toList)) =
          [("127.0.0.1:18090", samplePayment 2 "a" "04b")] ∧
      (exec (step sampleClientEnv) s [sampleTurn 2, sampleTurn 2]).isSome))
    (by decide +kernel)
  obtain ⟨running, again, goesOn⟩ := of_decide_eq_true ends
  obtain ⟨s', later⟩ := Option.isSome_iff_exists.mp goesOn
  obtain ⟨returned, -, calls⟩ := (session_repeats ran).2 (by decide +kernel) _ s' later
  refine ⟨s, s', ran, later, returned.trans running, ?_⟩
  rw [calls, List.flatMap_cons, List.flatMap_cons, again]
  rfl

end Ruccoin.Coin
