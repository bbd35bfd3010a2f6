import Ruccoin.Coin.Session
import Ruccoin.Foundation.FirstWrite

/-!
# What a session brings into the pools

A client signs with the keys in its database, and these belong to the accounts they are
stored for: `GenUser` has generated them together or found them together in the
configuration. So every node accepts whatever a session submits. Still a pool takes in only
the first of the transactions of one sender in one second.
-/

namespace Ruccoin.Coin

open Transition Lines FirstWrite

variable {env : ClientEnv} {client : Client} {text : List Char} {t : Turn} {s s' : Session}
  {run : List Turn}

/-! ### The stored keys -/

/-- Every stored key belongs to its account. -/
def Client.Paired (c : Crypto) (client : Client) : Prop :=
  ∀ addr privKey, client.addr2priv.lookup addr = some privKey → c.KeyPair privKey addr

/-- The keys that `gen` would find or generate in this turn belong together. -/
structure Turn.Sound (env : ClientEnv) (t : Turn) : Prop where
  generated : ∀ i, env.crypto.KeyPair (genAddr (t.keys i)).1 (genAddr (t.keys i)).2
  configured : ∀ conf key account, Client.parseConf env.json t.config = .ok conf →
    readAccount conf key = .ok account → env.crypto.KeyPair account.privKey account.addr

namespace Client

theorem paired_put {line : UserLine} (paired : client.Paired env.crypto)
    (pair : env.crypto.KeyPair line.privKey line.addr) :
    (client.put line).Paired env.crypto := by
  intro addr privKey found
  unfold put at found
  by_cases same : addr = line.addr
  · subst same
    rw [AList.lookup_insert, Option.some.injEq] at found
    exact found ▸ pair
  · rw [AList.lookup_insert_ne same] at found
    exact paired addr privKey found

theorem paired_putRead {conf : Json} {key balance : String} (sound : t.Sound env)
    (parsed : parseConf env.json t.config = .ok conf) (paired : client.Paired env.crypto) :
    (client.putRead (accountLine conf key balance)).state.Paired env.crypto := by
  cases read : accountLine conf key balance with
  | error e => exact paired
  | ok line =>
    obtain ⟨account, found, made⟩ := Result.bind_ok.mp read
    cases made
    exact paired_put paired (sound.configured conf key account parsed found)

theorem paired_genUser (sound : t.Sound env) (n : Int) (paired : client.Paired env.crypto) :
    (client.genUser env.json t.config t.opened t.keys n).state.Paired env.crypto := by
  unfold genUser
  split
  · cases parsed : parseConf env.json t.config with
    | error e => exact paired
    | ok conf =>
      refine Outcome.andThen_kept ?_ fun c here => Outcome.andThen_kept ?_ fun c' here' => ?_
      · have opened : Paired env.crypto { client with keyFile := some "" } := paired
        have kept : ∀ (c : Client) addr, c.Paired env.crypto →
            (c.putRead (nodeLine conf addr)).state.Paired env.crypto :=
          fun c addr here => paired_putRead sound parsed here
        exact Outcome.each_kept kept opened client.nodesAddr
      · exact paired_putRead sound parsed here
      · -- the generated users
        induction List.range n.toNat generalizing c' with
        | nil => exact here'
        | cons i rest ih => exact ih _ (paired_put here' (sound.generated i))
  · exact paired

end Client

/-! ### The submitted transactions -/

namespace Session

/-- The keys belong to their accounts, and what was submitted validates. -/
structure Honest (env : ClientEnv) (s : Session) : Prop where
  paired : s.client.Paired env.crypto
  valid : ∀ call ∈ s.calls, call.2.validateSignature env.crypto env.amounts = true

theorem submits_valid {cmd : Command} (paired : client.Paired env.crypto) :
    ∀ call ∈ submits env t client cmd,
      call.2.validateSignature env.crypto env.amounts = true := by
  intro call member
  cases cmd with
  | quit => cases member
  | gen => cases member
  | invalid => cases member
  | pay fromAddr toAddr value =>
    simp only [submits] at member
    by_cases unknown : client.getPrivateKey fromAddr = ""
    · rw [if_pos unknown] at member
      cases member
    · rw [if_neg unknown] at member
      obtain ⟨addr, -, rfl⟩ := List.mem_map.mp member
      cases found : client.addr2priv.lookup fromAddr with
      | none => simp [Client.getPrivateKey, found] at unknown
      | some privKey =>
        have key : client.getPrivateKey fromAddr = privKey := by
          simp [Client.getPrivateKey, found]
        unfold payment
        rw [key]
        exact TX.validateSignature_calSignature (paired fromAddr privKey found)

theorem honest_step (sound : t.Sound env) (honest : s.Honest env)
    (taken : s.step env t = some s') : s'.Honest env := by
  obtain ⟨-, rfl⟩ := step_cases taken
  constructor
  · cases command env s.reader.getline.input with
    | gen => exact Client.paired_genUser sound 20 honest.paired
    | quit | invalid | pay => exact honest.paired
  · intro call member
    rcases List.mem_append.mp member with old | new
    · exact honest.valid call old
    · exact submits_valid honest.paired call new

theorem honest_run (paired : client.Paired env.crypto)
    (sound : Meets (step env) (fun _ t => t.Sound env) (start client text) run)
    (ran : exec (step env) (start client text) run = some s) : s.Honest env := by
  apply (reach_of_exec sound ran).invariant (P := Honest env)
  · exact ⟨paired, fun call member => by cases member⟩
  · intro s t s' _ honest sound taken
    exact honest_step sound honest taken

end Session

/-! ### The pools -/

/-- What a transaction is known by in a pool. -/
def TX.place (tx : TX) : UInt64 × String := (tx.timeStamp, tx.fromAddr)

theorem TX.apart_iff {u tx : TX} : u.before tx ∨ tx.before u ↔ u.place ≠ tx.place := by
  unfold TX.before TX.place
  rw [ne_eq, Prod.mk.injEq, ← UInt64.toNat_inj, UInt64.lt_iff_toNat_lt, UInt64.lt_iff_toNat_lt]
  constructor
  · rintro ((earlier | ⟨-, less⟩) | (later | ⟨-, more⟩)) ⟨time, sender⟩
    · omega
    · exact String.lt_irrefl _ (sender ▸ less)
    · omega
    · exact String.lt_irrefl _ (sender ▸ more)
  · intro apart
    by_contra neither
    push Not at neither
    obtain ⟨⟨notEarlier, notLess⟩, notLater, notMore⟩ := neither
    have time : u.timeStamp.toNat = tx.timeStamp.toNat := by omega
    have sameTime : u.timeStamp = tx.timeStamp := UInt64.toNat_inj.mp time
    exact apart ⟨time, String.le_antisymm (notMore sameTime.symm) (notLess time)⟩

/-- Of transactions inserted into an empty pool one after the other it holds the first in
every place. -/
theorem TxPool.mem_foldl_insert {txs : List TX} {tx : TX} :
    tx ∈ (txs.foldl TxPool.insert .empty).txs ↔ IsFirst TX.place txs tx := by
  induction txs using List.reverseRecOn generalizing tx with
  | nil =>
    refine iff_of_false List.not_mem_nil fun first => ?_
    cases first.mem
  | append_singleton txs y ih =>
    have free : (∀ v ∈ (txs.foldl TxPool.insert .empty).txs, v.before y ∨ y.before v) ↔
        ∀ u ∈ txs, u.place ≠ y.place := by
      constructor
      · intro apart u member same
        -- the first in the place of `u` is in the pool
        obtain ⟨v, first, kind⟩ : ∃ v, IsFirst TX.place txs v ∧ v.place = u.place :=
          exists_isFirst member
        exact TX.apart_iff.mp (apart v (ih.mpr first)) (kind.trans same)
      · intro apart v member
        exact TX.apart_iff.mpr (apart v (ih.mp member).mem)
    rw [List.foldl_concat, TxPool.mem_insert, isFirst_concat, free, ih]

namespace Session

/-- The transactions of the calls at a node. -/
def submittedTo (addr : String) (s : Session) : List TX :=
  s.calls.filterMap fun call => if call.1 = addr then some call.2 else none

/-- A node that has taken these `AddTransx` calls. -/
def taking (env : Env) (node : CoinNode) (txs : List TX) : CoinNode :=
  txs.foldl (fun node tx => (node.addTransx env tx).1) node

theorem taking_txPool {env : Env} {txs : List TX} (node : CoinNode)
    (valid : ∀ tx ∈ txs, tx.validateSignature env.crypto env.amounts = true) :
    (taking env node txs).txPool = txs.foldl TxPool.insert node.txPool := by
  induction txs generalizing node with
  | nil => rfl
  | cons tx txs ih =>
    have first : (node.addTransx env tx).1.txPool = node.txPool.insert tx := by
      simp [CoinNode.addTransx, valid tx List.mem_cons_self]
    rw [List.foldl_cons, ← first]
    exact ih _ fun u member => valid u (List.mem_cons_of_mem tx member)

/-- Whatever lines a session reads, every transaction that it submits validates. A node with
an empty pool that takes the calls has then exactly those in its pool that are the first of
their sender in their second. -/
theorem session_fills_pools (paired : client.Paired env.crypto)
    (sound : Meets (step env) (fun _ t => t.Sound env) (start client text) run)
    (ran : exec (step env) (start client text) run = some s) (addr : String) (node : CoinNode)
    (empty : node.txPool = .empty) :
    (∀ tx ∈ s.submittedTo addr, tx.validateSignature env.crypto env.amounts = true) ∧
      ∀ tx, tx ∈ (taking env.toEnv node (s.submittedTo addr)).txPool.txs ↔
        ∃ before after, s.submittedTo addr = before ++ tx :: after ∧
          ∀ u ∈ before, ¬(u.timeStamp = tx.timeStamp ∧ u.fromAddr = tx.fromAddr) := by
  have honest := honest_run paired sound ran
  have valid : ∀ tx ∈ s.submittedTo addr,
      tx.validateSignature env.crypto env.amounts = true := by
    intro tx member
    obtain ⟨call, made, sent⟩ := List.mem_filterMap.mp member
    split at sent
    · cases sent
      exact honest.valid call made
    · cases sent
  refine ⟨valid, fun tx => ?_⟩
  rw [taking_txPool node valid, empty, TxPool.mem_foldl_insert]
  simp only [IsFirst, TX.place, ne_eq, Prod.mk.injEq]

/-- A configuration in which the node and the rewards belong to the account `04a`. -/
def sampleAccounts : Json :=
  .object [("18090", .object [("addr", .string "04a"), ("priv_key", .string "a")]),
    ("reward_user", .object [("addr", .string "04a"), ("priv_key", .string "a")])]

/-- A turn in which `gen` finds this configuration. -/
def configuredTurn (timeStamp : UInt64) : Turn :=
  { sampleTurn timeStamp with config := some (sampleTextOf sampleAccounts |>.dump sampleAccounts) }

def configuredEnv : ClientEnv := { sampleClientEnv with json := sampleTextOf sampleAccounts }

theorem configuredTurn_sound (timeStamp : UInt64) :
    (configuredTurn timeStamp).Sound configuredEnv := by
  refine ⟨fun _ => sampleCrypto_keyPair "0b", fun conf key account parsed read => ?_⟩
  obtain rfl : sampleAccounts = conf := Except.ok.inj ((by rfl : _ = Except.ok _).symm.trans parsed)
  by_cases node : key = "18090"
  · subst node
    cases read
    exact sampleCrypto_keyPair "a"
  · by_cases reward : key = "reward_user"
    · subst reward
      cases read
      exact sampleCrypto_keyPair "a"
    · -- under any other key there is nothing
      have missing : sampleAccounts.indexOrNull key = .ok .null := by
        simp [sampleAccounts, Json.indexOrNull, List.lookup_cons, beq_false_of_ne node,
          beq_false_of_ne reward]
      unfold readAccount at read
      rw [missing] at read
      cases read

/-- After `gen`, two payments in one second and one in the next. -/
def gatheredLines : List Char := "gen\n04a 04b 10\n04a 04a 10\n04a 04b 10\nquit\n".toList

def gatheredTurns : List Turn := [0, 1, 1, 2, 2].map configuredTurn

/-- The second payment of the first second is not taken in. -/
theorem session_fills_pools_gathered :
    ∃ s, exec (step configuredEnv) (start { sampleClient with addr2priv := ∅ } gatheredLines)
        gatheredTurns = some s ∧
      s.submittedTo "127.0.0.1:18090" = [samplePayment 1 "a" "04b", samplePayment 1 "a" "04a",
        samplePayment 2 "a" "04b"] ∧
      samplePayment 1 "a" "04a" ∉
        (taking configuredEnv.toEnv sampleNode (s.submittedTo "127.0.0.1:18090")).txPool.txs := by
  obtain ⟨s, ran, ends⟩ := exec_of_run (step configuredEnv)
    (start { sampleClient with addr2priv := ∅ } gatheredLines) gatheredTurns
    (p := fun s => decide (s.submittedTo "127.0.0.1:18090" = [samplePayment 1 "a" "04b",
      samplePayment 1 "a" "04a", samplePayment 2 "a" "04b"]))
    (by decide +kernel)
  have sound : Meets (step configuredEnv) (fun _ t => t.Sound configuredEnv)
      (start { sampleClient with addr2priv := ∅ } gatheredLines) gatheredTurns := by
    refine meets_of_labels _ fun t member => ?_
    obtain ⟨timeStamp, -, rfl⟩ := List.mem_map.mp member
    exact configuredTurn_sound timeStamp
  have submitted := of_decide_eq_true ends
  refine ⟨s, ran, submitted, fun taken => ?_⟩
  obtain ⟨before, after, split, first⟩ :=
    ((session_fills_pools (fun _ _ found => by cases found) sound ran "127.0.0.1:18090"
      sampleNode rfl).2 _).mp taken
  rw [submitted] at split
  cases before with
  | nil =>
    have same : samplePayment 1 "a" "04b" = samplePayment 1 "a" "04a" := (List.cons.inj split).1
    exact absurd (congrArg TX.toAddr same) (by decide)
  | cons u before =>
    -- the first payment has the sender and the second
    have here : samplePayment 1 "a" "04b" = u := (List.cons.inj split).1
    exact first u List.mem_cons_self (here ▸ ⟨rfl, rfl⟩)

end Session

end Ruccoin.Coin
