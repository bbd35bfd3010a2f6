import Ruccoin.Coin.Proposing
import Ruccoin.Deployment.Refinement
import Ruccoin.Deployment.Round

/-!
# The loop of the primary

The primary's `Run` packs a block, passes it to the PBFT process of its machine and stays in
`GetRequest` until the number of the request is committed there. The coin nodes of the
backups run the same loop and propose nothing.

## Main results

- `one_by_one`: the primary applies its proposals in order, each before it packs the next,
  and no replica is more than the awaited one ahead of it.
- `turn_settles`: whether the loop ever gets past a proposal is decided when it is made. If
  the coin nodes accept and can commit it, the messages for it carry it through; otherwise
  `GetRequest` never returns. If they only accept it, each of them can still be brought to
  commit it halfway, and is gone then; apart from that no balance and no chain changes any more.
-/

namespace Ruccoin

open Pbft Coin Transition

/-- A deployment with the loop of its primary: the block packed last, and the number whose
commitment `GetRequest` waits for. -/
structure ClosedLoop where
  deployment : Deployment
  onPackingBlock : Block
  waiting : Option Nat

namespace ClosedLoop

inductive Label where
  | addTransx (i : Nat) (tx : TX)
  | deliver (k dst : Nat)
  /-- A turn of the loop, with what it draws at random and reads from the clock. -/
  | turn (random merkle : String) (timeStamp : Nat)
  /-- `GetRequest` returns. -/
  | completed

def init (conf : Config) (node : CoinNode) (block : Block) : ClosedLoop where
  deployment := Deployment.init conf node
  onPackingBlock := block
  waiting := none

/-- The coin node of the primary. -/
def proposer (conf : Config) (minTxPerBlock : Nat) (l : ClosedLoop) : ProposingNode where
  toCoinNode := l.deployment.nodes conf.pbftPrimary
  minTxPerBlock := minTxPerBlock
  onPackingBlock := l.onPackingBlock
  id := UInt32.ofNat conf.pbftPrimary
  bftPrimaryId := UInt32.ofNat conf.pbftPrimary

/-- `BlockProposal`, as far as the `Preprepare` in `GetRequest`. -/
def blockProposal (env : Env) (conf : Config) (timeStamp : Nat) (block : Block)
    (l : ClosedLoop) : Option ClosedLoop :=
  let request : Request := ⟨conf.pbftPrimary, timeStamp, env.json.dump block.toJson⟩
  (l.deployment.step env conf (.request conf.pbftPrimary request)).map fun d =>
    { deployment := d
      onPackingBlock := block
      waiting := some (l.deployment.world.numbers conf) }

/-- A turn of `Run`, while the coin node is there. Packing changes nothing of it but the block
being packed. -/
def turn (env : Env) (conf : Config) (minTxPerBlock : Nat) (random merkle : String)
    (timeStamp : Nat) (l : ClosedLoop) : Option ClosedLoop :=
  match (l.proposer conf minTxPerBlock).turn env random merkle with
  -- an exception or a failed assertion ends the process
  | (⟨_, some _⟩, _) => none
  | (⟨_, none⟩, none) => some l
  | (⟨_, none⟩, some block) => l.blockProposal env conf timeStamp block

def step (env : Env) (conf : Config) (minTxPerBlock : Nat) (l : ClosedLoop) :
    Label → Option ClosedLoop
  | .addTransx i tx =>
    (l.deployment.step env conf (.addTransx i tx)).map ({ l with deployment := · })
  | .deliver k dst =>
    (l.deployment.step env conf (.deliver k dst)).map ({ l with deployment := · })
  | .turn random merkle timeStamp =>
    if l.waiting = none ∧ l.deployment.stopped conf.pbftPrimary = none then
      l.turn env conf minTxPerBlock random merkle timeStamp
    else none
  | .completed =>
    match l.waiting with
    | some s =>
      if (l.deployment.world.replicas conf.pbftPrimary).requestCompleted s ∧
          l.deployment.stopped conf.pbftPrimary = none then
        some { l with waiting := none }
      else none
    | none => none

/-- Messages are delayed, reordered or lost. -/
def Benign (l : ClosedLoop) : Label → Prop
  | .deliver k dst => ¬l.deployment.world.Arrived k dst
  | _ => True

instance (l : ClosedLoop) (a : Label) : Decidable (l.Benign a) := by
  cases a <;> unfold Benign <;> infer_instance

/-- `GetRequest` does not return in a step of such a run. -/
def Waiting (l : ClosedLoop) (a : Label) : Prop := l.Benign a ∧ a ≠ .completed

/-! ### What a step can be -/

variable {env : Env} {conf : Config} {minTxPerBlock : Nat} {node : CoinNode} {block : Block}
  {l l' : ClosedLoop}

/-- The step of the deployment that a label stands for, apart from the loop. -/
def Label.inner : Label → Option Deployment.Label
  | .addTransx i tx => some (.addTransx i tx)
  | .deliver k dst => some (.deliver k dst)
  | .turn .. => none
  | .completed => none

theorem benign_inner {a : Label} {b : Deployment.Label} (same : a.inner = some b)
    (allowed : l.Benign a) : l.deployment.Benign conf b := by
  cases a with
  | addTransx i tx =>
    cases same
    trivial
  | deliver k dst =>
    cases same
    exact allowed
  | turn => cases same
  | completed => cases same

/-- What a step does. -/
inductive Stepped (env : Env) (conf : Config) (l l' : ClosedLoop) (a : Label) : Prop where
  | inner (b : Deployment.Label) (same : a.inner = some b)
      (taken : l.deployment.step env conf b = some l'.deployment)
      (waiting : l'.waiting = l.waiting)
  /-- There were too few transactions. -/
  | idle (waiting : l.waiting = none) (same : l' = l)
  | proposed (req : Request) (waiting : l.waiting = none)
      (running : l.deployment.stopped conf.pbftPrimary = none)
      (body : req.body = env.json.dump l'.onPackingBlock.toJson)
      (taken : l.deployment.step env conf (.request conf.pbftPrimary req) = some l'.deployment)
      (waits : l'.waiting = some (l.deployment.world.numbers conf))
  | returned (label : a = .completed) (s : Nat) (waiting : l.waiting = some s)
      (completed : (l.deployment.world.replicas conf.pbftPrimary).requestCompleted s = true)
      (running : l.deployment.stopped conf.pbftPrimary = none)
      (deployment : l'.deployment = l.deployment) (done : l'.waiting = none)

theorem step_cases {a : Label} (taken : l.step env conf minTxPerBlock a = some l') :
    Stepped env conf l l' a := by
  cases a with
  | addTransx i tx =>
    simp only [step, Option.map_eq_some_iff] at taken
    obtain ⟨d, stepped, rfl⟩ := taken
    exact .inner _ rfl stepped rfl
  | deliver k dst =>
    simp only [step, Option.map_eq_some_iff] at taken
    obtain ⟨d, stepped, rfl⟩ := taken
    exact .inner _ rfl stepped rfl
  | turn random merkle timeStamp =>
    simp only [step] at taken
    split at taken
    next possible =>
      obtain ⟨free, running⟩ := possible
      unfold turn at taken
      split at taken
      next => cases taken
      next =>
        -- too few transactions
        cases taken
        exact .idle free rfl
      next block =>
        obtain ⟨d, stepped, rfl⟩ := Option.map_eq_some_iff.mp taken
        exact .proposed _ free running rfl stepped rfl
    next => cases taken
  | completed =>
    simp only [step] at taken
    split at taken
    next s waiting =>
      split at taken
      next done =>
        cases taken
        exact .returned rfl s waiting done.1 done.2 rfl rfl
      next => cases taken
    next => cases taken

/-- Without the loop the run is one of the deployment. -/
theorem deployment_reached {l₀ : ClosedLoop}
    (reached : Reach (step env conf minTxPerBlock) Benign l₀ l) :
    Reach (Deployment.step env conf) (Deployment.Benign conf) l₀.deployment l.deployment := by
  refine reached.map ClosedLoop.deployment fun l a l' _ allowed taken => ?_
  cases step_cases taken with
  | inner b same stepped => exact Or.inr ⟨b, benign_inner same allowed, stepped⟩
  | idle _ same => exact Or.inl (congrArg deployment same)
  | proposed req _ _ _ stepped => exact Or.inr ⟨.request conf.pbftPrimary req, rfl, stepped⟩
  | returned _ s _ _ _ same => exact Or.inl same

/-- Apart from the loop nothing is numbered. -/
theorem inner_numbers {a : Label} {b : Deployment.Label} {d : Deployment}
    (same : a.inner = some b) (taken : l.deployment.step env conf b = some d) :
    d.world.numbers conf = l.deployment.world.numbers conf := by
  cases a with
  | addTransx i tx =>
    cases same
    obtain ⟨-, added⟩ := Option.ite_none_right_eq_some.mp taken
    rw [← Option.some.inj added]
    rfl
  | deliver k dst =>
    cases same
    obtain ⟨i, source, h, effects, -, ran, world, -⟩ := Deployment.advance_cases taken
    obtain rfl : source = some k := by cases ran <;> rfl
    rw [world]
    exact World.numbers_delivered ran
  | turn => cases same
  | completed => cases same

/-! ### One proposal at a time -/

/-- What the primary has numbered it has executed in order, up to the number it waits for. -/
structure Paced (conf : Config) (l : ClosedLoop) : Prop where
  idle : l.waiting = none →
    l.deployment.numbers conf.pbftPrimary = List.range (l.deployment.world.numbers conf)
  busy : ∀ s, l.waiting = some s → l.deployment.world.numbers conf = s + 1 ∧
    (l.deployment.numbers conf.pbftPrimary = List.range s ∨
      l.deployment.numbers conf.pbftPrimary = List.range (s + 1))

section Runs

variable (reached : Reach (step env conf minTxPerBlock) Benign (init conf node block) l)

include reached

/-- A step apart from the loop adds at most one number to those that the primary executed. -/
theorem inner_executes {a : Label} {b : Deployment.Label} {d : Deployment}
    (same : a.inner = some b) (allowed : l.Benign a)
    (taken : l.deployment.step env conf b = some d) (i : Nat) :
    d.numbers i = l.deployment.numbers i ∨ ∃ s < l.deployment.world.numbers conf,
      s ∉ l.deployment.numbers i ∧ d.numbers i = l.deployment.numbers i ++ [s] := by
  have started : Reach (Deployment.step env conf) (Deployment.Benign conf)
    (Deployment.init conf node) l.deployment := deployment_reached reached
  have allowed' : l.deployment.Benign conf b := benign_inner same allowed
  rcases Deployment.step_executes started allowed' taken with unmoved | ⟨j, s, body, executes⟩
  · exact Or.inl (unmoved i).numbers
  · by_cases here : i = j
    · rw [here]
      refine Or.inr ⟨s, ?_, executes.fresh, executes.numbers⟩
      have member : s ∈ d.numbers j := by simp [executes.numbers]
      rw [← inner_numbers same taken]
      exact Deployment.executed_below (started.step allowed' taken) member
    · exact Or.inl (executes.others i here).numbers

theorem paced_step {a : Label} (before : l.Paced conf) (allowed : l.Benign a)
    (taken : l.step env conf minTxPerBlock a = some l') : l'.Paced conf := by
  have started : Reach (Deployment.step env conf) (Deployment.Benign conf)
    (Deployment.init conf node) l.deployment := deployment_reached reached
  cases step_cases taken with
  | inner b same stepped waiting =>
    have numbers := inner_numbers same stepped
    refine ⟨fun free => ?_, fun s waits => ?_⟩
    · have all := before.idle (waiting ▸ free)
      rcases inner_executes reached same allowed stepped conf.pbftPrimary with
        kept | ⟨s, below, fresh, -⟩
      · rw [kept, numbers]
        exact all
      · -- everything that was numbered had been executed
        rw [all] at fresh
        exact absurd (List.mem_range.mpr below) fresh
    · obtain ⟨next, executed⟩ := before.busy s (waiting ▸ waits)
      refine ⟨numbers.trans next, ?_⟩
      rcases inner_executes reached same allowed stepped conf.pbftPrimary with
        kept | ⟨s', below, fresh, appended⟩
      · rw [kept]
        exact executed
      · rw [next] at below
        rcases executed with waits | done
        · -- the number executed is the awaited one
          rw [waits, List.mem_range] at fresh
          obtain rfl : s' = s := by omega
          rw [appended, waits, List.range_succ]
          exact Or.inr rfl
        · rw [done] at fresh
          exact absurd (List.mem_range.mpr below) fresh
  | idle waiting same =>
    subst same
    exact before
  | proposed req waiting _ body stepped waits =>
    have opens := Deployment.request_numbers stepped
    refine ⟨fun free => ?_, fun s waits' => ?_⟩
    · rw [waits] at free
      cases free
    · rw [waits] at waits'
      obtain rfl := Option.some.inj waits'
      refine ⟨opens.next, Or.inl ?_⟩
      rw [(opens.unmoved conf.pbftPrimary).numbers]
      exact before.idle waiting
  | returned _ s waiting completed _ same done =>
    obtain ⟨next, executed⟩ := before.busy s waiting
    have worldReached := Deployment.world_reached (fun _ _ allowed => allowed) started
    have member : s ∈ l.deployment.numbers conf.pbftPrimary :=
      (World.committed_iff_executed worldReached conf.pbftPrimary s).mp completed
    refine ⟨fun _ => ?_, fun s' waits => ?_⟩
    · rw [same, next]
      rcases executed with missing | done
      · rw [missing] at member
        simp at member
      · exact done
    · rw [done] at waits
      cases waits

omit reached in
theorem paced (reached : Reach (step env conf minTxPerBlock) Benign (init conf node block) l) :
    l.Paced conf := by
  apply reached.invariant (P := Paced conf)
  · exact ⟨fun _ => rfl, fun s waits => by cases waits⟩
  · intro l a l' reached before allowed taken
    exact paced_step reached before allowed taken

/-- A step of the deployment is one of the PBFT processes, whose requests come one at a time. -/
theorem world_step {b : Deployment.Label} {d : Deployment}
    (allowed : l.deployment.Benign conf b) (taken : l.deployment.step env conf b = some d)
    (free : ∀ i req, b = .request i req → l.waiting = none) :
    d.world = l.deployment.world ∨ ∃ a, l.deployment.world.OneAtATime conf a ∧
      World.step env.crypto conf l.deployment.world a = some d.world := by
  have started : Reach (Deployment.step env conf) (Deployment.Benign conf)
    (Deployment.init conf node) l.deployment := deployment_reached reached
  have worldReached := Deployment.world_reached (fun _ _ allowed => allowed) started
  rcases Deployment.step_cases taken with
    ⟨i, tx, -, -, rfl⟩ | ⟨a, i, source, h, effects, called, stepped, -, world, -⟩
  · exact Or.inl rfl
  · refine Or.inr ⟨a, ⟨Deployment.benign_call called allowed, ?_⟩, world ▸ stepped⟩
    cases b with
    | addTransx => cases called
    | deliver =>
      cases called
      trivial
    | request j req =>
      cases called
      obtain rfl : j = conf.pbftPrimary := allowed
      -- everything that the primary has numbered it has executed
      intro s below
      apply (World.committed_iff_executed worldReached conf.pbftPrimary s).mpr
      have member : s ∈ l.deployment.numbers conf.pbftPrimary := by
        rw [(paced reached).idle (free _ _ rfl)]
        exact List.mem_range.mpr below
      exact member

omit reached in
/-- The PBFT processes get their requests one at a time. -/
theorem world_reached
    (reached : Reach (step env conf minTxPerBlock) Benign (init conf node block) l) :
    Reach (World.step env.crypto conf) (World.OneAtATime conf) (World.init conf)
      l.deployment.world := by
  refine reached.map (fun l => l.deployment.world) fun l a l' reached allowed taken => ?_
  cases step_cases taken with
  | inner b same stepped =>
    refine world_step reached (benign_inner same allowed) stepped ?_
    rintro i req rfl
    cases a <;> cases same
  | idle _ same => exact Or.inl (by rw [same])
  | proposed req waiting _ _ stepped =>
    have allowed' : l.deployment.Benign conf (.request conf.pbftPrimary req) := rfl
    exact world_step reached allowed' stepped fun _ _ _ => waiting
  | returned _ s _ _ _ same => exact Or.inl (by rw [same])

/-- No replica has executed anything that the primary has not, but for the awaited number. -/
theorem ahead {i s : Nat} (executed : s ∈ l.deployment.numbers i) :
    s ∈ l.deployment.numbers conf.pbftPrimary ∨ l.waiting = some s := by
  have started : Reach (Deployment.step env conf) (Deployment.Benign conf)
    (Deployment.init conf node) l.deployment := deployment_reached reached
  have below := Deployment.executed_below started executed
  cases waiting : l.waiting with
  | none =>
    rw [(paced reached).idle waiting]
    exact Or.inl (List.mem_range.mpr below)
  | some t =>
    obtain ⟨next, numbers⟩ := (paced reached).busy t waiting
    rcases numbers with before | done
    · rw [before, List.mem_range, Option.some.injEq]
      omega
    · rw [done, List.mem_range]
      exact Or.inl (next ▸ below)

end Runs

/-- The loop submits one proposal at a time: the primary applies its proposals in order, each
before it packs the next, and nobody applies another one earlier. -/
theorem one_by_one
    (reached : Reach (step env conf minTxPerBlock) Benign (init conf node block) l) :
    l.Paced conf ∧
      (∀ i, ∀ s ∈ l.deployment.numbers i,
        s ∈ l.deployment.numbers conf.pbftPrimary ∨ l.waiting = some s) ∧
      Reach (World.step env.crypto conf) (World.OneAtATime conf) (World.init conf)
        l.deployment.world :=
  ⟨paced reached, fun _ _ executed => ahead reached executed, world_reached reached⟩

/-! ### Two runs -/

/-- The block that is packed on top of the genesis block when this is in the pool. -/
def packedBlock (tx : TX) : Block :=
  sampleBlock 1 "genesis" "56e4ff6c596a19302c31810d1cdeae7b58dd75aaf6d99f05dc42ae4b42cd19f3" [tx]

/-- All the coins that `04b` is to get, paid to it by `04a`. -/
def covered : TX := samplePayment 1 "a" "04b"

/-- The same sum, paid by `04b` without having it. -/
def uncovered : TX := samplePayment 3 "b" "04a"

/-- The libraries on the two blocks, with the SHA-256 digests of their texts. -/
def loopEnv : Env :=
  { sampleEnv [genesisBlock, packedBlock covered, packedBlock uncovered] with
    crypto := sampleCryptoWith (sampleDigests ++
      [("12378178319genesismerklenonce",
          "56e4ff6c596a19302c31810d1cdeae7b58dd75aaf6d99f05dc42ae4b42cd19f3"),
        (Deployment.text (packedBlock covered),
          "ba7e1a048917b9fd3b2e4e3c66671928dd418ea2cf129089d1bf384d24d40c76"),
        (Deployment.text (packedBlock uncovered),
          "8868e69b66adc4ddb6b1f59759f69a35689ab90cf8121e8788c5b407af1b2af6")]) }

/-- Two replicas with the file of the genesis block. -/
def loopStart : ClosedLoop :=
  init (sampleConfig 2) (packingNodeWith TxPool.empty).toCoinNode (sampleBlock 0 "" "" [])

/-- A payment is submitted and proposed. -/
def proposing (tx : TX) : List Label := [.addTransx 0 tx, .turn "random" "merkle" 1]

/-- The messages for it come in, and `GetRequest` returns. -/
def settling : List Label :=
  [.deliver 0 0, .deliver 0 1, .deliver 1 0, .deliver 1 1, .deliver 3 0, .deliver 3 1, .completed]

theorem one_by_one_covered :
    ∃ l, exec (step loopEnv (sampleConfig 2) 1) loopStart (proposing covered ++ settling) = some l ∧
      l.deployment.numbers 0 = [0] ∧ l.waiting = none ∧ l.Paced (sampleConfig 2) := by
  obtain ⟨l, ran, facts⟩ := exec_of_run (step loopEnv (sampleConfig 2) 1) loopStart
    (proposing covered ++ settling)
    (p := fun l => decide (l.deployment.numbers 0 = [0] ∧ l.waiting = none)) (by decide +kernel)
  obtain ⟨numbers, waiting⟩ := of_decide_eq_true facts
  have benign : Meets (step loopEnv (sampleConfig 2) 1) Benign loopStart
      (proposing covered ++ settling) := by decide +kernel
  exact ⟨l, ran, numbers, waiting, (one_by_one (reach_of_exec benign ran)).1⟩

/-! ### Proposals that get through -/

/-- Nothing is under way: every replica has executed what has been numbered. -/
structure CaughtUp (conf : Config) (l : ClosedLoop) : Prop where
  waiting : l.waiting = none
  executed : ∀ i < conf.n,
    l.deployment.numbers i = List.range (l.deployment.world.numbers conf)

/-- The coin node accepts the proposal and can commit it. -/
def Settles (env : Env) (node : CoinNode) (b : String) : Prop :=
  node.checkProposal env b = .ok true ∧ (node.commitProposal env b).fault = none

instance (env : Env) (node : CoinNode) (b : String) : Decidable (Settles env node b) :=
  inferInstanceAs (Decidable (_ ∧ _))

theorem Settles.congr {node₁ node₂ : CoinNode} {b : String}
    (same : node₁.toChainState = node₂.toChainState) (settles : Settles env node₁ b) :
    Settles env node₂ b := by
  obtain ⟨accepted, returned⟩ := settles
  refine ⟨?_, ?_⟩
  · rw [← same]
    exact accepted
  · rw [← (CoinNode.commitProposal_congr env same b).1]
    exact returned

theorem same_replay {d : Deployment} {i j : Nat} (same : d.numbers i = d.numbers j) :
    (World.log conf d.world).replay i = (World.log conf d.world).replay j := by
  change (d.numbers i).filterMap _ = (d.numbers j).filterMap _
  rw [same]

/-- Replicas that executed the same numbers have the same balances and chains. -/
theorem same_chain {d : Deployment}
    (reached : Reach (Deployment.step env conf) (Deployment.Benign conf)
      (Deployment.init conf node) d)
    {i j : Nat} (same : d.numbers i = d.numbers j) :
    (d.nodes i).toChainState = (d.nodes j).toChainState := by
  rw [(Deployment.replayed_log reached i).2, (Deployment.replayed_log reached j).2,
    same_replay same]

/-- Either all of them are gone or none. -/
theorem same_stopped {d : Deployment}
    (reached : Reach (Deployment.step env conf) (Deployment.Benign conf)
      (Deployment.init conf node) d)
    {i j : Nat} (same : d.numbers i = d.numbers j) : d.stopped i = d.stopped j := by
  rw [← (Deployment.replayed_log reached i).1, ← (Deployment.replayed_log reached j).1,
    same_replay same]

variable (minTxPerBlock) in
/-- What the deployment can do by deliveries it can do while the loop waits. -/
theorem deliveries_reached {s : Nat} {types : MType → Prop} {d d' : Deployment}
    (later : Reach (Deployment.step env conf) (Deployment.Delivers conf s types) d d')
    (start : l.deployment = d) :
    ∃ l', Reach (step env conf minTxPerBlock) Waiting l l' ∧ l'.deployment = d' := by
  induction later with
  | start => exact ⟨l, .start, start⟩
  | @step d₁ d₂ a between allowed taken ih =>
    obtain ⟨l₁, reached, rfl⟩ := ih
    obtain ⟨pending, k, i, m, rfl, -⟩ := allowed
    refine ⟨{ l₁ with deployment := d₂ },
      reached.step (a := .deliver k i) ⟨pending, by simp⟩ ?_, rfl⟩
    simp only [step, taken, Option.map_some]

section Turn

variable {s : Nat} {b : String}

/-- The replica has executed the body, which its coin node accepted before. The coin node has
what `CommitProposal` made of it, and is gone if that stopped. -/
structure Committed (env : Env) (conf : Config) (s : Nat) (b : String) (i : Nat)
    (d₀ d : Deployment) : Prop where
  bound : i < conf.n
  accepted : (d₀.nodes i).checkProposal env b = .ok true
  numbers : d.numbers i = d₀.numbers i ++ [s]
  state : (d.nodes i).toChainState = ((d₀.nodes i).commitProposal env b).state.toChainState
  stopped : d.stopped i = ((d₀.nodes i).commitProposal env b).fault

theorem Committed.unmoved {i : Nat} {d₀ d d' : Deployment}
    (committed : Committed env conf s b i d₀ d) (same : Deployment.UnmovedAt i d d') :
    Committed env conf s b i d₀ d' :=
  ⟨committed.bound, committed.accepted, same.numbers.trans committed.numbers,
    same.state.trans committed.state, same.stopped.trans committed.stopped⟩

/-- It did stop. -/
structure Stuck (env : Env) (conf : Config) (s : Nat) (b : String) (i : Nat)
    (d₀ d : Deployment) : Prop extends Committed env conf s b i d₀ d where
  gone : d.stopped i ≠ none

/-- The loop waits for a number, and nothing else has happened to a coin node since. -/
structure Underway (env : Env) (conf : Config) (node₀ : CoinNode) (s : Nat) (b : String)
    (l₀ l : ClosedLoop) : Prop where
  waiting : l.waiting = some s
  numbered : World.NumberedBody l.deployment.world.history conf.pbftPrimary s b
  node : ∀ i, Deployment.UnmovedAt i l₀.deployment l.deployment ∨
    Committed env conf s b i l₀.deployment l.deployment
  unapproved : node₀.checkProposal env b ≠ .ok true →
    ∀ i, ¬Did l.deployment.world.history i (.checkProposal s b true)

variable {node₀ : CoinNode} {l₀ : ClosedLoop}

/-- Nobody approves of a body that the coin nodes do not accept. -/
theorem unapproved_step {a : Deployment.Label} {d : Deployment}
    (even : ∀ i < conf.n, (l₀.deployment.nodes i).toChainState = node₀.toChainState)
    (refused : node₀.checkProposal env b ≠ .ok true)
    (before : Underway env conf node₀ s b l₀ l)
    (taken : l.deployment.step env conf a = some d) (i : Nat) :
    ¬Did d.world.history i (.checkProposal s b true) := by
  intro did
  rcases Deployment.step_cases taken with
    ⟨j, tx, -, -, rfl⟩ | ⟨a', j, source, h, effects, called, stepped, ran, world, served⟩
  · exact before.unapproved refused i did
  · rw [world] at did
    rcases (World.did_record ..).mp did with ⟨rfl, new⟩ | old
    · obtain ⟨k, m, rfl, -, -, -, -, accepted⟩ := Deployment.checked_by_node called ran served new
      cases called
      have start := even j (World.deliver_bound stepped)
      rcases before.node j with same | committed
      · rw [same.state, start] at accepted
        exact refused accepted
      · have accepted₀ := committed.accepted
        rw [start] at accepted₀
        exact refused accepted₀
    · exact before.unapproved refused i old

theorem underway_step {a : Label}
    (reached : Reach (step env conf minTxPerBlock) Benign (init conf node block) l)
    (even : ∀ i < conf.n, (l₀.deployment.nodes i).toChainState = node₀.toChainState)
    (executed : ∀ i < conf.n, l₀.deployment.numbers i = List.range s)
    (before : Underway env conf node₀ s b l₀ l) (allowed : l.Waiting a)
    (taken : l.step env conf minTxPerBlock a = some l') : Underway env conf node₀ s b l₀ l' := by
  have started : Reach (Deployment.step env conf) (Deployment.Benign conf)
    (Deployment.init conf node) l.deployment := deployment_reached reached
  have worldReached := Deployment.world_reached (fun _ _ allowed => allowed) started
  cases step_cases taken with
  | inner a' same stepped waiting =>
    have allowed' : l.deployment.Benign conf a' := benign_inner same allowed.1
    refine ⟨waiting.trans before.waiting, Deployment.numbered_mono stepped before.numbered, ?_,
      fun refused => unapproved_step even refused before stepped⟩
    rcases Deployment.step_executes started allowed' stepped with
      unmoved | ⟨i, s', b', executes⟩
    · exact fun i => (before.node i).imp (·.trans (unmoved i)) (·.unmoved (unmoved i))
    · -- an execution is of the awaited number, as all lower ones have been executed
      obtain ⟨next, -⟩ := (paced reached).busy s before.waiting
      obtain ⟨⟨req, body, only⟩, ⟨voters, large, approval⟩, -⟩ := executes.certified
      have did : Did l.deployment.world.history conf.pbftPrimary (.numbered s' req) :=
        (only req).mpr rfl
      have below := (World.numbering worldReached conf.pbftPrimary).below s' req did
      have lower : ∀ t < s, t ∈ l.deployment.numbers i := by
        intro t before_s
        have member : t ∈ l₀.deployment.numbers i := by
          rw [executed i executes.bound]
          exact List.mem_range.mpr before_s
        rcases before.node i with same | committed
        · rw [same.numbers]
          exact member
        · rw [committed.numbers]
          exact List.mem_append_left _ member
      obtain rfl : s' = s := by
        have fresh : ¬s' < s := fun before_s => executes.fresh (lower s' before_s)
        unfold World.numbers at next
        omega
      obtain rfl : b' = b := World.NumberedBody.unique worldReached ⟨req, did, body⟩ before.numbered
      -- and comes after the approval of a quorum
      obtain ⟨v, member⟩ : voters.Nonempty := Finset.card_pos.mp (by omega)
      have accepted : node₀.checkProposal env b' = .ok true := by
        by_contra refused
        exact before.unapproved refused v (approval v member).2
      have same : Deployment.UnmovedAt i l₀.deployment l.deployment := by
        refine (before.node i).resolve_right fun committed => executes.fresh ?_
        rw [committed.numbers]
        exact List.mem_append_right _ (List.mem_singleton_self _)
      obtain ⟨fault, state⟩ := CoinNode.commitProposal_congr env same.state b'
      intro j
      by_cases here : j = i
      · subst here
        refine Or.inr ⟨executes.bound, ?_, ?_, ?_, ?_⟩
        · rw [even j executes.bound]
          exact accepted
        · rw [executes.numbers, same.numbers]
        · rw [executes.node]
          exact state
        · rw [executes.stopped]
          exact fault
      · have kept := executes.others j here
        exact (before.node j).imp (·.trans kept) (·.unmoved kept)
  | idle waiting => rw [before.waiting] at waiting; cases waiting
  | proposed req waiting => rw [before.waiting] at waiting; cases waiting
  | returned label => exact absurd label allowed.2

/-- As long as `GetRequest` does not return. -/
theorem underway {l₁ : ClosedLoop}
    (reached : Reach (step env conf minTxPerBlock) Benign (init conf node block) l)
    (even : ∀ i < conf.n, (l₀.deployment.nodes i).toChainState = node₀.toChainState)
    (executed : ∀ i < conf.n, l₀.deployment.numbers i = List.range s)
    (start : Underway env conf node₀ s b l₀ l)
    (later : Reach (step env conf minTxPerBlock) Waiting l l₁) :
    Underway env conf node₀ s b l₀ l₁ := by
  apply later.invariant start
  intro l₂ a l₃ between before allowed taken
  have reached₂ := reached.trans (between.mono fun _ _ allowed => allowed.1)
  exact underway_step reached₂ even executed before allowed taken

/-- `GetRequest` returns only on a proposal that the coin nodes accept and can commit. -/
theorem settles_of_completed
    (reached : Reach (step env conf minTxPerBlock) Benign (init conf node block) l)
    (primary : (l₀.deployment.nodes conf.pbftPrimary).toChainState = node₀.toChainState)
    (executed : l₀.deployment.numbers conf.pbftPrimary = List.range s)
    (before : Underway env conf node₀ s b l₀ l)
    (taken : l.step env conf minTxPerBlock .completed = some l') : Settles env node₀ b := by
  have worldReached := Deployment.world_reached (fun _ _ allowed => allowed)
    (deployment_reached reached)
  cases step_cases taken with
  | inner a same => cases same
  | idle waiting => rw [before.waiting] at waiting; cases waiting
  | proposed req waiting => rw [before.waiting] at waiting; cases waiting
  | returned _ s' waiting completed running =>
    rw [before.waiting] at waiting
    obtain rfl := Option.some.inj waiting
    have member : s ∈ l.deployment.numbers conf.pbftPrimary :=
      (World.committed_iff_executed worldReached conf.pbftPrimary s).mp completed
    rcases before.node conf.pbftPrimary with same | committed
    · -- the awaited number has not been executed
      rw [same.numbers, executed] at member
      simp at member
    · refine ⟨?_, ?_⟩
      · rw [← primary]
        exact committed.accepted
      · rw [← (CoinNode.commitProposal_congr env primary b).1, ← committed.stopped]
        exact running

/-- After a turn from which everything had been executed, the awaited proposal is the only
thing under way. -/
structure Proposed (env : Env) (conf : Config) (l l' : ClosedLoop) (s : Nat) (b : String) :
    Prop where
  primary : conf.pbftPrimary < conf.n
  unmoved : Deployment.Unmoved l.deployment l'.deployment
  executed : ∀ i < conf.n, l.deployment.numbers i = List.range s
  running : ∀ i < conf.n, l.deployment.stopped i = none
  even : ∀ i < conf.n, (l.deployment.nodes i).toChainState =
    (l.deployment.nodes conf.pbftPrimary).toChainState
  opened : b ≠ "" → Deployment.Opened conf s b l'.deployment
  underway : Underway env conf (l.deployment.nodes conf.pbftPrimary) s b l l'

theorem proposed_of_turn {random merkle : String} {timeStamp : Nat}
    (reached : Reach (step env conf minTxPerBlock) Benign (init conf node block) l)
    (caught : l.CaughtUp conf)
    (taken : l.step env conf minTxPerBlock (.turn random merkle timeStamp) = some l')
    (waits : l'.waiting = some s) :
    Proposed env conf l l' s (env.json.dump l'.onPackingBlock.toJson) := by
  have started : Reach (Deployment.step env conf) (Deployment.Benign conf)
    (Deployment.init conf node) l.deployment := deployment_reached reached
  have worldReached := Deployment.world_reached (fun _ _ allowed => allowed) started
  cases step_cases taken with
  | inner b same => cases same
  | idle waiting same =>
    rw [same, waiting] at waits
    cases waits
  | returned label => cases label
  | proposed req _ running body stepped waits' =>
    rw [waits'] at waits
    obtain rfl := Option.some.inj waits
    have opens := Deployment.request_numbers stepped
    have together : ∀ i < conf.n,
        l.deployment.numbers i = l.deployment.numbers conf.pbftPrimary := fun i bound =>
      (caught.executed i bound).trans (caught.executed _ opens.bound).symm
    rw [← body]
    refine ⟨opens.bound, opens.unmoved, caught.executed, fun i bound => ?_,
      fun i bound => same_chain started (together i bound), Deployment.opened started opens,
      waits', ⟨req, opens.numbered, rfl⟩, fun i => Or.inl (opens.unmoved i), fun _ i did => ?_⟩
    · rw [same_stopped started (together i bound)]
      exact running
    · -- the number was new
      obtain ⟨req', did', -⟩ := World.checked_primary worldReached (opens.asked i _ _ _ did)
      have below := (World.numbering worldReached conf.pbftPrimary).below _ req' did'
      exact absurd below (lt_irrefl _)

/-- The messages for an accepted proposal let every replica execute it. -/
theorem turn_executes
    (keys : ∀ i < conf.n, env.crypto.KeyPair (conf.keys i).privKey (conf.keys i).addr)
    (reached : Reach (step env conf minTxPerBlock) Benign (init conf node block) l')
    (proposed : Proposed env conf l l' s b) (nonempty : b ≠ "")
    (accepted : (l.deployment.nodes conf.pbftPrimary).checkProposal env b = .ok true) :
    ∃ l₁, Reach (step env conf minTxPerBlock) Waiting l' l₁ ∧ l₁.waiting = some s ∧
      ∀ i < conf.n, Committed env conf s b i l.deployment l₁.deployment := by
  have started : Reach (Deployment.step env conf) (Deployment.Benign conf)
    (Deployment.init conf node) l'.deployment := deployment_reached reached
  have primary : 1 ≤ conf.n := Nat.one_le_of_lt proposed.primary
  have acceptable : Deployment.Acceptable env conf b l'.deployment := by
    refine ⟨fun i bound => ?_, fun i bound => ?_⟩
    · rw [(proposed.unmoved i).state, proposed.even i bound]
      exact accepted
    · rw [(proposed.unmoved i).stopped]
      exact proposed.running i bound
  obtain ⟨d, later, numbers⟩ :=
    Deployment.round keys acceptable started primary (proposed.opened nonempty)
  obtain ⟨l₁, later₁, rfl⟩ := deliveries_reached minTxPerBlock later rfl
  have waits := underway reached proposed.even proposed.executed proposed.underway later₁
  refine ⟨l₁, later₁, waits.waiting, fun i bound => (waits.node i).resolve_left fun same => ?_⟩
  have executed := numbers i bound
  rw [(proposed.unmoved i).numbers, same.numbers] at executed
  exact absurd (List.self_eq_append_right.mp executed) (List.cons_ne_nil _ _)

/-- When the coin nodes could commit it as well, `GetRequest` returns. -/
theorem turn_completes {l₁ : ClosedLoop}
    (reached : Reach (step env conf minTxPerBlock) Benign (init conf node block) l₁)
    (proposed : Proposed env conf l l' s b) (waits : l₁.waiting = some s)
    (committed : ∀ i < conf.n, Committed env conf s b i l.deployment l₁.deployment)
    (returned : ((l.deployment.nodes conf.pbftPrimary).commitProposal env b).fault = none) :
    ∃ l₂, l₁.step env conf minTxPerBlock .completed = some l₂ ∧ l₂.CaughtUp conf ∧
      s ∈ l₂.deployment.numbers conf.pbftPrimary := by
  have numbers : ∀ i < conf.n, l₁.deployment.numbers i = List.range (s + 1) := by
    intro i bound
    rw [(committed i bound).numbers, proposed.executed i bound, List.range_succ]
  obtain ⟨next, -⟩ := (paced reached).busy s waits
  have member : s ∈ l₁.deployment.numbers conf.pbftPrimary := by
    rw [numbers conf.pbftPrimary proposed.primary]
    exact List.mem_range.mpr (Nat.lt_succ_self s)
  have completed : (l₁.deployment.world.replicas conf.pbftPrimary).requestCompleted s = true :=
    (World.committed_iff_executed (Deployment.world_reached (fun _ _ allowed => allowed)
      (deployment_reached reached)) conf.pbftPrimary s).mpr member
  have running : l₁.deployment.stopped conf.pbftPrimary = none :=
    (committed _ proposed.primary).stopped.trans returned
  refine ⟨{ l₁ with waiting := none }, ?_, ⟨rfl, fun i bound => ?_⟩, member⟩
  · simp only [step, waits, if_pos (And.intro completed running)]
  · rw [next]
    exact numbers i bound

end Turn

/-- Where nothing else is under way, what becomes of a proposal is decided when it is made.
Either the primary's coin node accepts it and can commit it, and the messages for it let
every replica execute it and `GetRequest` return. Or the loop waits for it for ever, and all
that can still happen to a coin node is that it commits the proposal, if that is accepted,
up to where it stops; and the messages for it can have this happen to all of them. -/
theorem turn_settles
    (keys : ∀ i < conf.n, env.crypto.KeyPair (conf.keys i).privKey (conf.keys i).addr)
    (reached : Reach (step env conf minTxPerBlock) Benign (init conf node block) l)
    (caught : l.CaughtUp conf) {random merkle : String} {timeStamp s : Nat}
    (taken : l.step env conf minTxPerBlock (.turn random merkle timeStamp) = some l')
    (waits : l'.waiting = some s)
    (text : env.json.dump l'.onPackingBlock.toJson ≠ "") :
    let primary := l.deployment.nodes conf.pbftPrimary
    let b := env.json.dump l'.onPackingBlock.toJson
    (Settles env primary b → ∃ l₁, Reach (step env conf minTxPerBlock) Benign l' l₁ ∧
      l₁.CaughtUp conf ∧ s ∈ l₁.deployment.numbers conf.pbftPrimary) ∧
    (¬Settles env primary b →
      (∀ l₁, Reach (step env conf minTxPerBlock) Benign l' l₁ → l₁.waiting = some s ∧
        ∀ i, Deployment.UnmovedAt i l.deployment l₁.deployment ∨
          Stuck env conf s b i l.deployment l₁.deployment) ∧
      (primary.checkProposal env b = .ok true →
        ∃ l₁, Reach (step env conf minTxPerBlock) Benign l' l₁ ∧
          ∀ i < conf.n, Stuck env conf s b i l.deployment l₁.deployment)) := by
  intro primary b
  have proposed := proposed_of_turn reached caught taken waits
  have reached' : Reach (step env conf minTxPerBlock) Benign (init conf node block) l' :=
    reached.step (a := .turn random merkle timeStamp) trivial taken
  -- a coin node that has committed what it cannot commit is gone
  have gone : ¬Settles env primary b → ∀ {l₁ : ClosedLoop} {i : Nat},
      Committed env conf s b i l.deployment l₁.deployment →
      Stuck env conf s b i l.deployment l₁.deployment := by
    intro hopeless l₁ i committed
    refine ⟨committed, fun running => hopeless ?_⟩
    exact Settles.congr (proposed.even i committed.bound)
      ⟨committed.accepted, committed.stopped.symm.trans running⟩
  refine ⟨fun settles => ?_, fun hopeless => ⟨fun l₁ later => ?_, fun accepted => ?_⟩⟩
  · obtain ⟨l₁, later, waits₁, committed⟩ :=
      turn_executes keys reached' proposed text settles.1
    have later₁ : Reach (step env conf minTxPerBlock) Benign l' l₁ :=
      later.mono fun _ _ allowed => allowed.1
    obtain ⟨l₂, taken₂, caught₂, member⟩ :=
      turn_completes (reached'.trans later₁) proposed waits₁ committed settles.2
    exact ⟨l₂, later₁.step (a := .completed) trivial taken₂, caught₂, member⟩
  · have underway : Underway env conf primary s b l l₁ := by
      apply later.invariant proposed.underway
      intro l₂ a l₃ between before allowed taken
      have reached₂ := reached'.trans between
      refine underway_step reached₂ proposed.even proposed.executed before ⟨allowed, ?_⟩ taken
      rintro rfl
      exact hopeless (settles_of_completed reached₂ rfl
        (proposed.executed _ proposed.primary) before taken)
    exact ⟨underway.waiting, fun i => (underway.node i).imp_right (gone hopeless)⟩
  · obtain ⟨l₁, later, -, committed⟩ := turn_executes keys reached' proposed text accepted
    exact ⟨l₁, later.mono fun _ _ allowed => allowed.1, fun i bound =>
      gone hopeless (committed i bound)⟩

/-- A payment is in the pool of the primary. -/
def submitted (tx : TX) : ClosedLoop :=
  { loopStart with deployment := loopStart.deployment.addTransx loopEnv 0 tx }

theorem submitted_reached (tx : TX) :
    Reach (step loopEnv (sampleConfig 2) 1) Benign loopStart (submitted tx) :=
  .step (a := .addTransx 0 tx) .start trivial rfl

theorem submitted_caughtUp (tx : TX) : (submitted tx).CaughtUp (sampleConfig 2) :=
  ⟨rfl, fun _ _ => rfl⟩

/-- The payment that is covered is settled, and the other one never. -/
theorem turn_settles_covered :
    (∃ l l', step loopEnv (sampleConfig 2) 1 (submitted covered) (.turn "random" "merkle" 1) =
        some l ∧
      Reach (step loopEnv (sampleConfig 2) 1) Benign l l' ∧ l'.CaughtUp (sampleConfig 2)) ∧
    ∃ l, step loopEnv (sampleConfig 2) 1 (submitted uncovered) (.turn "random" "merkle" 1) =
        some l ∧
      ∀ l', Reach (step loopEnv (sampleConfig 2) 1) Benign l l' → l'.waiting = some 0 := by
  have keys : ∀ i < (sampleConfig 2).n, loopEnv.crypto.KeyPair ((sampleConfig 2).keys i).privKey
      ((sampleConfig 2).keys i).addr := World.sampleConfig_keys 2
  constructor
  · obtain ⟨l, taken, facts⟩ := Option.map_eq_some_iff.mp
      (show (step loopEnv (sampleConfig 2) 1 (submitted covered) (.turn "random" "merkle" 1)).map
        (fun l => decide (l.waiting = some 0 ∧ l.onPackingBlock = packedBlock covered)) =
          some true by decide +kernel)
    obtain ⟨waits, packed⟩ := of_decide_eq_true facts
    obtain ⟨settled, -⟩ := turn_settles keys (submitted_reached covered)
      (submitted_caughtUp covered) taken waits (by rw [packed]; decide +kernel)
    obtain ⟨l', later, caught, -⟩ := settled (by rw [packed]; decide +kernel)
    exact ⟨l, l', taken, later, caught⟩
  · obtain ⟨l, taken, facts⟩ := Option.map_eq_some_iff.mp
      (show (step loopEnv (sampleConfig 2) 1 (submitted uncovered) (.turn "random" "merkle" 1)).map
        (fun l => decide (l.waiting = some 0 ∧ l.onPackingBlock = packedBlock uncovered)) =
          some true by decide +kernel)
    obtain ⟨waits, packed⟩ := of_decide_eq_true facts
    obtain ⟨-, hopeless⟩ := turn_settles keys (submitted_reached uncovered)
      (submitted_caughtUp uncovered) taken waits (by rw [packed]; decide +kernel)
    refine ⟨l, taken, fun l' later => ?_⟩
    exact ((hopeless (by rw [packed]; decide +kernel)).1 l' later).1

end ClosedLoop

end Ruccoin
