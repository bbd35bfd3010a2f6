import Ruccoin.Coin.Node
import Ruccoin.Pbft.TotalOrder

/-!
# Replicas with their coin nodes

On every machine a PBFT process and a coin node run side by side. The coin node is the
master of the PBFT process: it answers `CheckProposal` when a pre-prepare arrives and
carries out `CommitProposal` when a Commit completes a proposal. The coin nodes start from
equal files; clients send transactions to any of them and requests to the primary.

A coin node whose `CommitProposal` stops keeps the balances and the chain that it has by
then, and its process is gone. Nothing answers the calls to a coin node that is gone.
-/

namespace Ruccoin

open Pbft Coin Transition

/-- A `CommitProposal` call: at which replica, on which state of its coin node, and for
which body. -/
structure Commitment (D : Type := Amount) where
  replica : Nat
  node : CoinNode D
  body : String

structure Deployment (D : Type := Amount) where
  world : World
  nodes : Nat → CoinNode D
  /-- With what a `CommitProposal` call ended the process of the coin node. -/
  stopped : Nat → Option Coin.Fault
  /-- The latest first. -/
  commitments : List (Commitment D)

namespace Deployment

variable {D : Type}

inductive Label (D : Type := Amount) where
  | addTransx (i : Nat) (tx : TX D)
  | request (i : Nat) (req : Request)
  | deliver (k dst : Nat)

def init (conf : Config) (node : CoinNode D) : Deployment D where
  world := World.init conf
  nodes _ := node
  stopped _ := none
  commitments := []

variable [Add D] [Sub D] [LT D] [DecidableLT D] [Double D]

/-- A coin node as the master of its PBFT process. When the check stops, the call fails. -/
def master (env : Env D) (node : CoinNode D) : Master := fun b =>
  match node.checkProposal env b with
  | .ok verdict => .value verdict
  | .error _ => .rpcError

/-- The coin node of replica `i` does what an effect asks of it. There is no next state when
its process is gone, or goes in a check: the call is not answered, so the handler stays in
it. A `CommitProposal` that stops keeps its handler as well, and with it the mutex of the
proposal; the flag that `World` has set by then keeps the others from executing it just so. -/
def serve (env : Env D) (i : Nat) (d : Deployment D) : Effect → Option (Deployment D)
  | .checkProposal _ b _ =>
    match d.stopped i, (d.nodes i).checkProposal env b with
    | none, .ok _ => some d
    | _, _ => none
  | .commitAction _ b =>
    match d.stopped i with
    | none =>
      let outcome := (d.nodes i).commitProposal env b
      some { d with
        nodes := Function.update d.nodes i outcome.state
        stopped := Function.update d.stopped i outcome.fault
        commitments := ⟨i, d.nodes i, b⟩ :: d.commitments }
    | some _ => none
  | _ => some d

def serveAll (env : Env D) (i : Nat) : List Effect → Deployment D → Option (Deployment D)
  | [], d => some d
  | e :: effects, d => (serve env i d e).bind (serveAll env i effects)

/-- The call of the PBFT process that a label stands for. -/
def call (env : Env D) (d : Deployment D) : Label D → Option Pbft.Label
  | .addTransx .. => none
  | .request i req => some (.request i req)
  | .deliver k dst => some (.deliver k dst (master env (d.nodes dst)))

/-- A call of the PBFT process together with what it has its coin node do. -/
def advance (env : Env D) (conf : Config) (d : Deployment D) (a : Pbft.Label) :
    Option (Deployment D) :=
  (World.step env.crypto conf d.world a).bind fun w =>
    match w.history with
    | [] => none
    | e :: _ => serveAll env e.replica e.effects { d with world := w }

def addTransx (env : Env D) (d : Deployment D) (i : Nat) (tx : TX D) : Deployment D :=
  { d with nodes := Function.update d.nodes i ((d.nodes i).addTransx env tx).1 }

def step (env : Env D) (conf : Config) (d : Deployment D) (a : Label D) :
    Option (Deployment D) :=
  match a with
  | .addTransx i tx => if d.stopped i = none then some (d.addTransx env i tx) else none
  | .request i req => d.advance env conf (.request i req)
  | .deliver k dst => d.advance env conf (.deliver k dst (master env (d.nodes dst)))

/-- The bodies that replica `i` executed, in order. -/
def bodies (d : Deployment D) (i : Nat) : List String :=
  (World.executions d.world.history i).map Prod.snd

/-- The numbers that replica `i` executed, in order. -/
def numbers (d : Deployment D) (i : Nat) : List Nat :=
  (World.executions d.world.history i).map Prod.fst

/-- Requests go to the primary; messages are delayed, reordered or lost. -/
def Benign (conf : Config) (d : Deployment D) : Label D → Prop
  | .addTransx .. => True
  | .request i _ => i = conf.pbftPrimary
  | .deliver k dst => ¬d.world.Arrived k dst

instance (conf : Config) (d : Deployment D) (a : Label D) : Decidable (d.Benign conf a) := by
  cases a <;> unfold Benign <;> infer_instance

/-! ### What a step can be -/

/-- What the coin node of replica `i` did for a call with these effects. -/
inductive Served (env : Env D) (d d' : Deployment D) (i : Nat) (effects : List Effect) : Prop where
  | quiet (silent : ∀ s b, .commitAction s b ∉ effects) (nodes : d'.nodes = d.nodes)
      (stopped : d'.stopped = d.stopped) (commitments : d'.commitments = d.commitments)
      (answered : ∀ s b v, .checkProposal s b v ∈ effects →
        ∃ verdict, (d.nodes i).checkProposal env b = .ok verdict)
  | committed (s : Nat) (b : String) (only : effects = [.commitAction s b])
      (running : d.stopped i = none)
      (nodes : d'.nodes = Function.update d.nodes i ((d.nodes i).commitProposal env b).state)
      (stopped :
        d'.stopped = Function.update d.stopped i ((d.nodes i).commitProposal env b).fault)
      (commitments : d'.commitments = ⟨i, d.nodes i, b⟩ :: d.commitments)

variable {env : Env D} {conf : Config} {d d' : Deployment D} {i : Nat} {effects : List Effect}

/-- Without a proposal to commit the coin node answers and changes nothing. -/
theorem serveAll_quiet (silent : ∀ s b, .commitAction s b ∉ effects)
    (served : serveAll env i effects d = some d') :
    d' = d ∧ ∀ s b v, .checkProposal s b v ∈ effects →
      ∃ verdict, (d.nodes i).checkProposal env b = .ok verdict := by
  induction effects generalizing d with
  | nil =>
    cases served
    exact ⟨rfl, fun s b v member => by cases member⟩
  | cons e effects ih =>
    obtain ⟨d₁, first, rest⟩ := Option.bind_eq_some_iff.mp served
    have quiet : ∀ s b, .commitAction s b ∉ effects := fun s b member =>
      silent s b (List.mem_cons_of_mem e member)
    -- what the first effect asks of the node
    have answer : d₁ = d ∧ ∀ s b v, e = .checkProposal s b v →
        ∃ verdict, (d.nodes i).checkProposal env b = .ok verdict := by
      cases e with
      | numbered s req =>
        cases first
        exact ⟨rfl, by simp⟩
      | sendMessage m =>
        cases first
        exact ⟨rfl, by simp⟩
      | setPrepared s =>
        cases first
        exact ⟨rfl, by simp⟩
      | commitAction s b => exact absurd List.mem_cons_self (silent s b)
      | checkProposal s b v =>
        simp only [serve] at first
        split at first
        next verdict _ checked =>
          cases first
          refine ⟨rfl, ?_⟩
          rintro s' b' v' same
          cases same
          exact ⟨verdict, checked⟩
        next =>
          -- there was no answer
          cases first
    obtain ⟨rfl, here⟩ := answer
    obtain ⟨rfl, later⟩ := ih quiet rest
    refine ⟨rfl, fun s b v member => ?_⟩
    rcases List.mem_cons.mp member with same | old
    · exact here s b v same.symm
    · exact later s b v old

theorem serveAll_commitAction {s : Nat} {b : String}
    (served : serveAll env i [.commitAction s b] d = some d') :
    d.stopped i = none ∧
      d' = { d with
        nodes := Function.update d.nodes i ((d.nodes i).commitProposal env b).state
        stopped := Function.update d.stopped i ((d.nodes i).commitProposal env b).fault
        commitments := ⟨i, d.nodes i, b⟩ :: d.commitments } := by
  obtain ⟨d₁, first, rest⟩ := Option.bind_eq_some_iff.mp served
  cases rest
  simp only [serve] at first
  split at first
  next running =>
    cases first
    exact ⟨running, rfl⟩
  next => cases first

theorem advance_cases {a : Pbft.Label} (taken : d.advance env conf a = some d') :
    ∃ i source h effects,
      World.step env.crypto conf d.world a = some (d.world.record i source h effects) ∧
      World.Ran env.crypto d.world a i source h effects ∧
      d'.world = d.world.record i source h effects ∧ Served env d d' i effects := by
  obtain ⟨w, stepped, served⟩ := Option.bind_eq_some_iff.mp taken
  obtain ⟨i, source, h, effects, -, rfl, ran⟩ := World.step_cases stepped
  refine ⟨i, source, h, effects, stepped, ran, ?_⟩
  dsimp only [World.record] at served
  by_cases commits : ∃ s b, .commitAction s b ∈ effects
  · -- `Reply` does nothing besides the execution
    obtain ⟨s, b, reported⟩ := commits
    obtain ⟨call, called⟩ := ran.call
    obtain ⟨m, -, -, only⟩ := PBFTHandler.call_commitAction called reported
    rw [only] at served
    obtain ⟨running, rfl⟩ := serveAll_commitAction served
    refine ⟨by rw [only]; rfl, ?_⟩
    exact .committed s b only running rfl rfl rfl
  · have silent : ∀ s b, .commitAction s b ∉ effects := fun s b reported =>
      commits ⟨s, b, reported⟩
    obtain ⟨rfl, answered⟩ := serveAll_quiet silent served
    exact ⟨rfl, .quiet silent rfl rfl rfl answered⟩

/-- A step is a transaction sent to a coin node, or a call of a PBFT process served by its
coin node. -/
theorem step_cases {a : Label D} (taken : step env conf d a = some d') :
    (∃ i tx, a = .addTransx i tx ∧ d.stopped i = none ∧ d' = d.addTransx env i tx) ∨
      ∃ a' i source h effects, d.call env a = some a' ∧
        World.step env.crypto conf d.world a' = some (d.world.record i source h effects) ∧
        World.Ran env.crypto d.world a' i source h effects ∧
        d'.world = d.world.record i source h effects ∧ Served env d d' i effects := by
  cases a with
  | addTransx i tx =>
    obtain ⟨running, added⟩ := Option.ite_none_right_eq_some.mp taken
    exact Or.inl ⟨i, tx, rfl, running, (Option.some.inj added).symm⟩
  | request i req =>
    obtain ⟨j, source, h, effects, rest⟩ := advance_cases taken
    exact Or.inr ⟨_, j, source, h, effects, rfl, rest⟩
  | deliver k dst =>
    obtain ⟨j, source, h, effects, rest⟩ := advance_cases taken
    exact Or.inr ⟨_, j, source, h, effects, rfl, rest⟩

omit [Add D] [Sub D] [LT D] [DecidableLT D] in
/-- A transaction enters the pool of a node and leaves its balances and chain alone. -/
theorem addTransx_chainState (i : Nat) (tx : TX D) (j : Nat) :
    ((d.addTransx env i tx).nodes j).toChainState = (d.nodes j).toChainState := by
  simp only [addTransx, Function.update_apply]
  split
  next here =>
    subst here
    unfold CoinNode.addTransx
    split <;> rfl
  next => rfl

omit [Add D] in
/-- A call of a benign deployment is benign for the PBFT processes, which only see the
replicas and the messages. -/
theorem benign_call {a : Label D} {a' : Pbft.Label} (called : d.call env a = some a')
    (safe : d.Benign conf a) : d.world.Benign conf a' := by
  cases a with
  | addTransx i tx => cases called
  | request i req =>
    cases called
    exact ⟨trivial, safe, trivial⟩
  | deliver k dst =>
    cases called
    exact ⟨trivial, trivial, safe⟩

omit [Add D] in
/-- No label of a deployment makes a replica faulty. -/
theorem faultFree_call {a : Label D} {a' : Pbft.Label} (called : d.call env a = some a') :
    d.world.FaultFree a' := by
  cases a with
  | addTransx i tx => cases called
  | request i req =>
    cases called
    trivial
  | deliver k dst =>
    cases called
    trivial

/-! ### The two parts of the deployment -/

section Parts

variable {guard : Deployment D → Label D → Prop} {node : CoinNode D}

/-- The PBFT processes run as they do on their own. -/
theorem world_reached (benign : ∀ d a, guard d a → d.Benign conf a)
    (reached : Reach (step env conf) guard (init conf node) d) :
    Reach (World.step env.crypto conf) (World.Benign conf) (World.init conf) d.world := by
  refine reached.map Deployment.world fun d a d' _ allowed taken => ?_
  rcases step_cases taken with
    ⟨i, tx, -, -, rfl⟩ | ⟨a', i, source, h, effects, called, stepped, -, same, -⟩
  · exact Or.inl rfl
  · refine Or.inr ⟨a', benign_call called (benign d a allowed), ?_⟩
    rw [same]
    exact stepped

/-- The coin node of replica `i` has the balances and the chain that committing the executed
bodies, one after the other, makes of the node it started as, and it is gone when that stops. -/
structure Replayed (env : Env D) (node : CoinNode D) (d : Deployment D) (i : Nat) : Prop where
  fault : (node.commitAll env (d.bodies i)).fault = d.stopped i
  state : (d.nodes i).toChainState = (node.commitAll env (d.bodies i)).state.toChainState

theorem replayed_step {a : Label D} (taken : step env conf d a = some d')
    (replayed : d.Replayed env node i) : d'.Replayed env node i := by
  rcases step_cases taken with
    ⟨j, tx, -, -, rfl⟩ | ⟨a', j, source, h, effects, -, -, -, world, served⟩
  · -- the pool is no part of what is compared
    refine ⟨replayed.fault, ?_⟩
    rw [addTransx_chainState]
    exact replayed.state
  · have listed : d'.bodies i = d.bodies i ++
        (if j = i then effects.filterMap World.Effect.execution else []).map Prod.snd := by
      unfold bodies
      rw [world, World.executions_record, List.map_append]
    cases served with
    | quiet silent nodes stopped =>
      have nothing : effects.filterMap World.Effect.execution = [] := by
        rw [List.eq_nil_iff_forall_not_mem]
        rintro ⟨s, b⟩ member
        exact silent s b (World.mem_execution.mp member)
      rw [nothing, ite_self, List.map_nil, List.append_nil] at listed
      refine ⟨?_, ?_⟩
      · rw [listed, stopped]
        exact replayed.fault
      · rw [listed, nodes]
        exact replayed.state
    | committed s b only running nodes stopped =>
      by_cases here : j = i
      · -- the body is committed on a node equal to the one replayed so far
        subst here
        have returned : (node.commitAll env (d.bodies j)).fault = none :=
          replayed.fault.trans running
        have appended : d'.bodies j = d.bodies j ++ [b] := by
          rw [listed, if_pos rfl, only]
          rfl
        obtain ⟨fault, state⟩ := CoinNode.commitProposal_congr env replayed.state b
        refine ⟨?_, ?_⟩
        · rw [appended, CoinNode.commitAll_concat b returned, stopped, Function.update_self]
          exact fault.symm
        · rw [appended, CoinNode.commitAll_concat b returned, nodes, Function.update_self]
          exact state
      · -- another replica executed
        have other : ¬i = j := fun same => here same.symm
        rw [if_neg here, List.map_nil, List.append_nil] at listed
        refine ⟨?_, ?_⟩
        · rw [listed, stopped, Function.update_of_ne other]
          exact replayed.fault
        · rw [listed, nodes, Function.update_of_ne other]
          exact replayed.state

theorem replayed (reached : Reach (step env conf) guard (init conf node) d) (i : Nat) :
    d.Replayed env node i := by
  apply reached.invariant (P := fun d => d.Replayed env node i)
  · exact ⟨rfl, rfl⟩
  · intro d a d' _ replayed _ taken
    exact replayed_step taken replayed

end Parts

end Deployment

end Ruccoin
