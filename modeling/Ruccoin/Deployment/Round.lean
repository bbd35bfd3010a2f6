import Ruccoin.Deployment.Freshness
import Ruccoin.Pbft.Liveness
import Ruccoin.Pbft.Round

/-!
# A block by itself

A proposal that every coin node would accept is carried through when its messages come in and
nothing else does: the pre-prepare everywhere, then the Prepares, then the Commits. Whether
the coin nodes can commit it makes no difference to that.
-/

namespace Ruccoin.Deployment

open Pbft Coin Transition

variable {env : Env} {conf : Config} {node : CoinNode} {d d' d₀ : Deployment} {s : Nat}
  {b : String}

/-! ### Which deliveries are possible -/

/-- A coin node that is there and answers when it is asked takes part in the call. -/
theorem serveAll_answers {i : Nat} {effects : List Effect}
    (silent : ∀ s b, .commitAction s b ∉ effects)
    (answers : ∀ s b v, .checkProposal s b v ∈ effects →
      d.stopped i = none ∧ ∃ verdict, (d.nodes i).checkProposal env b = .ok verdict) :
    serveAll env i effects d = some d := by
  induction effects with
  | nil => rfl
  | cons e effects ih =>
    have rest := ih (fun s b member => silent s b (List.mem_cons_of_mem e member))
      fun s b v member => answers s b v (List.mem_cons_of_mem e member)
    have first : serve env i d e = some d := by
      cases e with
      | commitAction s b => exact absurd List.mem_cons_self (silent s b)
      | checkProposal s b v =>
        obtain ⟨running, verdict, answered⟩ := answers s b v List.mem_cons_self
        simp only [serve, running, answered]
      | numbered | sendMessage | setPrepared => rfl
    rw [serveAll, first]
    exact rest

theorem serveAll_commits {i : Nat} (running : d.stopped i = none) :
    ∃ d', serveAll env i [.commitAction s b] d = some d' := by
  simp only [serveAll, serve, running, Option.bind_some]
  exact ⟨_, rfl⟩

/-- A message can be delivered when the coin node is there for what it is asked. -/
theorem deliver_enabled
    (keys : ∀ i < conf.n, env.crypto.KeyPair (conf.keys i).privKey (conf.keys i).addr)
    (reached : Reach (step env conf) (Benign conf) (init conf node) d) {k i : Nat} {m : Message}
    (found : d.world.sent[k]? = some m) (bound : i < conf.n)
    (answers : m.mtype = .preprepare → d.stopped i = none ∧ ∃ verdict,
      (d.nodes i).checkProposal env ((d.world.replicas i).storeBody m).body = .ok verdict)
    (commits : m.mtype = .commit → d.world.Completes i m → d.stopped i = none) :
    ∃ d', step env conf d (.deliver k i) = some d' := by
  have world := world_reached (fun _ _ allowed => allowed) reached
  have valid := World.sent_valid world (List.mem_of_getElem? found)
  have settings := World.settings_kept world i
  have pair : env.crypto.KeyPair (d.world.replicas i).privKey (d.world.replicas i).pubKey := by
    rw [settings.privKey, settings.pubKey]
    exact keys i bound
  -- the PBFT process takes the call
  have advances : ∀ {endpoint : Endpoint} {h : PBFTHandler} {effects : List Effect},
      m.mtype.endpoint = some endpoint →
      (d.world.replicas i).call env.crypto (endpoint.call (master env (d.nodes i)) m) =
        .ok (h, effects) →
      step env conf d (.deliver k i) =
        serveAll env i effects { d with world := d.world.record i (some k) h effects } := by
    intro endpoint h effects route ran
    simp only [step, advance, World.step, World.resolve, found, route, Option.bind_some,
      Option.map_some, if_pos bound, ran]
    rfl
  have returns : ∀ endpoint : Endpoint, ∃ result, (d.world.replicas i).call env.crypto
      (endpoint.call (master env (d.nodes i)) m) = .ok result :=
    PBFTHandler.call_returns pair valid
  obtain ⟨-, -, ⟨type, -⟩ | ⟨type, -⟩ | ⟨type, -⟩⟩ :=
    World.sent_justified world (List.mem_of_getElem? found)
  · obtain ⟨⟨h, effects⟩, ran⟩ := returns .prepare
    rw [advances (by rw [type]; rfl) ran]
    refine ⟨_, serveAll_answers ?_ ?_⟩
    · intro s b reported
      obtain ⟨m', wrong, -⟩ := PBFTHandler.call_commitAction ran reported
      cases wrong
    · intro s b v reported
      obtain ⟨_, _, same, rfl, -, stored, -⟩ := PBFTHandler.call_checkProposal ran reported
      cases same
      rw [stored, ← PBFTHandler.storeBody_body]
      exact answers type
  · obtain ⟨⟨h, effects⟩, ran⟩ := returns .commit
    rw [advances (by rw [type]; rfl) ran]
    refine ⟨_, serveAll_answers ?_ ?_⟩
    · intro s b reported
      obtain ⟨m', wrong, -⟩ := PBFTHandler.call_commitAction ran reported
      cases wrong
    · intro s b v reported
      obtain ⟨_, _, wrong, -⟩ := PBFTHandler.call_checkProposal ran reported
      cases wrong
  · obtain ⟨⟨h, effects⟩, ran⟩ := returns .reply
    rw [advances (by rw [type]; rfl) ran]
    rcases PBFTHandler.reply_cases ran with
      ⟨-, rfl, -⟩ | ⟨p, same, rfl, ⟨-, rfl, -⟩ | ⟨quorum, unset, filled, -, rfl⟩⟩
    · exact ⟨_, rfl⟩
    · exact ⟨_, rfl⟩
    · exact serveAll_commits (commits type ⟨quorum, unset, filled⟩)

/-! ### What a step executes -/

/-- Since then the replica has executed nothing, and its coin node has the same balances and
chain, and is still there if it was. -/
structure UnmovedAt (i : Nat) (d₀ d : Deployment) : Prop where
  numbers : d.numbers i = d₀.numbers i
  state : (d.nodes i).toChainState = (d₀.nodes i).toChainState
  stopped : d.stopped i = d₀.stopped i

def Unmoved (d₀ d : Deployment) : Prop := ∀ i, UnmovedAt i d₀ d

theorem numbers_record {i : Nat} {source : Option Nat} {h : PBFTHandler} {effects : List Effect}
    (world : d'.world = d.world.record i source h effects) (j : Nat) :
    d'.numbers j = d.numbers j ++
      (if i = j then effects.filterMap World.Effect.execution else []).map Prod.fst := by
  unfold numbers
  rw [world, World.executions_record, List.map_append]

/-- A call that executes nothing moves nothing. -/
theorem unmoved_quiet {i : Nat} {source : Option Nat} {h : PBFTHandler} {effects : List Effect}
    (world : d'.world = d.world.record i source h effects)
    (silent : ∀ s b, .commitAction s b ∉ effects) (nodes : d'.nodes = d.nodes)
    (stopped : d'.stopped = d.stopped) : Unmoved d d' := by
  have nothing : effects.filterMap World.Effect.execution = [] := by
    rw [List.eq_nil_iff_forall_not_mem]
    rintro ⟨s, b⟩ member
    exact silent s b (World.mem_execution.mp member)
  intro j
  refine ⟨?_, ?_, ?_⟩
  · rw [numbers_record world, nothing, ite_self, List.map_nil, List.append_nil]
  · rw [nodes]
  · rw [stopped]

theorem UnmovedAt.refl (i : Nat) (d : Deployment) : UnmovedAt i d d := ⟨rfl, rfl, rfl⟩

theorem UnmovedAt.trans {i : Nat} {d₁ : Deployment} (first : UnmovedAt i d₀ d₁)
    (second : UnmovedAt i d₁ d) : UnmovedAt i d₀ d :=
  ⟨second.numbers.trans first.numbers, second.state.trans first.state,
    second.stopped.trans first.stopped⟩

/-- Replica `i` executes the number, for the first time, when a Commit for it arrives. -/
structure Executes (env : Env) (conf : Config) (a : Label) (i s : Nat) (b : String)
    (d d' : Deployment) : Prop where
  bound : i < conf.n
  source : ∃ k m, a = .deliver k i ∧ d.world.sent[k]? = some m ∧ m.mtype = .commit ∧ m.seq = s
  fresh : s ∉ d.numbers i
  numbers : d'.numbers i = d.numbers i ++ [s]
  others : ∀ j ≠ i, UnmovedAt j d d'
  running : d.stopped i = none
  node : d'.nodes i = ((d.nodes i).commitProposal env b).state
  stopped : d'.stopped i = ((d.nodes i).commitProposal env b).fault
  certified : World.Certified conf d.world.history s b

/-- A step moves nothing, or one replica executes one number. -/
theorem step_executes {a : Label}
    (reached : Reach (step env conf) (Benign conf) (init conf node) d) (allowed : d.Benign conf a)
    (taken : step env conf d a = some d') :
    Unmoved d d' ∨ ∃ i s b, Executes env conf a i s b d d' := by
  have worldReached := world_reached (fun _ _ allowed => allowed) reached
  rcases step_cases taken with
    ⟨j, tx, -, -, rfl⟩ | ⟨a', i, source, h, effects, called, stepped, ran, world, served⟩
  · exact Or.inl fun i => ⟨rfl, addTransx_chainState j tx i, rfl⟩
  · have benign := benign_call called allowed
    cases served with
    | quiet silent nodes stopped => exact Or.inl (unmoved_quiet world silent nodes stopped)
    | committed s b only running nodes stopped =>
      have reported : .commitAction s b ∈ effects := by
        rw [only]
        exact List.mem_singleton_self _
      -- only a Commit makes a replica execute
      obtain ⟨k, m, master', rfl, -, found, type, seq, -, -⟩ := ran.executes benign.1 reported
      obtain ⟨call, ran'⟩ := ran.call
      refine Or.inr ⟨i, s, b, World.deliver_bound stepped, ⟨k, m, ?_, found, type, seq⟩, ?_, ?_,
        ?_, running, ?_, ?_, ?_⟩
      · cases a with
        | addTransx => cases called
        | request => cases called
        | deliver k' i' =>
          cases called
          rfl
      · -- an executed number has its flag set, and a step sets it once
        intro member
        have already := (World.committed_iff_executed worldReached i s).mpr member
        rw [((PBFTHandler.call_flags ran' s).commitAction b reported).1] at already
        cases already
      · rw [numbers_record world, if_pos rfl, only]
        rfl
      · intro j other
        refine ⟨?_, ?_, ?_⟩
        · rw [numbers_record world, if_neg (Ne.symm other), List.map_nil, List.append_nil]
        · rw [nodes, Function.update_of_ne other]
        · rw [stopped, Function.update_of_ne other]
      · rw [nodes, Function.update_self]
      · rw [stopped, Function.update_self]
      · exact World.executes_certified worldReached benign stepped ran reported

/-! ### Deliveries for one number -/

/-- A message for the number, of one of the types, is delivered. -/
def Delivers (conf : Config) (s : Nat) (types : MType → Prop) (d : Deployment) (a : Label) :
    Prop :=
  d.Benign conf a ∧
    ∃ k i m, a = .deliver k i ∧ d.world.sent[k]? = some m ∧ m.seq = s ∧ types m.mtype

theorem Delivers.benign {types : MType → Prop}
    (reached : Reach (step env conf) (Benign conf) (init conf node) d)
    (later : Reach (step env conf) (Delivers conf s types) d d') :
    Reach (step env conf) (Benign conf) (init conf node) d' :=
  reached.trans (later.mono fun _ _ allowed => allowed.1)

theorem Delivers.widen {types : MType → Prop}
    (later : Reach (step env conf) (Delivers conf s types) d d') :
    Reach (step env conf) (Delivers conf s fun _ => True) d d' := by
  refine later.mono fun d a allowed => ?_
  obtain ⟨benign, k, i, m, rfl, found, seq, -⟩ := allowed
  exact ⟨benign, k, i, m, rfl, found, seq, trivial⟩

/-- What a delivery is for the PBFT processes. -/
theorem Delivers.cases {types : MType → Prop} {a : Label}
    (allowed : d.Delivers conf s types a) (taken : step env conf d a = some d') :
    ∃ i k m h effects, i < conf.n ∧ d.world.sent[k]? = some m ∧ m.seq = s ∧ types m.mtype ∧
      d.world.Benign conf (.deliver k i (master env (d.nodes i))) ∧
      World.step env.crypto conf d.world (.deliver k i (master env (d.nodes i))) =
        some (d.world.record i (some k) h effects) ∧
      World.Ran env.crypto d.world (.deliver k i (master env (d.nodes i))) i (some k) h effects ∧
      d'.world = d.world.record i (some k) h effects ∧ Served env d d' i effects := by
  obtain ⟨benign, k, i, m, rfl, found, seq, type⟩ := allowed
  rcases step_cases taken with
    ⟨j, tx, wrong, -, -⟩ | ⟨a', j, source, h, effects, called, stepped, ran, world, served⟩
  · cases wrong
  · have allowed := benign_call called benign
    cases called
    obtain ⟨rfl, rfl⟩ : j = i ∧ source = some k := by
      cases ran <;> exact ⟨rfl, rfl⟩
    exact ⟨j, k, m, h, effects, World.deliver_bound stepped, found, seq, type, allowed, stepped,
      ran, world, served⟩

/-- Messages for the number can be delivered until all of the given types have arrived, as
long as each delivery is possible and keeps what makes it so. -/
theorem phase (types : MType → Prop) {P : Deployment → Prop}
    (enabled : ∀ d k i m, Reach (step env conf) (Benign conf) (init conf node) d → P d →
      d.world.sent[k]? = some m → m.seq = s → types m.mtype → i < conf.n →
      ∃ d', step env conf d (.deliver k i) = some d')
    (kept : ∀ d a d', Reach (step env conf) (Benign conf) (init conf node) d → P d →
      d.Delivers conf s types a → step env conf d a = some d' → P d')
    (reached : Reach (step env conf) (Benign conf) (init conf node) d) (start : P d) :
    ∃ d', Reach (step env conf) (Delivers conf s types) d d' ∧ P d' ∧
      ∀ t, types t → ∀ i < conf.n, d'.world.AllArrived i s t := by
  have drained : ∃ d', Reach (step env conf) (Delivers conf s types) d d' ∧
      (Reach (step env conf) (Benign conf) (init conf node) d' ∧ P d') ∧
      ¬∃ k m, d'.world.sent[k]? = some m ∧ m.seq = s ∧ types m.mtype ∧
        ∃ i < conf.n, ¬d'.world.Arrived k i := by
    refine exhaust (fun d => d.world.callsLeft conf) ?_ ⟨reached, start⟩
    rintro d ⟨reached, here⟩ ⟨k, m, found, seq, type, i, bound, pending⟩
    obtain ⟨d₁, taken⟩ := enabled d k i m reached here found seq type bound
    have allowed : d.Delivers conf s types (.deliver k i) :=
      ⟨pending, k, i, m, rfl, found, seq, type⟩
    have reached₁ := reached.step allowed.1 taken
    refine ⟨_, d₁, allowed, taken, ⟨reached₁, kept d _ d₁ reached here allowed taken⟩, ?_⟩
    -- one call less is left
    obtain ⟨j, k', m', h, effects, -, -, -, -, -, -, ran, world, -⟩ := allowed.cases taken
    have world₁ := world_reached (fun _ _ allowed => allowed) reached₁
    rw [world] at world₁ ⊢
    exact World.callsLeft_delivered ran world₁
  obtain ⟨d', later, ⟨-, here⟩, done⟩ := drained
  push Not at done
  refine ⟨d', later, here, fun t type i bound k m found seq same => ?_⟩
  subst same
  exact done k m found seq type i bound

/-! ### Nothing is executed before the Commits come in -/

/-- No Commit for the number has arrived anywhere, and nothing has moved. -/
structure Uncommitted (s : Nat) (d₀ d : Deployment) : Prop where
  unmoved : Unmoved d₀ d
  unheard : ∀ k m i, d.world.sent[k]? = some m → m.mtype = .commit → m.seq = s →
    ¬d.world.Arrived k i

theorem uncommitted_step {types : MType → Prop} (others : ¬types .commit) {a : Label}
    (reached : Reach (step env conf) (Benign conf) (init conf node) d)
    (before : Uncommitted s d₀ d) (allowed : d.Delivers conf s types a)
    (taken : step env conf d a = some d') : Uncommitted s d₀ d' := by
  have worldReached := world_reached (fun _ _ allowed => allowed) reached
  constructor
  · rcases step_executes reached allowed.1 taken with same | ⟨i, s', b, executes⟩
    · exact fun j => (before.unmoved j).trans (same j)
    · -- only a Commit has a proposal executed
      obtain ⟨-, k, j, m, rfl, found, -, type⟩ := allowed
      obtain ⟨k', m', same, found', isCommit, -⟩ := executes.source
      cases same
      rw [found] at found'
      obtain rfl := Option.some.inj found'
      exact absurd (isCommit ▸ type) others
  · obtain ⟨i, k, m, h, effects, -, found, seq, type, -, -, ran, world, -⟩ :=
      allowed.cases taken
    intro k' m' j found' isCommit seq' arrived
    rw [world] at found' arrived
    rcases World.arrived_deliver worldReached found found' arrived with
      ⟨-, -, rfl⟩ | ⟨earlier, old⟩
    · exact absurd (isCommit ▸ type) others
    · exact before.unheard k' m' j earlier isCommit seq' old

/-! ### The three phases -/

/-- The primary has given the number to the body, and no message for the number has arrived. -/
structure Opened (conf : Config) (s : Nat) (b : String) (d : Deployment) : Prop where
  numbered : World.NumberedBody d.world.history conf.pbftPrimary s b
  nonempty : b ≠ ""
  unheard : ∀ k m i, d.world.sent[k]? = some m → m.seq = s → ¬d.world.Arrived k i
  fresh : ∀ i, s ∉ d.numbers i

/-- Every coin node is there and accepts the body. -/
structure Acceptable (env : Env) (conf : Config) (b : String) (d : Deployment) : Prop where
  accepted : ∀ i < conf.n, (d.nodes i).checkProposal env b = .ok true
  running : ∀ i < conf.n, d.stopped i = none

theorem Acceptable.unmoved (acceptable : Acceptable env conf b d₀) (same : Unmoved d₀ d) :
    Acceptable env conf b d where
  accepted i bound := by
    rw [(same i).state]
    exact acceptable.accepted i bound
  running i bound := by
    rw [(same i).stopped]
    exact acceptable.running i bound

theorem did_mono {a : Label} (taken : step env conf d a = some d') {i : Nat} {e : Effect}
    (did : Did d.world.history i e) : Did d'.world.history i e := by
  rcases step_cases taken with
    ⟨j, tx, -, -, rfl⟩ | ⟨a', j, source, h, effects, -, -, -, world, -⟩
  · exact did
  · rw [world]
    exact (World.did_record ..).mpr (Or.inr did)

/-- A number stays with its body. -/
theorem numbered_mono {a : Label} (taken : step env conf d a = some d')
    (numbered : World.NumberedBody d.world.history conf.pbftPrimary s b) :
    World.NumberedBody d'.world.history conf.pbftPrimary s b := by
  obtain ⟨req, did, body⟩ := numbered
  exact ⟨req, did_mono taken did, body⟩

/-- While the pre-prepares are delivered. -/
structure Announcing (conf : Config) (s : Nat) (b : String) (d₀ d : Deployment) : Prop
    extends Uncommitted s d₀ d where
  numbered : World.NumberedBody d.world.history conf.pbftPrimary s b
  approved : ∀ k m i, d.world.sent[k]? = some m → m.mtype = .preprepare → m.seq = s →
    d.world.Arrived k i → Did d.world.history i (.checkProposal s b true)

theorem announcing_step {a : Label} (acceptable : Acceptable env conf b d₀)
    (reached : Reach (step env conf) (Benign conf) (init conf node) d)
    (before : Announcing conf s b d₀ d) (allowed : d.Delivers conf s (· = .preprepare) a)
    (taken : step env conf d a = some d') : Announcing conf s b d₀ d' := by
  have worldReached := world_reached (fun _ _ allowed => allowed) reached
  refine ⟨uncommitted_step (by decide) reached before.toUncommitted allowed taken,
    numbered_mono taken before.numbered, fun k m j found type seq arrived => ?_⟩
  obtain ⟨i, k', m', h, effects, bound, found', seq', type', benign, -, ran, world, -⟩ :=
    allowed.cases taken
  rw [world] at found arrived ⊢
  rw [World.did_record]
  rcases World.arrived_deliver worldReached found' found arrived with
    ⟨rfl, rfl, rfl⟩ | ⟨earlier, old⟩
  · -- the pre-prepare just delivered, which the coin node accepts
    left
    have sent := List.mem_of_getElem? found'
    obtain ⟨master', same, runs⟩ := ran.delivery found'
    cases same
    have body := World.stored_body (i := i) worldReached before.numbered sent type seq
    rcases runs with ⟨-, ran⟩ | ⟨wrong, -⟩ | ⟨wrong, -⟩
    · rcases PBFTHandler.prepare_cases ran with
        ⟨-, -, invalid⟩ | ⟨p, same, rfl, -, stored, ⟨refused, -⟩ | ⟨-, sig, rfl⟩⟩
      · rw [World.sent_valid worldReached sent] at invalid
        cases invalid
      · rw [PBFTHandler.storeBody_body, ← stored] at body
        have accepted := (acceptable.unmoved before.unmoved).accepted i bound
        simp [PBFTHandler.checkProposal, master, body, accepted] at refused
      · rw [PBFTHandler.storeBody_body, ← stored] at body
        refine ⟨rfl, ?_⟩
        rw [body, seq]
        exact List.mem_cons_self
    · rw [type] at wrong
      cases wrong
    · rw [type] at wrong
      cases wrong
  · exact Or.inr (before.approved k m j earlier type seq old)

/-- While the Prepares are delivered. -/
structure Preparing (conf : Config) (s : Nat) (b : String) (d₀ d : Deployment) : Prop
    extends Uncommitted s d₀ d where
  numbered : World.NumberedBody d.world.history conf.pbftPrimary s b
  approved : ∀ i < conf.n, Did d.world.history i (.checkProposal s b true)

/-- While the Commits are delivered: each replica has executed the body or is as it was. -/
structure Committing (conf : Config) (s : Nat) (b : String) (d₀ d : Deployment) : Prop where
  numbered : World.NumberedBody d.world.history conf.pbftPrimary s b
  node : ∀ i, UnmovedAt i d₀ d ∨ d.numbers i = d₀.numbers i ++ [s]
  committed : ∀ i, ((d.world.replicas i).proposal s).Quorum .commit →
    ((d.world.replicas i).proposal s).committed = true
  known : ∀ i < conf.n, ((d.world.replicas i).proposal s).body ≠ ""
  prepared : ∀ i < conf.n, ((d.world.replicas i).proposal s).prepared = true

theorem preparing_step {a : Label}
    (reached : Reach (step env conf) (Benign conf) (init conf node) d)
    (before : Preparing conf s b d₀ d) (allowed : d.Delivers conf s (· = .prepare) a)
    (taken : step env conf d a = some d') : Preparing conf s b d₀ d' :=
  ⟨uncommitted_step (by decide) reached before.toUncommitted allowed taken,
    numbered_mono taken before.numbered, fun i bound => did_mono taken (before.approved i bound)⟩

theorem committing_step {a : Label}
    (reached : Reach (step env conf) (Benign conf) (init conf node) d)
    (before : Committing conf s b d₀ d) (allowed : d.Delivers conf s (· = .commit) a)
    (taken : step env conf d a = some d') : Committing conf s b d₀ d' := by
  have worldReached := world_reached (fun _ _ allowed => allowed) reached
  obtain ⟨i, k, m, h, effects, bound, found, seq, type, benign, stepped, ran, world, -⟩ :=
    allowed.cases taken
  obtain ⟨call, called⟩ := ran.call
  refine ⟨numbered_mono taken before.numbered, ?_, fun j quorum => ?_, fun j inside => ?_,
    fun j inside => ?_⟩
  · rcases step_executes reached allowed.1 taken with same | ⟨i', s', b', executes⟩
    · exact fun j => (before.node j).imp (·.trans (same j)) (same j).numbers.trans
    · obtain ⟨-, k₁, i₁, m₁, rfl, found₁, rfl, -⟩ := allowed
      obtain ⟨k', m', same, found', -, rfl⟩ := executes.source
      cases same
      rw [found₁] at found'
      obtain rfl := Option.some.inj found'
      intro j
      by_cases here : j = i'
      · -- executed now, so not before
        rw [here]
        rcases before.node i' with same | executed
        · exact Or.inr (by rw [executes.numbers, same.numbers])
        · exact absurd (by simp [executed]) executes.fresh
      · have same := executes.others j here
        exact (before.node j).imp (·.trans same) same.numbers.trans
  · rw [world] at quorum ⊢
    refine World.committed_step worldReached benign stepped ?_ (before.committed j) quorum
    intro k' m' master' same _ _ _
    cases same
    exact before.known _ bound
  · rw [world, World.record_replicas]
    split
    next here =>
      subst here
      rw [PBFTHandler.call_body_kept called (before.known j inside)]
      exact before.known j inside
    next => exact before.known j inside
  · rw [world, World.record_replicas]
    split
    next here =>
      subst here
      exact (PBFTHandler.call_flags called s).prepared.mpr (Or.inl (before.prepared j inside))
    next => exact before.prepared j inside

/-! ### The start of a round -/

/-- A request is given the next number and nothing is executed. -/
structure NumberedBy (conf : Config) (req : Request) (d d' : Deployment) : Prop where
  bound : conf.pbftPrimary < conf.n
  next : d'.world.numbers conf = d.world.numbers conf + 1
  numbered : Did d'.world.history conf.pbftPrimary (.numbered (d.world.numbers conf) req)
  unmoved : Unmoved d d'
  asked : ∀ i s b v, Did d'.world.history i (.checkProposal s b v) →
    Did d.world.history i (.checkProposal s b v)
  unheard : ∀ k i, d'.world.Arrived k i → d.world.Arrived k i
  sent : ∀ (k : Nat) (m : Message), d.world.sent[k]? = some m → d'.world.sent[k]? = some m

theorem request_numbers {req : Request}
    (taken : step env conf d (.request conf.pbftPrimary req) = some d') :
    NumberedBy conf req d d' := by
  obtain ⟨i, source, h, effects, stepped, ran, world, served⟩ := advance_cases taken
  obtain ⟨j, source', call, h', effects', resolved, bound, -, -⟩ := World.step_resolve stepped
  cases resolved
  cases ran with
  | request called =>
    have next := PBFTHandler.call_nextProposalSeq (a := .getRequest req) called
    obtain ⟨-, sm, -, -, -, -, rfl⟩ := PBFTHandler.preprepare_cases called
    refine ⟨bound, ?_, ?_, ?_, ?_, ?_, ?_⟩
    · rw [world, World.numbers, World.record_self]
      exact next
    · rw [world, World.did_record]
      exact Or.inl ⟨rfl, List.mem_cons_self⟩
    · -- all that the call does is broadcast the pre-prepare
      cases served with
      | quiet silent nodes stopped => exact unmoved_quiet world silent nodes stopped
      | committed s b only => cases only
    · intro i s b v did
      rw [world, World.did_record] at did
      simpa using did
    · intro k i arrived
      rw [world] at arrived
      rcases (World.arrived_record ..).mp arrived with ⟨-, wrong⟩ | old
      · cases wrong
      · exact old
    · intro k m found
      rw [world]
      exact World.sent_record found

/-- What has been executed has been numbered. -/
theorem executed_below (reached : Reach (step env conf) (Benign conf) (init conf node) d) {i : Nat}
    (executed : s ∈ d.numbers i) : s < d.world.numbers conf := by
  have worldReached := world_reached (fun _ _ allowed => allowed) reached
  obtain ⟨⟨s', b⟩, listed, rfl⟩ := List.mem_map.mp executed
  obtain ⟨req, did, -⟩ := World.executed_primary (World.Benign.trusted worldReached)
    (World.mem_executions.mp listed)
  exact (World.numbering worldReached conf.pbftPrimary).below s' req did

/-- A number is opened by the request that it is given to. -/
theorem opened {req : Request} (reached : Reach (step env conf) (Benign conf) (init conf node) d)
    (numbers : NumberedBy conf req d d') (nonempty : req.body ≠ "") :
    Opened conf (d.world.numbers conf) req.body d' := by
  have worldReached := world_reached (fun _ _ allowed => allowed) reached
  refine ⟨⟨req, numbers.numbered, rfl⟩, nonempty, fun k m i found seq arrived => ?_, fun i => ?_⟩
  · -- what had arrived before has a lower number
    obtain ⟨m', earlier⟩ := World.arrived_found worldReached (numbers.unheard k i arrived)
    obtain rfl := Option.some.inj ((numbers.sent k m' earlier).symm.trans found)
    obtain ⟨req', did⟩ := World.sent_numbered worldReached (List.mem_of_getElem? earlier)
    have below := (World.numbering worldReached conf.pbftPrimary).below _ req' did
    rw [seq] at below
    exact absurd below (lt_irrefl _)
  · rw [(numbers.unmoved i).numbers]
    exact fun executed => absurd (executed_below reached executed) (lt_irrefl _)

/-! ### The whole round -/

section Carried

variable (keys : ∀ i < conf.n, env.crypto.KeyPair (conf.keys i).privKey (conf.keys i).addr)

include keys

theorem announcing_enabled (acceptable : Acceptable env conf b d₀)
    (reached : Reach (step env conf) (Benign conf) (init conf node) d)
    (before : Announcing conf s b d₀ d) {k i : Nat} {m : Message}
    (found : d.world.sent[k]? = some m) (seq : m.seq = s) (type : m.mtype = .preprepare)
    (bound : i < conf.n) : ∃ d', step env conf d (.deliver k i) = some d' := by
  have worldReached := world_reached (fun _ _ allowed => allowed) reached
  have body := World.stored_body (i := i) worldReached before.numbered
    (List.mem_of_getElem? found) type seq
  have acceptable' := acceptable.unmoved before.unmoved
  refine deliver_enabled keys reached found bound
    (fun _ => ⟨acceptable'.running i bound, true, ?_⟩) fun wrong => ?_
  · rw [body]
    exact acceptable'.accepted i bound
  · rw [type] at wrong
    cases wrong

theorem preparing_enabled (reached : Reach (step env conf) (Benign conf) (init conf node) d)
    {k i : Nat} {m : Message} (found : d.world.sent[k]? = some m) (type : m.mtype = .prepare)
    (bound : i < conf.n) : ∃ d', step env conf d (.deliver k i) = some d' := by
  refine deliver_enabled keys reached found bound (fun wrong => ?_) fun wrong => ?_
  · rw [type] at wrong
    cases wrong
  · rw [type] at wrong
    cases wrong

theorem committing_enabled (acceptable : Acceptable env conf b d₀)
    (reached : Reach (step env conf) (Benign conf) (init conf node) d)
    (before : Committing conf s b d₀ d) {k i : Nat} {m : Message}
    (found : d.world.sent[k]? = some m) (seq : m.seq = s) (type : m.mtype = .commit)
    (bound : i < conf.n) : ∃ d', step env conf d (.deliver k i) = some d' := by
  have worldReached := world_reached (fun _ _ allowed => allowed) reached
  refine deliver_enabled keys reached found bound (fun wrong => ?_) fun _ completes => ?_
  · rw [type] at wrong
    cases wrong
  · obtain ⟨-, unset, -⟩ := completes
    rcases before.node i with same | executed
    · rw [same.stopped]
      exact acceptable.running i bound
    · -- it was committed before
      have member : s ∈ d.numbers i := by simp [executed]
      have already := (World.committed_iff_executed worldReached i s).mpr member
      rw [← seq] at already
      simp [already] at unset

/-- After the pre-prepares every replica has approved of the body. -/
theorem announcing_phase (acceptable : Acceptable env conf b d₀)
    (reached : Reach (step env conf) (Benign conf) (init conf node) d₀)
    (opened : Opened conf s b d₀) :
    ∃ d, Reach (step env conf) (Delivers conf s (· = .preprepare)) d₀ d ∧
      Preparing conf s b d₀ d := by
  have start : Announcing conf s b d₀ d₀ :=
    ⟨⟨fun i => .refl i d₀, fun k m i found _ => opened.unheard k m i found⟩, opened.numbered,
      fun k m i found _ seq arrived => absurd arrived (opened.unheard k m i found seq)⟩
  obtain ⟨d, later, done, all⟩ := phase (· = .preprepare)
    (fun d k i m reached before found seq type bound =>
      announcing_enabled keys acceptable reached before found seq type bound)
    (fun d a d' reached before allowed taken =>
      announcing_step acceptable reached before allowed taken) reached start
  refine ⟨d, later, done.toUncommitted, done.numbered, fun i bound => ?_⟩
  obtain ⟨req, did, -⟩ := done.numbered
  have worldReached := world_reached (fun _ _ allowed => allowed) (Delivers.benign reached later)
  obtain ⟨m, sent, type, seq, -⟩ := World.numbered_sent worldReached did
  obtain ⟨k, inside, found⟩ := List.getElem_of_mem sent
  have found : d.world.sent[k]? = some m := List.getElem?_eq_some_iff.mpr ⟨inside, found⟩
  exact done.approved k m i found type seq (all _ rfl i bound k m found seq type)

/-- After the Prepares every replica is prepared. -/
theorem preparing_phase (reached : Reach (step env conf) (Benign conf) (init conf node) d)
    (nonempty : 1 ≤ conf.n) (body : b ≠ "") (start : Preparing conf s b d₀ d) :
    ∃ d', Reach (step env conf) (Delivers conf s (· = .prepare)) d d' ∧
      Committing conf s b d₀ d' := by
  obtain ⟨d', later, done, all⟩ := phase (· = .prepare)
    (fun d k i m reached before found seq type bound =>
      preparing_enabled keys reached found type bound)
    (fun d a d' reached before allowed taken => preparing_step reached before allowed taken)
    reached start
  have worldReached := world_reached (fun _ _ allowed => allowed) (Delivers.benign reached later)
  refine ⟨d', later, done.numbered, fun i => Or.inl (done.unmoved i), fun i quorum => ?_,
    fun i bound => ?_, fun i bound => ?_⟩
  · -- no Commit has been heard
    obtain ⟨digest, voters, large, voted⟩ := World.quorum_backed worldReached quorum
    obtain ⟨v, member⟩ : voters.Nonempty := Finset.card_pos.mp (by omega)
    obtain ⟨k, m, found, type, seq, -, -, arrived⟩ := voted v member
    exact absurd arrived (done.unheard k m i found type seq)
  · rw [World.checked_body worldReached (done.approved i bound) body]
    exact body
  · exact World.prepared_of_arrived worldReached done.numbered nonempty done.approved
      (all _ rfl i bound)

/-- After the Commits every replica has executed the body. -/
theorem committing_phase (acceptable : Acceptable env conf b d₀)
    (reached : Reach (step env conf) (Benign conf) (init conf node) d) (nonempty : 1 ≤ conf.n)
    (fresh : ∀ i, s ∉ d₀.numbers i) (start : Committing conf s b d₀ d) :
    ∃ d', Reach (step env conf) (Delivers conf s (· = .commit)) d d' ∧
      ∀ i < conf.n, d'.numbers i = d₀.numbers i ++ [s] := by
  obtain ⟨d', later, done, all⟩ := phase (· = .commit)
    (fun d k i m reached before found seq type bound =>
      committing_enabled keys acceptable reached before found seq type bound)
    (fun d a d' reached before allowed taken => committing_step reached before allowed taken)
    reached start
  refine ⟨d', later, fun i bound => ?_⟩
  have worldReached := world_reached (fun _ _ allowed => allowed) (Delivers.benign reached later)
  have quorum := World.quorum_of_arrived worldReached nonempty done.prepared (all _ rfl i bound)
  have member : s ∈ d'.numbers i :=
    (World.committed_iff_executed worldReached i s).mp (done.committed i quorum)
  rcases done.node i with same | executed
  · rw [same.numbers] at member
    exact absurd member (fresh i)
  · exact executed

/-- An acceptable proposal is carried through by the messages for its number alone. -/
theorem round (acceptable : Acceptable env conf b d₀)
    (reached : Reach (step env conf) (Benign conf) (init conf node) d₀)
    (nonempty : 1 ≤ conf.n) (opened : Opened conf s b d₀) :
    ∃ d, Reach (step env conf) (Delivers conf s fun _ => True) d₀ d ∧
      ∀ i < conf.n, d.numbers i = d₀.numbers i ++ [s] := by
  obtain ⟨d₁, first, announced⟩ := announcing_phase keys acceptable reached opened
  have reached₁ := Delivers.benign reached first
  obtain ⟨d₂, second, prepared⟩ :=
    preparing_phase keys reached₁ nonempty opened.nonempty announced
  have reached₂ := Delivers.benign reached₁ second
  obtain ⟨d₃, third, executed⟩ :=
    committing_phase keys acceptable reached₂ nonempty opened.fresh prepared
  exact ⟨d₃, ((Delivers.widen first).trans (Delivers.widen second)).trans (Delivers.widen third),
    executed⟩

end Carried

end Ruccoin.Deployment
