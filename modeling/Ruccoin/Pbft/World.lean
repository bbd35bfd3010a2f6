import Ruccoin.Foundation.Transition
import Ruccoin.Pbft.Calls

/-!
# The replicas and the network

`n` handlers and every message they broadcast so far. `SendMessage` hands a message to each
node, so a broadcast is one entry of `sent` that may arrive at each of them; the schedule
decides when, how often and whether. Each call is one step. `history` records what every
step did, the newest first.

What the environment may do is a guard on the labels: no faulty replica, requests to the
primary only, at most one delivery of a message to each replica, and so on.
-/

namespace Ruccoin.Pbft

/-- One call: at which replica, the index of the message delivered if one was, and what the
call did. -/
structure Event where
  replica : Nat
  source : Option Nat
  effects : List Effect
deriving DecidableEq, Repr

structure World where
  replicas : Nat → PBFTHandler
  sent : List Message
  history : List Event

/-- The remote procedures bound in `bft_rpc.h` that take a message. -/
inductive Endpoint where
  | prepare
  | commit
  | reply
deriving DecidableEq, Repr

/-- The `switch` of `SendMessage`. -/
def MType.endpoint : MType → Option Endpoint
  | .preprepare => some .prepare
  | .prepare => some .commit
  | .commit => some .reply
  | .other _ => none

def Endpoint.call (master : Master) (m : Message) : Endpoint → Call
  | .prepare => .prepare master m
  | .commit => .commit m
  | .reply => .reply m

inductive Label where
  /-- A client calls `GetRequest` on replica `i`. -/
  | request (i : Nat) (req : Request)
  /-- The `k`-th broadcast arrives at replica `dst`. -/
  | deliver (k dst : Nat) (master : Master)
  /-- Replica `src` sends `dst` a message of its own making. -/
  | inject (src dst : Nat) (endpoint : Endpoint) (m : Message) (master : Master)

def Effect.broadcast : Effect → Option Message
  | .sendMessage m => some m
  | _ => none

/-- Replica `i` did `effect` in one of the events. -/
def Did (history : List Event) (i : Nat) (effect : Effect) : Prop :=
  ∃ e ∈ history, e.replica = i ∧ effect ∈ e.effects

instance (history : List Event) (i : Nat) (effect : Effect) :
    Decidable (Did history i effect) :=
  inferInstanceAs (Decidable (∃ e ∈ history, e.replica = i ∧ effect ∈ e.effects))

namespace World

def init (conf : Config) : World where
  replicas := PBFTHandler.init conf
  sent := []
  history := []

/-- The `k`-th broadcast has been delivered to replica `i`. -/
def Arrived (w : World) (k i : Nat) : Prop :=
  ∃ e ∈ w.history, e.replica = i ∧ e.source = some k

instance (w : World) (k i : Nat) : Decidable (w.Arrived k i) :=
  inferInstanceAs (Decidable (∃ e ∈ w.history, e.replica = i ∧ e.source = some k))

/-- The world after a call of replica `i` left `h` behind and did `effects`. -/
def record (w : World) (i : Nat) (source : Option Nat) (h : PBFTHandler)
    (effects : List Effect) : World where
  replicas := Function.update w.replicas i h
  sent := w.sent ++ effects.filterMap Effect.broadcast
  history := ⟨i, source, effects⟩ :: w.history

/-- The call a label stands for: at which replica, of which broadcast. -/
def resolve (w : World) : Label → Option (Nat × Option Nat × Call)
  | .request i req => some (i, none, .getRequest req)
  | .deliver k dst master =>
    (w.sent[k]?).bind fun m => m.mtype.endpoint.map fun endpoint =>
      (dst, some k, endpoint.call master m)
  | .inject _ dst endpoint m master => some (dst, none, endpoint.call master m)

/-- One call. A call that ends in a fault stops its process and is no step. -/
def step (c : Crypto) (conf : Config) (w : World) (a : Label) : Option World :=
  (w.resolve a).bind fun (i, source, call) =>
    if i < conf.n then
      match (w.replicas i).call c call with
      | .ok (h, effects) => some (w.record i source h effects)
      | .error _ => none
    else none

/-! ### Guards -/

/-- Every replica runs the handlers, and nobody else sends messages. -/
def FaultFree (_ : World) : Label → Prop
  | .inject .. => False
  | _ => True

/-- Requests go to the configured primary only. -/
def ToPrimary (conf : Config) (_ : World) : Label → Prop
  | .request i _ => i = conf.pbftPrimary
  | _ => True

/-- No message reaches a replica twice. -/
def Once (w : World) : Label → Prop
  | .deliver k dst _ => ¬w.Arrived k dst
  | _ => True

instance (w : World) (a : Label) : Decidable (w.FaultFree a) := by
  cases a <;> unfold FaultFree <;> infer_instance

instance (conf : Config) (w : World) (a : Label) : Decidable (w.ToPrimary conf a) := by
  cases a <;> unfold ToPrimary <;> infer_instance

instance (w : World) (a : Label) : Decidable (w.Once a) := by
  cases a <;> unfold Once <;> infer_instance

/-- A master that approves of every body. -/
def approving : Master := fun _ => .value true

/-! ### What a step can be -/

/-- A label's call, with the result it returned. -/
inductive Ran (c : Crypto) (w : World) :
    Label → Nat → Option Nat → PBFTHandler → List Effect → Prop where
  | request {i : Nat} {req : Request} {h : PBFTHandler} {effects : List Effect}
      (ran : (w.replicas i).preprepare c req = .ok (h, effects)) :
      Ran c w (.request i req) i none h effects
  | prepare {i k : Nat} {m : Message} {master : Master} {h : PBFTHandler}
      {effects : List Effect} (found : w.sent[k]? = some m) (type : m.mtype = .preprepare)
      (ran : (w.replicas i).prepare c master m = .ok (h, effects)) :
      Ran c w (.deliver k i master) i (some k) h effects
  | commit {i k : Nat} {m : Message} {master : Master} {h : PBFTHandler}
      {effects : List Effect} (found : w.sent[k]? = some m) (type : m.mtype = .prepare)
      (ran : (w.replicas i).commit c m = .ok (h, effects)) :
      Ran c w (.deliver k i master) i (some k) h effects
  | reply {i k : Nat} {m : Message} {master : Master} {h : PBFTHandler}
      {effects : List Effect} (found : w.sent[k]? = some m) (type : m.mtype = .commit)
      (ran : (w.replicas i).reply c m = .ok (h, effects)) :
      Ran c w (.deliver k i master) i (some k) h effects
  | inject {src i : Nat} {endpoint : Endpoint} {m : Message} {master : Master}
      {h : PBFTHandler} {effects : List Effect}
      (ran : (w.replicas i).call c (endpoint.call master m) = .ok (h, effects)) :
      Ran c w (.inject src i endpoint m master) i none h effects

variable {c : Crypto} {conf : Config} {w w' : World} {a : Label}

/-- A step runs the call its label stands for. -/
theorem step_resolve (taken : step c conf w a = some w') :
    ∃ i source call h effects, w.resolve a = some (i, source, call) ∧ i < conf.n ∧
      (w.replicas i).call c call = .ok (h, effects) ∧ w' = w.record i source h effects := by
  obtain ⟨⟨i, source, call⟩, resolved, taken⟩ := Option.bind_eq_some_iff.mp taken
  dsimp only at taken
  split at taken
  next bound =>
    split at taken
    next h effects ran =>
      cases taken
      exact ⟨i, source, call, h, effects, resolved, bound, ran, rfl⟩
    next =>
      -- the call ended in a fault
      cases taken
  next =>
    -- there is no such replica
    cases taken

/-- A message made up by a replica reaches its destination. -/
theorem step_inject {src dst : Nat} {endpoint : Endpoint} {m : Message} {master : Master}
    {h : PBFTHandler} {effects : List Effect} (bound : dst < conf.n)
    (ran : (w.replicas dst).call c (endpoint.call master m) = .ok (h, effects)) :
    step c conf w (.inject src dst endpoint m master) = some (w.record dst none h effects) := by
  simp only [step, resolve, Option.bind_some, if_pos bound, ran]

theorem step_cases (taken : step c conf w a = some w') :
    ∃ i source h effects, i < conf.n ∧ w' = w.record i source h effects ∧
      Ran c w a i source h effects := by
  obtain ⟨i, source, call, h, effects, resolved, bound, ran, rfl⟩ := step_resolve taken
  refine ⟨i, source, h, effects, bound, rfl, ?_⟩
  cases a with
  | request j req =>
    cases resolved
    exact .request ran
  | inject src dst endpoint m master =>
    cases resolved
    exact .inject ran
  | deliver k dst master =>
    obtain ⟨m, found, resolved⟩ := Option.bind_eq_some_iff.mp resolved
    obtain ⟨endpoint, route, resolved⟩ := Option.map_eq_some_iff.mp resolved
    cases resolved
    -- the procedure is named after the phase it starts, one later than the type
    cases type : m.mtype with
    | preprepare =>
      rw [type] at route
      cases route
      exact .prepare found type ran
    | prepare =>
      rw [type] at route
      cases route
      exact .commit found type ran
    | commit =>
      rw [type] at route
      cases route
      exact .reply found type ran
    | other code =>
      -- `SendMessage` hands such a message to nobody
      rw [type] at route
      cases route

theorem Ran.call {i : Nat} {source : Option Nat} {h : PBFTHandler} {effects : List Effect}
    (ran : Ran c w a i source h effects) :
    ∃ call, (w.replicas i).call c call = .ok (h, effects) := by
  cases ran with
  | request ran => exact ⟨.getRequest _, ran⟩
  | prepare _ _ ran => exact ⟨.prepare _ _, ran⟩
  | commit _ _ ran => exact ⟨.commit _, ran⟩
  | reply _ _ ran => exact ⟨.reply _, ran⟩
  | inject ran => exact ⟨_, ran⟩

/-! ### Recording -/

section Record

variable (w) (i : Nat) (source : Option Nat) (h : PBFTHandler) (effects : List Effect)

theorem record_replicas (j : Nat) :
    (w.record i source h effects).replicas j = if j = i then h else w.replicas j := by
  simp only [record, Function.update_apply]

@[simp] theorem record_self : (w.record i source h effects).replicas i = h := by
  rw [record_replicas, if_pos rfl]

theorem mem_record_sent (m : Message) :
    m ∈ (w.record i source h effects).sent ↔ m ∈ w.sent ∨ .sendMessage m ∈ effects := by
  simp only [record, List.mem_append, List.mem_filterMap]
  constructor
  · rintro (old | ⟨e, member, sent⟩)
    · exact Or.inl old
    · -- of the effects only `sendMessage` is a broadcast
      cases e <;> cases sent
      exact Or.inr member
  · rintro (old | member)
    · exact Or.inl old
    · exact Or.inr ⟨_, member, rfl⟩

theorem did_record (j : Nat) (e : Effect) :
    Did (w.record i source h effects).history j e ↔
      (i = j ∧ e ∈ effects) ∨ Did w.history j e := by
  simp only [Did, record, List.mem_cons, exists_eq_or_imp]

theorem arrived_record (k j : Nat) :
    (w.record i source h effects).Arrived k j ↔
      (i = j ∧ source = some k) ∨ w.Arrived k j := by
  simp only [Arrived, record, List.mem_cons, exists_eq_or_imp]

end Record

/-- The call of one replica leaves the others as they were. -/
theorem record_other {i j : Nat} {source : Option Nat} {h : PBFTHandler}
    {effects : List Effect} (other : i ≠ j) :
    (w.record i source h effects).replicas j = w.replicas j := by
  rw [record_replicas, if_neg other.symm]

theorem did_record_other {i j : Nat} {source : Option Nat} {h : PBFTHandler}
    {effects : List Effect} (other : i ≠ j) (e : Effect) :
    Did (w.record i source h effects).history j e ↔ Did w.history j e := by
  simp [did_record, other]

/-- A broadcast keeps its index. -/
theorem sent_record {i : Nat} {source : Option Nat} {h : PBFTHandler} {effects : List Effect}
    {k : Nat} {m : Message} (found : w.sent[k]? = some m) :
    (w.record i source h effects).sent[k]? = some m := by
  obtain ⟨bound, -⟩ := List.getElem?_eq_some_iff.mp found
  rw [record, List.getElem?_append_left bound]
  exact found

/-- A step is a call at a replica, or leaves it alone. -/
theorem replica_step (taken : step c conf w a = some w') (i : Nat) :
    w'.replicas i = w.replicas i ∨
      ∃ call effects, (w.replicas i).call c call = .ok (w'.replicas i, effects) := by
  obtain ⟨j, source, h, effects, -, rfl, ran⟩ := step_cases taken
  by_cases here : i = j
  · subst here
    rw [record_self]
    obtain ⟨call, ran⟩ := ran.call
    exact Or.inr ⟨call, effects, ran⟩
  · exact Or.inl (record_other fun equal => here equal.symm)

/-! ### Settings -/

/-- A step changes no settings. -/
theorem settings_step (taken : step c conf w a = some w') (i : Nat) :
    PBFTHandler.SameSettings (w.replicas i) (w'.replicas i) := by
  rcases replica_step taken i with same | ⟨call, effects, ran⟩
  · rw [same]
    exact .refl _
  · exact PBFTHandler.call_settings ran

/-- In every run the handlers keep the settings `Init` gave them. -/
theorem settings_kept {guard : World → Label → Prop}
    (reached : Transition.Reach (step c conf) guard (init conf) w) (i : Nat) :
    PBFTHandler.SameSettings (PBFTHandler.init conf i) (w.replicas i) := by
  apply reached.invariant (P := fun w => PBFTHandler.SameSettings (PBFTHandler.init conf i)
    (w.replicas i))
  · exact .refl _
  · intro w a w' _ kept _ taken
    exact kept.trans (settings_step taken i)

/-- Every proposal counts its quorums with the configured number of faults. -/
theorem proposal_f_kept {guard : World → Label → Prop}
    (reached : Transition.Reach (step c conf) guard (init conf) w) (i s : Nat) :
    ((w.replicas i).proposal s).f = conf.f := by
  rw [PBFTHandler.proposal_f]
  exact (settings_kept reached i).f

theorem sampleConfig_keys (n : Nat) : ∀ i < (sampleConfig n).n,
    sampleCrypto.KeyPair ((sampleConfig n).keys i).privKey ((sampleConfig n).keys i).addr := by
  intro i bound
  have found : (sampleConfig n).nodeAddr[i]? = some (sampleConfig n).nodeAddr[i] :=
    List.getElem?_eq_getElem bound
  rw [Config.keys, found]
  exact sampleCrypto_keyPair _

end World

end Ruccoin.Pbft
