import Ruccoin.Coin.Proposing
import Ruccoin.Foundation.Threads

/-!
# Calls while a block is packed

The loop of `Run` has a thread of its own, and the calls of other processes are served on
several more. `Run` tests the size of the pool before `PackBlock` takes `pool_mutex_` and
asserts it once more. What is done under the mutex is one step here, and of the rest each
test of the pool, each insertion and each access to the database is one. Of the calls,
`AddTransx` and `CommitProposal` change the pool.
-/

namespace Ruccoin.Coin

open Threads

/-! ### The size of the pool -/

namespace TxPool

/-- The elements that a list of transactions takes out. -/
def listed (pool : TxPool) (txs : List TX) : List TX :=
  pool.txs.filter fun u => ∃ tx ∈ txs, ¬u.before tx ∧ ¬tx.before u

/-- The place of a transaction is not taken. -/
def Free (pool : TxPool) (tx : TX) : Prop := ∀ u ∈ pool.txs, u.before tx ∨ tx.before u

instance (pool : TxPool) (tx : TX) : Decidable (pool.Free tx) :=
  inferInstanceAs (Decidable (∀ u ∈ pool.txs, _))

variable {pool : TxPool} {tx : TX}

theorem insert_of_taken (taken : ¬pool.Free tx) : pool.insert tx = pool := by
  unfold insert
  rw [if_pos]
  simpa [Free] using taken

theorem length_insert (free : pool.Free tx) :
    (pool.insert tx).txs.length = pool.txs.length + 1 := by
  have untaken : ¬∃ u ∈ pool.txs, ¬u.before tx ∧ ¬tx.before u := by
    rintro ⟨u, member, notBefore, notAfter⟩
    exact (free u member).elim notBefore notAfter
  -- every element is on one side of the new one, and none on both
  have sides : pool.txs.filter (tx.before ·) = pool.txs.filter fun u => !decide (u.before tx) := by
    apply List.filter_congr
    intro u member
    by_cases first : u.before tx
    · have notAfter : ¬tx.before u := fun later =>
        TX.not_before_self u (TX.before_trans first later)
      simp [first, notAfter]
    · have after := (free u member).resolve_left first
      simp [first, after]
  unfold insert
  rw [if_neg untaken, List.length_append, List.length_cons, sides]
  have whole := List.length_eq_length_filter_add (l := pool.txs) fun u => decide (u.before tx)
  omega

theorem foldl_erase_txs (pool : TxPool) (txs : List TX) :
    (txs.foldl erase pool).txs =
      pool.txs.filter fun u => ∀ tx ∈ txs, u.before tx ∨ tx.before u := by
  induction txs generalizing pool with
  | nil => simp
  | cons tx txs ih =>
    rw [List.foldl_cons, ih, erase, List.filter_filter]
    apply List.filter_congr
    intro u _
    simp [Bool.and_comm]

theorem length_foldl_erase (pool : TxPool) (txs : List TX) :
    (txs.foldl erase pool).txs.length + (pool.listed txs).length = pool.txs.length := by
  have others : pool.listed txs =
      pool.txs.filter fun u => !decide (∀ tx ∈ txs, u.before tx ∨ tx.before u) := by
    apply List.filter_congr
    intro u _
    rw [← decide_not]
    apply decide_eq_decide.mpr
    simp only [not_forall, not_or, exists_prop]
  rw [foldl_erase_txs, others]
  exact (List.length_eq_length_filter_add _).symm

end TxPool

/-! ### The process -/

/-- How the process ended. -/
inductive Ended where
  /-- `assert(TryPublishCond())` in `PackBlock` failed. -/
  | tryPublishCond
  /-- Another assertion failed, or an exception left `Run` or a call. -/
  | fault (e : Fault)
  /-- The call of `GetRequest` in `BlockProposal` did not return. -/
  | rpcError
deriving DecidableEq

/-- What the threads share. -/
structure SharedNode where
  node : ProposingNode
  ended : Option Ended
  /-- How many elements have got into the pool and out of it so far. -/
  added : Nat
  removed : Nat

namespace SharedNode

def withBalances (σ : SharedNode) (s : Store) : SharedNode :=
  { σ with node := { σ.node with balances := s } }

def put (σ : SharedNode) (a text : String) : SharedNode :=
  σ.withBalances (σ.node.balances.insert a text)

def end_ (σ : SharedNode) (ended : Ended) : SharedNode := { σ with ended := some ended }

/-- A failed assertion ends the process, and so does an exception: nothing above a call
catches it. -/
def raise (σ : SharedNode) (e : Fault) : SharedNode := σ.end_ (.fault e)

/-- `tx_pool_.insert`. -/
def insert (σ : SharedNode) (tx : TX) : SharedNode :=
  { σ with
    node := { σ.node with txPool := σ.node.txPool.insert tx }
    added := σ.added + if σ.node.txPool.Free tx then 1 else 0 }

def pushHash (σ : SharedNode) (hash : String) : SharedNode :=
  { σ with
    node := { σ.node with
      blockChainHash := σ.node.blockChainHash ++ [hash]
      rooted := List.append_ne_nil_of_left_ne_nil σ.node.rooted _ } }

def removeTxFromPool (σ : SharedNode) (txs : List TX) : SharedNode :=
  { σ with
    node := { σ.node with txPool := txs.foldl TxPool.erase σ.node.txPool }
    removed := σ.removed + (σ.node.txPool.listed txs).length }

def writeBlock (env : Env) (σ : SharedNode) (block : Block) : SharedNode :=
  { σ with node := { σ.node with blockchain := Coin.writeBlock env σ.node.blockchain block } }

end SharedNode

/-- The calls that change the pool. -/
inductive PoolCall where
  | addTransx (tx : TX)
  | commitProposal (p : String)

/-- What a thread that serves a call does next. -/
inductive PoolPoint where
  -- `AddTransx`
  | insert (tx : TX)
  -- `CommitProposal`
  | parse (p : String)
  -- in `UpdateBlance`, with the transactions after the one it is at
  | getFrom (block : Block) (tx : TX) (txs : List TX)
  | getTo (block : Block) (tx : TX) (txs : List TX) (fromBalance : String)
  | putFrom (block : Block) (tx : TX) (txs : List TX) (fromBalance toBalance : String)
  | putTo (block : Block) (tx : TX) (txs : List TX) (toBalance : String)
  -- and after it
  | pushHash (block : Block)
  | removeTxFromPool (block : Block)
  | writeBlock (block : Block)

namespace PoolPoint

/-- `UpdateBlance` before the rest of the transactions. -/
def updating (block : Block) : List TX → PoolPoint
  | [] => .pushHash block
  | tx :: txs => .getFrom block tx txs

/-- `AddTransx` has checked the signature before its first step. -/
def enter (env : Env) : PoolCall → Option PoolPoint
  | .addTransx tx =>
    if tx.validateSignature env.crypto env.amounts then some (.insert tx) else none
  | .commitProposal p => some (.parse p)

abbrev Step := Threads.Action Empty SharedNode PoolPoint

def go (σ : SharedNode) (next : PoolPoint) : Option Step := some ⟨.keep, σ, some next⟩

def leave (σ : SharedNode) : Option Step := some ⟨.keep, σ, none⟩

def act (env : Env) (σ : SharedNode) : PoolPoint → Option Step
  | .insert tx => leave (σ.insert tx)
  | .parse p =>
    match env.parseBlock p with
    | .ok block => go σ (updating block block.transxList)
    | .error e => leave (σ.raise e)
  | .getFrom block tx txs =>
    match σ.node.balances.lookup tx.fromAddr with
    | some fromBalance => go σ (.getTo block tx txs fromBalance)
    | none => leave (σ.raise .assertFailed)
  | .getTo block tx txs fromBalance =>
    match σ.node.balances.lookup tx.toAddr with
    | some toBalance => go σ (.putFrom block tx txs fromBalance toBalance)
    | none => leave (σ.raise .assertFailed)
  | .putFrom block tx txs fromBalance toBalance =>
    match env.amounts.stod fromBalance with
    | some value =>
      go (σ.put tx.fromAddr (env.amounts.toString (value - tx.value)))
        (.putTo block tx txs toBalance)
    | none => leave (σ.raise .stodFailed)
  | .putTo block tx txs toBalance =>
    match env.amounts.stod toBalance with
    | some value =>
      go (σ.put tx.toAddr (env.amounts.toString (value + tx.value))) (updating block txs)
    | none => leave (σ.raise .stodFailed)
  | .pushHash block => go (σ.pushHash block.header.hash) (.removeTxFromPool block)
  | .removeTxFromPool block => go (σ.removeTxFromPool block.transxList) (.writeBlock block)
  | .writeBlock block => leave (σ.writeBlock env block)

end PoolPoint

/-- What the threads that serve calls run. -/
def poolProgram (env : Env) : Program Empty SharedNode PoolPoint PoolCall where
  enter := PoolPoint.enter env
  act := PoolPoint.act env

/-- What was the case when the test of `Run` came out true. -/
structure Seen where
  size : Nat
  added : Nat
  removed : Nat

/-- Where `Run` is in its loop. -/
inductive RunPoint where
  | test
  | pack (seen : Seen)
  | propose

def RunPoint.seen : RunPoint → Option Seen
  | .pack seen => some seen
  | _ => none

/-- What a step of `Run` meets with: the two random texts, and whether the call of
`GetRequest` returns. -/
structure Draw where
  random : String
  merkle : String
  returns : Bool

/-- `Run`, and the threads beside it. -/
structure NodeProcess where
  run : RunPoint
  calls : Threads.State Empty SharedNode PoolPoint

namespace NodeProcess

open Transition

inductive Label where
  | run (draw : Draw)
  | call (move : Move PoolCall)

def start (node : ProposingNode) : NodeProcess where
  run := .test
  calls := idle ⟨node, none, 0, 0⟩

def shared (st : NodeProcess) : SharedNode := st.calls.shared

def withRun (st : NodeProcess) (run : RunPoint) (σ : SharedNode) : NodeProcess where
  run := run
  calls := { st.calls with shared := σ }

/-- A step of `Run`: its test, `PackBlock` under the mutex, or `BlockProposal`. -/
def runStep (env : Env) (draw : Draw) (st : NodeProcess) : NodeProcess :=
  let σ := st.shared
  match st.run with
  | .test =>
    if σ.node.tryPublishCond && σ.node.id == σ.node.bftPrimaryId then
      st.withRun (.pack ⟨σ.node.txPool.txs.length, σ.added, σ.removed⟩) σ
    else st
  | .pack _ =>
    let packed := σ.node.packBlock env draw.random draw.merkle
    match packed.fault with
    | none => st.withRun .propose { σ with node := { σ.node with toPackingNode := packed.state } }
    | some e =>
      -- the assertion comes first
      st.withRun .test (σ.end_ (if σ.node.tryPublishCond then .fault e else .tryPublishCond))
  | .propose => st.withRun .test (if draw.returns then σ else σ.end_ .rpcError)

def step (env : Env) (st : NodeProcess) (a : Label) : Option NodeProcess :=
  if st.shared.ended.isSome then none
  else match a with
    | .run draw => some (runStep env draw st)
    | .call move => (Threads.step (poolProgram env) st.calls move).map fun calls =>
      { st with calls := calls }

/-- The assertion of `PackBlock` has not failed. -/
def Asserted (st : NodeProcess) : Prop := st.shared.ended ≠ some .tryPublishCond

/-- What has been taken out of the pool since the test is no more than what the pool had
above the minimum at the test, and what has been added since. -/
def Covered (st : NodeProcess) : Label → Prop
  | .run _ => ∀ seen ∈ st.run.seen,
      st.shared.node.minTxPerBlock + (st.shared.removed - seen.removed) ≤
        seen.size + (st.shared.added - seen.added)
  | .call _ => True

instance (st : NodeProcess) : ∀ a, Decidable (Covered st a)
  | .run _ => inferInstanceAs (Decidable (∀ seen ∈ st.run.seen,
      st.shared.node.minTxPerBlock + (st.shared.removed - seen.removed) ≤
        seen.size + (st.shared.added - seen.added)))
  | .call _ => inferInstanceAs (Decidable True)

end NodeProcess

/-! ### One call by itself -/

section Alone

open PoolPoint

variable {env : Env} {σ : SharedNode}

theorem addTransx_alone (env : Env) (σ : SharedNode) (tx : TX) :
    ∃ σ', Solo (poolProgram env) (σ, (poolProgram env).enter (.addTransx tx)) (σ', none) ∧
      σ'.node.toCoinNode = (σ.node.addTransx env tx).1 ∧ σ'.ended = σ.ended := by
  unfold CoinNode.addTransx
  cases valid : tx.validateSignature env.crypto env.amounts with
  | false =>
    have entered : (poolProgram env).enter (.addTransx tx) = none := if_neg (by simp [valid])
    rw [entered]
    exact ⟨σ, .refl, rfl, rfl⟩
  | true =>
    have entered : (poolProgram env).enter (.addTransx tx) = some (.insert tx) := if_pos valid
    rw [entered]
    exact ⟨σ.insert tx, .head rfl .refl, rfl, rfl⟩

theorem alone_go {p next : PoolPoint} {σ' : SharedNode} {there : SharedNode × Option PoolPoint}
    (acts : p.act env σ = PoolPoint.go σ' next)
    (rest : Solo (poolProgram env) (σ', some next) there) :
    Solo (poolProgram env) (σ, some p) there :=
  .head acts rest

theorem alone_leave {p : PoolPoint} {σ' : SharedNode} (acts : p.act env σ = PoolPoint.leave σ') :
    Solo (poolProgram env) (σ, some p) (σ', none) :=
  .head acts .refl

/-- Where a thread is after a computation on the balances that may have stopped. -/
def settled (σ : SharedNode) (o : Outcome Store Fault) (next : PoolPoint) :
    SharedNode × Option PoolPoint :=
  match o.fault with
  | none => (σ.withBalances o.state, some next)
  | some e => ((σ.withBalances o.state).raise e, none)

/-- The four accesses of one transaction. -/
theorem updateTx_alone (env : Env) (σ : SharedNode) (block : Block) (tx : TX)
    (txs : List TX) :
    Solo (poolProgram env) (σ, some (.getFrom block tx txs))
      (settled σ (updateTx env.amounts σ.node.balances tx) (.updating block txs)) := by
  unfold updateTx
  -- both are read before either is written, as in `updateTx`
  cases foundFrom : σ.node.balances.lookup tx.fromAddr with
  | none => exact alone_leave (by simp only [act, foundFrom]; rfl)
  | some fromBalance =>
    have acts : (getFrom block tx txs).act env σ = go σ (.getTo block tx txs fromBalance) := by
      simp only [act, foundFrom]
    apply alone_go acts
    cases foundTo : σ.node.balances.lookup tx.toAddr with
    | none => exact alone_leave (by simp only [act, foundTo]; rfl)
    | some toBalance =>
      have acts : (getTo block tx txs fromBalance).act env σ =
          go σ (.putFrom block tx txs fromBalance toBalance) := by simp only [act, foundTo]
      apply alone_go acts
      cases readFrom : env.amounts.stod fromBalance with
      | none =>
        simp only [readFrom]
        exact alone_leave (by simp only [act, readFrom]; rfl)
      | some fromValue =>
        have acts : (putFrom block tx txs fromBalance toBalance).act env σ =
            go (σ.put tx.fromAddr (env.amounts.toString (fromValue - tx.value)))
              (.putTo block tx txs toBalance) := by simp only [act, readFrom]
        apply alone_go acts
        simp only [readFrom]
        cases readTo : env.amounts.stod toBalance with
        | none => exact alone_leave (by simp only [act, readTo]; rfl)
        | some toValue => exact alone_go (by simp only [act, readTo]; rfl) .refl

/-- `UpdateBlance` alone gets as far as the model of it in one piece. -/
theorem updateBlance_alone (env : Env) (σ : SharedNode) (block : Block) (txs : List TX) :
    Solo (poolProgram env) (σ, some (.updating block txs))
      (settled σ (updateBlance env.amounts σ.node.balances txs) (.pushHash block)) := by
  induction txs generalizing σ with
  | nil => exact .refl
  | cons tx txs ih =>
    have first := updateTx_alone env σ block tx txs
    rw [updateBlance_cons]
    cases fault : (updateTx env.amounts σ.node.balances tx).fault with
    | some e =>
      -- the rest of the list is not reached
      rw [Outcome.andThen_of_some fault]
      unfold settled at first ⊢
      rw [fault] at first ⊢
      exact first
    | none =>
      rw [Outcome.andThen_of_none fault]
      have rest := ih (σ.withBalances (updateTx env.amounts σ.node.balances tx).state)
      unfold settled at first
      rw [fault] at first
      exact first.trans rest

/-- A `CommitProposal` call that runs alone does what it does as one step. -/
theorem commitProposal_alone (env : Env) (σ : SharedNode) (p : String) :
    let outcome := σ.node.commitProposal env p
    ∃ σ', Solo (poolProgram env) (σ, (poolProgram env).enter (.commitProposal p)) (σ', none) ∧
      σ'.node.toCoinNode = outcome.state ∧
      σ'.ended = match outcome.fault with
        | some e => some (.fault e)
        | none => σ.ended := by
  have entered : (poolProgram env).enter (.commitProposal p) = some (.parse p) := rfl
  unfold CoinNode.commitProposal
  rw [entered]
  cases parsed : env.parseBlock p with
  | error e =>
    have acts : (parse p).act env σ = leave (σ.raise e) := by simp only [act, parsed]
    exact ⟨σ.raise e, alone_leave acts, rfl, rfl⟩
  | ok block =>
    have acts : (parse p).act env σ = go σ (.updating block block.transxList) := by
      simp only [act, parsed]
    have updates := updateBlance_alone env σ block block.transxList
    dsimp only
    unfold settled at updates
    cases fault : (updateBlance env.amounts σ.node.balances block.transxList).fault with
    | some e =>
      rw [fault] at updates
      exact ⟨_, alone_go acts updates, rfl, rfl⟩
    | none =>
      rw [fault] at updates
      -- the hash, the pool and the chain, one access each
      have after : ∀ σ : SharedNode, Solo (poolProgram env) (σ, some (.pushHash block))
          (((σ.pushHash block.header.hash).removeTxFromPool block.transxList).writeBlock env block,
            none) :=
        fun _ => alone_go rfl (alone_go rfl (alone_leave rfl))
      exact ⟨_, alone_go acts (updates.trans (after _)), rfl, rfl⟩

end Alone

theorem packBlock_of_fault {node : PackingNode} {random merkle : String} {e : Fault}
    (stopped : (node.packBlock env random merkle).fault = some e) :
    (node.packBlock env random merkle).state = node := by
  unfold PackingNode.packBlock at stopped ⊢
  split at stopped
  next small => rw [if_pos small]
  next enough =>
    rw [if_neg enough]
    split at stopped
    · cases stopped
    · rfl
    · cases stopped

/-- When nothing comes between, the test of `Run` and `PackBlock` are one turn of its loop. -/
theorem turn_alone {st : NodeProcess} {draw : Draw} (place : st.run = .test) :
    let tested := st.runStep env draw
    let packed := if tested.run.seen.isSome then tested.runStep env draw else tested
    packed.shared.node = (st.shared.node.turn env draw.random draw.merkle).1.state := by
  intro tested packed
  by_cases proposes : (st.shared.node.tryPublishCond &&
      st.shared.node.id == st.shared.node.bftPrimaryId) = true
  · have after : tested = st.withRun (.pack ⟨st.shared.node.txPool.txs.length, st.shared.added,
        st.shared.removed⟩) st.shared := by
      simp only [tested, NodeProcess.runStep, place, if_pos proposes]
    have paused : packed = tested.runStep env draw := by
      simp only [packed, after, NodeProcess.withRun, RunPoint.seen, Option.isSome_some, if_true]
    rw [paused, after, ProposingNode.turn, if_pos proposes]
    unfold NodeProcess.runStep
    dsimp only [NodeProcess.withRun, NodeProcess.shared]
    cases stopped : (st.calls.shared.node.packBlock env draw.random draw.merkle).fault with
    | none => rfl
    | some e =>
      -- the node is as it was
      dsimp only
      rw [packBlock_of_fault stopped]
      rfl
  · have idle : tested = st := by
      simp only [tested, NodeProcess.runStep, place, if_neg proposes]
    have unseen : packed = st := by
      simp only [packed, idle, place, RunPoint.seen, Option.isSome_none, Bool.false_eq_true,
        if_false]
    rw [unseen, ProposingNode.turn, if_neg proposes]

/-! ### What the steps do to the pool -/

namespace SharedNode

variable {env : Env} {σ σ' : SharedNode}

/-- The pool has grown by what was added and shrunk by what was removed, and the assertion of
`PackBlock` has not failed in between. -/
structure Flows (σ σ' : SharedNode) : Prop where
  added : σ.added ≤ σ'.added
  removed : σ.removed ≤ σ'.removed
  size : σ'.node.txPool.txs.length + σ'.removed + σ.added =
    σ.node.txPool.txs.length + σ.removed + σ'.added
  minimum : σ'.node.minTxPerBlock = σ.node.minTxPerBlock
  asserted : σ.ended ≠ some .tryPublishCond → σ'.ended ≠ some .tryPublishCond

theorem flows_insert (σ : SharedNode) (tx : TX) : Flows σ (σ.insert tx) := by
  by_cases free : σ.node.txPool.Free tx
  · have longer := TxPool.length_insert free
    refine ⟨Nat.le_add_right .., le_rfl, ?_, rfl, id⟩
    simp only [insert, if_pos free]
    omega
  · -- a key in use keeps its transaction
    have same := TxPool.insert_of_taken free
    refine ⟨Nat.le_add_right .., le_rfl, ?_, rfl, id⟩
    simp only [insert, if_neg free, same]
    omega

theorem flows_removeTxFromPool (σ : SharedNode) (txs : List TX) :
    Flows σ (σ.removeTxFromPool txs) := by
  have shorter := TxPool.length_foldl_erase σ.node.txPool txs
  refine ⟨le_rfl, Nat.le_add_right .., ?_, rfl, id⟩
  simp only [removeTxFromPool]
  omega

theorem Flows.refl (σ : SharedNode) : Flows σ σ := ⟨le_rfl, le_rfl, rfl, rfl, id⟩

theorem flows_raise (σ : SharedNode) (e : Fault) : Flows σ (σ.raise e) :=
  ⟨le_rfl, le_rfl, rfl, rfl, fun _ => by simp [raise, end_]⟩

/-- What `UpdateBlance` and the chain write leaves the pool and the minimum as they are. -/
theorem flows_withNode (σ : SharedNode) {node : ProposingNode}
    (pool : node.txPool = σ.node.txPool)
    (minimum : node.minTxPerBlock = σ.node.minTxPerBlock) : Flows σ { σ with node } := by
  refine ⟨le_rfl, le_rfl, ?_, minimum, id⟩
  dsimp only
  rw [pool]

open PoolPoint in
theorem flows_act {p : PoolPoint} {d : PoolPoint.Step} (acts : p.act env σ = some d) :
    Flows σ d.shared := by
  cases p with
  | insert tx =>
    cases acts
    exact flows_insert σ tx
  | removeTxFromPool block =>
    cases acts
    exact flows_removeTxFromPool σ block.transxList
  | pushHash block =>
    cases acts
    exact flows_withNode σ rfl rfl
  | writeBlock block =>
    cases acts
    exact flows_withNode σ rfl rfl
  | parse p =>
    simp only [act] at acts
    split at acts <;> cases acts
    · exact .refl σ
    · exact flows_raise σ _
  | getFrom block tx txs =>
    simp only [act] at acts
    split at acts <;> cases acts
    · exact .refl σ
    · exact flows_raise σ .assertFailed
  | getTo block tx txs fromBalance =>
    simp only [act] at acts
    split at acts <;> cases acts
    · exact .refl σ
    · exact flows_raise σ .assertFailed
  | putFrom block tx txs fromBalance toBalance =>
    simp only [act] at acts
    split at acts <;> cases acts
    · exact flows_withNode σ rfl rfl
    · exact flows_raise σ .stodFailed
  | putTo block tx txs toBalance =>
    simp only [act] at acts
    split at acts <;> cases acts
    · exact flows_withNode σ rfl rfl
    · exact flows_raise σ .stodFailed

end SharedNode

namespace NodeProcess

open Transition

variable {env : Env} {st st' : NodeProcess} {a : Label} {draw : Draw}

/-- A step of a call. -/
theorem flows_call {move : Move PoolCall} {calls : Threads.State Empty SharedNode PoolPoint}
    (taken : Threads.step (poolProgram env) st.calls move = some calls) :
    SharedNode.Flows st.shared calls.shared := by
  cases move with
  | enter t call =>
    obtain ⟨-, rfl⟩ := step_enter taken
    exact .refl _
  | advance t =>
    obtain ⟨p, d, owner, -, acts, -, rfl⟩ := step_advance.mp taken
    exact SharedNode.flows_act acts

theorem step_run (taken : step env st (.run draw) = some st') :
    st.shared.ended = none ∧ st' = runStep env draw st := by
  unfold step at taken
  split at taken
  · cases taken
  next running => exact ⟨by simpa using running, (Option.some.inj taken).symm⟩

theorem step_call {move : Move PoolCall} (taken : step env st (.call move) = some st') :
    st'.run = st.run ∧ SharedNode.Flows st.shared st'.shared := by
  unfold step at taken
  split at taken
  · cases taken
  · obtain ⟨calls, moved, rfl⟩ := Option.map_eq_some_iff.mp taken
    exact ⟨rfl, flows_call moved⟩

/-- What `Run` saw at its test accounts for the pool it finds now. -/
def Accounted (st : NodeProcess) : Prop :=
  ∀ seen ∈ st.run.seen, seen.added ≤ st.shared.added ∧ seen.removed ≤ st.shared.removed ∧
    st.shared.node.txPool.txs.length + st.shared.removed + seen.added =
      seen.size + seen.removed + st.shared.added

/-- A snapshot is taken by the test and lost by the next step of `Run`. -/
theorem seen_runStep {seen : Seen} (noted : seen ∈ (runStep env draw st).run.seen) :
    (runStep env draw st).shared = st.shared ∧
      seen = ⟨st.shared.node.txPool.txs.length, st.shared.added, st.shared.removed⟩ := by
  unfold runStep at noted ⊢
  dsimp only at noted ⊢
  cases place : st.run with
  | test =>
    rw [place] at noted
    dsimp only at noted ⊢
    split at noted
    next passed =>
      -- the test notes what it sees, and changes nothing
      rw [if_pos passed]
      exact ⟨rfl, (Option.some.inj noted).symm⟩
    next =>
      rw [place] at noted
      cases noted
  | pack before =>
    -- the snapshot is gone, whether `PackBlock` returns or not
    rw [place] at noted
    dsimp only at noted
    split at noted <;> cases noted
  | propose =>
    rw [place] at noted
    cases noted

/-- The assertion fails where `PackBlock` starts with too small a pool, and nowhere else. -/
theorem asserted_runStep (asserted : Asserted st) :
    Asserted (runStep env draw st) ↔
      ∀ seen ∈ st.run.seen, st.shared.node.tryPublishCond = true := by
  unfold runStep
  dsimp only
  cases place : st.run with
  | test =>
    refine iff_of_true ?_ fun seen noted => by cases noted
    dsimp only
    split <;> exact asserted
  | propose =>
    refine iff_of_true ?_ fun seen noted => by cases noted
    unfold Asserted withRun shared
    dsimp only
    split
    · exact asserted
    · -- an exception of the call ends the process, but not at the assertion
      simp [SharedNode.end_]
  | pack before =>
    have noted : (∀ seen ∈ (RunPoint.pack before).seen, st.shared.node.tryPublishCond = true) ↔
        st.shared.node.tryPublishCond = true := by simp [RunPoint.seen]
    rw [noted]
    dsimp only
    cases enough : st.shared.node.tryPublishCond with
    | false =>
      -- nothing is packed
      have fault : (st.shared.node.packBlock env draw.random draw.merkle).fault =
          some .assertFailed := by simp [PackingNode.packBlock, enough]
      rw [fault]
      simp [Asserted, withRun, shared, SharedNode.end_]
    | true =>
      refine iff_of_true ?_ rfl
      split
      · exact asserted
      · simp [Asserted, withRun, shared, SharedNode.end_]

theorem accounted_step (accounted : Accounted st) (taken : step env st a = some st') :
    Accounted st' := by
  intro seen noted
  cases a with
  | run draw =>
    -- what the test has just seen is the pool as it is
    obtain ⟨-, rfl⟩ := step_run taken
    obtain ⟨same, rfl⟩ := seen_runStep noted
    rw [same]
    exact ⟨le_rfl, le_rfl, rfl⟩
  | call move =>
    -- `Run` stays where it is, and the pool flows on
    obtain ⟨same, flows⟩ := step_call taken
    rw [same] at noted
    obtain ⟨added, removed, size⟩ := accounted seen noted
    have grown := flows.size
    exact ⟨added.trans flows.added, removed.trans flows.removed, by omega⟩

/-- In terms of what has gone in and out, the pool is still large enough. -/
theorem tryPublishCond_iff {seen : Seen} (accounted : Accounted st) (noted : seen ∈ st.run.seen) :
    st.shared.node.tryPublishCond = true ↔
      st.shared.node.minTxPerBlock + (st.shared.removed - seen.removed) ≤
        seen.size + (st.shared.added - seen.added) := by
  obtain ⟨added, removed, size⟩ := accounted seen noted
  unfold PackingNode.tryPublishCond
  rw [decide_eq_true_eq]
  omega

/-- The assertion of `PackBlock` never fails in a run exactly when at each `PackBlock` call
the transactions taken out of the pool since the test of `Run` are covered. -/
theorem pack_asserted_iff {node : ProposingNode} {run : List Label}
    (ran : exec (step env) (start node) run = some st) :
    Always (step env) Asserted (start node) run ↔
      Meets (step env) Covered (start node) run := by
  have accounted : ∀ {st}, Reach (step env) (fun _ _ => True) (start node) st →
      Accounted st := by
    intro st reached
    apply reached.invariant
    · intro seen noted
      cases noted
    · exact fun _ _ _ _ before _ taken => accounted_step before taken
  have meets : Meets (step env) (fun _ _ => True) (start node) run := meets_true ..
  -- step by step: the assertion survives a step exactly when the step meets the condition
  refine always_iff_meets (by simp [Asserted, start, shared, idle]) ?_ meets ran
  intro st a st' reached asserted _ taken
  cases a with
  | run draw =>
    obtain ⟨-, rfl⟩ := step_run taken
    rw [asserted_runStep asserted]
    exact forall₂_congr fun seen noted => tryPublishCond_iff (accounted reached) noted
  | call move => exact iff_of_true ((step_call taken).2.asserted asserted) trivial

/-- A primary with one transaction in its pool, and the block that pays it. -/
def packer : ProposingNode :=
  { packingNodeWith (TxPool.empty.insert (samplePayment 1 "a" "04b")) with
    id := 0
    bftPrimaryId := 0 }

def paidBlock : Block := sampleBlock 1 "genesis" "h1" [samplePayment 1 "a" "04b"]

def gapEnv : Env := sampleEnv [genesisBlock, paidBlock]

def aRun : Label := .run ⟨"random", "merkle", true⟩

def aCommit : List Label :=
  .call (.enter 0 (.commitProposal (gapEnv.json.dump paidBlock.toJson))) ::
    List.replicate 8 (.call (.advance 0))

/-- Between the test and the call of `PackBlock` a block is committed, but a payment has come
in for the one that it takes out. -/
def coveredGap : List Label :=
  [aRun, .call (.enter 1 (.addTransx (samplePayment 3 "b" "04a"))), .call (.advance 1)] ++
    aCommit ++ [aRun, aRun]

/-- Nothing has come in. -/
def emptiedGap : List Label := aRun :: aCommit ++ [aRun]

theorem pack_asserted_coveredGap : Always (step gapEnv) Asserted (start packer) coveredGap := by
  obtain ⟨st, ran, -⟩ := exec_of_run (step gapEnv) (start packer) coveredGap
    (p := fun st => st.shared.node.txPool.txs.length == 1) (by decide +kernel)
  exact (pack_asserted_iff ran).mpr (by decide +kernel)

/-- The block took out the only transaction, and `PackBlock` stops at its assertion. -/
theorem pack_asserted_emptiedGap :
    ∃ st, exec (step gapEnv) (start packer) emptiedGap = some st ∧ ¬Asserted st ∧
      ¬Always (step gapEnv) Asserted (start packer) emptiedGap := by
  obtain ⟨st, ran, ended⟩ := exec_of_run (step gapEnv) (start packer) emptiedGap
    (p := fun st => st.shared.ended == some .tryPublishCond) (by decide +kernel)
  have failed : ¬Asserted st := fun asserted => asserted (eq_of_beq ended)
  exact ⟨st, ran, failed, fun always => failed (always.last ran)⟩

end NodeProcess

end Ruccoin.Coin
