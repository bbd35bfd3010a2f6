import Mathlib.Algebra.Order.BigOperators.Group.Finset
import Ruccoin.Deployment.Loop
import Ruccoin.Foundation.Intake

/-!
# What becomes of a transaction

A transaction that the primary's coin node takes into its pool is packed, proposed and in the
end settled by the replicas, each in the order in which its quorums complete. The primary is
an intake for them all: nothing is settled anywhere that it has not accepted, and nothing more
often than it was accepted.

## Main results

- `settled_once`: whatever a coin node has settled, the primary accepted, at least as often.
- `charged_within`: no account is anywhere charged more than what it paid in transactions that
  the primary accepted, nor credited more than what it was paid in them.

Both hold of a coin node that has stopped in the middle of a block as well: the whole block
counts as settled, and what it has done of it is charged.
-/

namespace Ruccoin

open Pbft Coin Transition

namespace Coin

variable {env : Env}

/-! ### The pool as a stock -/

/-- The transactions of a proposal; none if it is no block. -/
def bodyTransx (env : Env) (p : String) : List TX :=
  match env.parseBlock p with
  | .ok block => block.transxList
  | .error _ => []

theorem CoinNode.addTransx_of_invalid {node : CoinNode} {tx : TX}
    (invalid : tx.validateSignature env.crypto env.amounts = false) :
    (node.addTransx env tx).1 = node := by
  simp [addTransx, invalid]

theorem CoinNode.addTransx_of_valid {node : CoinNode} {tx : TX}
    (valid : tx.validateSignature env.crypto env.amounts = true) :
    (node.addTransx env tx).1.txPool = node.txPool.insert tx := by
  simp [addTransx, valid]

/-- A transaction is put to those that are there, or its place is taken. -/
theorem TxPool.insert_cases (pool : TxPool) (tx : TX) :
    ((pool.insert tx).txs : Multiset TX) = tx ::ₘ pool.txs ∨ pool.insert tx = pool := by
  by_cases free : ∀ v ∈ pool.txs, v.before tx ∨ tx.before v
  · left
    have new : tx ∉ pool.txs := by
      intro member
      rcases free tx member with first | first <;> exact TX.not_before_self tx first
    apply Multiset.coe_eq_coe.mpr
    apply (List.perm_ext_iff_of_nodup (pool.insert tx).nodup
      (List.nodup_cons.mpr ⟨new, pool.nodup⟩)).mpr
    intro u
    rw [TxPool.mem_insert, List.mem_cons, or_comm, and_iff_left free]
  · right
    push Not at free
    obtain ⟨v, member, notBefore, notAfter⟩ := free
    unfold insert
    rw [if_pos ⟨v, member, notBefore, notAfter⟩]

/-- What was in the pool is there no more when it has been taken out. -/
theorem TxPool.foldl_erase_le {pool : TxPool} {txs : List TX}
    (within : (txs : Multiset TX) ≤ pool.txs) :
    (txs : Multiset TX) + (txs.foldl TxPool.erase pool).txs ≤ pool.txs := by
  have distinct : txs.Nodup := Multiset.nodup_of_le within pool.nodup
  have apart : List.Disjoint txs (txs.foldl TxPool.erase pool).txs := by
    intro tx member left
    rcases (TxPool.mem_foldl_erase.mp left).2 tx member with first | first <;>
      exact TX.not_before_self tx first
  rw [Multiset.coe_add, Multiset.coe_le]
  refine List.subperm_of_subset (distinct.append (TxPool.nodup _) apart) fun tx member => ?_
  rcases List.mem_append.mp member with taken | left
  · exact Multiset.mem_of_le within taken
  · exact (TxPool.mem_foldl_erase.mp left).1

theorem CoinNode.commitProposal_txPool {node : CoinNode} {p : String} {block : Block}
    (parsed : env.parseBlock p = .ok block) (returned : (node.commitProposal env p).fault = none) :
    (node.commitProposal env p).state.txPool = block.transxList.foldl TxPool.erase node.txPool := by
  have updated := (commitProposal_of_parsed node parsed).1.symm.trans returned
  simp only [commitProposal, parsed, updated]

/-- On a tip whose file can be read the packed transactions are those at the front of the
pool. -/
theorem PackingNode.packBlock_within {node : PackingNode} {random merkle : String}
    {lastBlock : Block} (publishes : node.tryPublishCond = true)
    (read : readBlock env node.blockchain node.tip = some (.ok lastBlock)) :
    ((node.packBlock env random merkle).state.onPackingBlock.transxList : Multiset TX) ≤
      node.txPool.txs := by
  simp only [packBlock, publishes, Bool.not_true, Bool.false_eq_true, if_false, read,
    packTransx_eq_take]
  exact Multiset.coe_le.mpr (List.take_sublist _ _).subperm

theorem credits_cons (tx : TX) (txs : List TX) (a : String) :
    credits (tx :: txs) a = (if tx.toAddr = a then tx.value else 0) + credits txs a := by
  unfold credits
  rw [List.map_cons, Ledger.moved_cons]

/-- Fewer transactions move less, on whichever side they are entered. -/
theorem moved_accounts_le (account : TX → String) {txs came : List TX} (among : txs.Subperm came)
    (nonneg : ∀ tx ∈ came, 0 ≤ tx.value) (a : String) :
    Ledger.moved (txs.map fun tx => (account tx, tx.value)) a ≤
      Ledger.moved (came.map fun tx => (account tx, tx.value)) a := by
  apply Ledger.moved_le_of_subperm
  · obtain ⟨part, perm, sublist⟩ := among
    exact ⟨_, perm.map _, sublist.map _⟩
  · intro e member
    obtain ⟨tx, listed, rfl⟩ := List.mem_map.mp member
    exact nonneg tx listed

theorem debits_le {txs came : List TX} (among : txs.Subperm came)
    (nonneg : ∀ tx ∈ came, 0 ≤ tx.value) (a : String) : debits txs a ≤ debits came a :=
  moved_accounts_le TX.fromAddr among nonneg a

theorem credits_le {txs came : List TX} (among : txs.Subperm came)
    (nonneg : ∀ tx ∈ came, 0 ≤ tx.value) (a : String) : credits txs a ≤ credits came a :=
  moved_accounts_le TX.toAddr among nonneg a

/-- A transaction posts no more than it credits and no less than it debits. -/
theorem TX.moved_within {tx : TX} (nonneg : 0 ≤ tx.value) (a : String) :
    (-if tx.fromAddr = a then tx.value else 0) ≤ Ledger.moved tx.entries a ∧
      Ledger.moved tx.entries a ≤ if tx.toAddr = a then tx.value else 0 := by
  by_cases self : tx.fromAddr = tx.toAddr
  · rw [entries, if_pos self, Ledger.moved_cons, Ledger.moved_nil, self]
    constructor <;> split <;> linarith
  · rw [entries, if_neg self, Ledger.moved_cons, Ledger.moved_cons, Ledger.moved_nil]
    constructor <;> split <;> split <;> linarith

/-- The calls commit, in order, transactions of the proposals. -/
theorem transactions_initial (ps : List String) :
    transactions env ps <+: ps.flatMap (bodyTransx env) := by
  induction ps with
  | nil => exact List.nil_prefix
  | cons p ps ih =>
    rw [transactions, List.flatMap_cons]
    cases parsed : env.parseBlock p with
    | error e => exact List.nil_prefix
    | ok block =>
      have body : bodyTransx env p = block.transxList := by rw [bodyTransx, parsed]
      rw [body]
      exact (List.prefix_append_right_inj _).mpr ih

/-- Transactions none of which has a negative value post no more than they credit and no less
than they debit, however far they get. -/
theorem moved_posts_within {t : AmountText} {s : Store} {txs : List TX}
    (nonneg : ∀ tx ∈ txs, 0 ≤ tx.value) (a : String) :
    -debits txs a ≤ Ledger.moved (posts t s txs) a ∧
      Ledger.moved (posts t s txs) a ≤ credits txs a := by
  induction txs with
  | nil => exact ⟨le_refl _, le_refl _⟩
  | cons tx txs ih =>
    obtain ⟨lower, upper⟩ := ih fun u member => nonneg u (List.mem_cons_of_mem tx member)
    have value : 0 ≤ tx.value := nonneg tx List.mem_cons_self
    have among : [].Subperm (tx :: txs) := List.nil_subperm
    have debited : 0 ≤ debits (tx :: txs) a := debits_le among nonneg a
    have credited : 0 ≤ credits (tx :: txs) a := credits_le among nonneg a
    by_cases present : ¬Holds t s tx.fromAddr ∨ tx.toAddr ∉ s
    · -- it stops here
      rw [posts, if_pos present, Ledger.moved_nil]
      exact ⟨neg_nonpos.mpr debited, credited⟩
    · by_cases recipient : Holds t s tx.toAddr
      · obtain ⟨least, most⟩ := tx.moved_within value a
        rw [posts, if_neg present, if_neg (not_not.mpr recipient), Ledger.moved_append,
          debits_cons, credits_cons]
        constructor <;> linarith
      · -- it has been debited, and stops
        have later : 0 ≤ debits txs a := debits_le List.nil_subperm (fun u member =>
          nonneg u (List.mem_cons_of_mem tx member)) a
        rw [posts, if_neg present, if_pos recipient, Ledger.moved_cons, Ledger.moved_nil,
          debits_cons]
        constructor <;> split <;> linarith

theorem ProposingNode.turn_proposes {node : ProposingNode} {random merkle : String} {block : Block}
    (proposed : (node.turn env random merkle).2 = some block) :
    node.tryPublishCond = true ∧
      block = (node.packBlock env random merkle).state.onPackingBlock := by
  unfold turn at proposed
  split at proposed
  next publishes =>
    refine ⟨(Bool.and_eq_true_iff.mp publishes).1, ?_⟩
    dsimp only at proposed
    split at proposed
    next => exact (Option.some.inj proposed).symm
    next => cases proposed
  next => cases proposed

end Coin

/-! ### What a step settles -/

namespace Deployment

variable {env : Env} {conf : Config} {node : CoinNode} {d d' : Deployment}

/-- The transactions of the blocks that replica `i` has executed, in order. -/
def settled (env : Env) (d : Deployment) (i : Nat) : List TX :=
  (d.bodies i).flatMap (bodyTransx env)

/-- Replica `i` has its coin node commit the body. -/
structure Settles (env : Env) (conf : Config) (i s : Nat) (b : String) (d d' : Deployment) :
    Prop where
  numbered : World.NumberedBody d'.world.history conf.pbftPrimary s b
  running : d.stopped i = none
  nodes : d'.nodes = Function.update d.nodes i ((d.nodes i).commitProposal env b).state
  stopped : d'.stopped = Function.update d.stopped i ((d.nodes i).commitProposal env b).fault
  numbers : ∀ j, d'.numbers j = d.numbers j ++ if i = j then [s] else []
  bodies : ∀ j, d'.bodies j = d.bodies j ++ if i = j then [b] else []

/-- The coin nodes are left alone, and nothing is executed. -/
structure Quiet (d d' : Deployment) : Prop where
  nodes : d'.nodes = d.nodes
  stopped : d'.stopped = d.stopped
  numbers : ∀ j, d'.numbers j = d.numbers j
  bodies : ∀ j, d'.bodies j = d.bodies j

/-- A call of a PBFT process leaves the coin nodes alone, or one of them commits a body. -/
theorem advance_settles {a : Label} {a' : Pbft.Label}
    (reached : Reach (step env conf) (Benign conf) (init conf node) d) (allowed : d.Benign conf a)
    (called : d.call env a = some a') (taken : step env conf d a = some d') :
    Quiet d d' ∨ ∃ i s b, Settles env conf i s b d d' := by
  have worldReached := benign_world (reached.step allowed taken)
  rcases step_cases taken with
    ⟨j, tx, rfl, -, -⟩ | ⟨a'', i, source, h, effects, -, -, ran, world, served⟩
  · cases called
  · have numbers := fun j => numbers_record world j
    have bodies : ∀ j, d'.bodies j = d.bodies j ++
        (if i = j then effects.filterMap World.Effect.execution else []).map Prod.snd := by
      intro j
      unfold Deployment.bodies
      rw [world, World.executions_record, List.map_append]
    cases served with
    | quiet silent nodes stopped =>
      -- no `CommitProposal` was called, so nothing is added to the record
      have nothing : effects.filterMap World.Effect.execution = [] := by
        rw [List.eq_nil_iff_forall_not_mem]
        rintro ⟨s, b⟩ member
        exact silent s b (World.mem_execution.mp member)
      left
      refine ⟨nodes, stopped, fun j => ?_, fun j => ?_⟩
      · rw [numbers, nothing, ite_self, List.map_nil, List.append_nil]
      · rw [bodies, nothing, ite_self, List.map_nil, List.append_nil]
    | committed s b only running nodes stopped =>
      right
      refine ⟨i, s, b, ?_, running, nodes, stopped, fun j => ?_, fun j => ?_⟩
      · -- what is executed is a body of the primary
        apply World.executed_primary (World.Benign.trusted worldReached) (i := i)
        rw [world]
        exact (World.did_record ..).mpr (Or.inl ⟨rfl, by simp [only]⟩)
      · rw [numbers, only]
        split <;> rfl
      · rw [bodies, only]
        split <;> rfl

/-- In which order a replica has executed the entries of the log makes no difference to what
it has settled. -/
theorem settled_eq_sum (reached : Reach (step env conf) (Benign conf) (init conf node) d) (i : Nat) :
    (d.settled env i : Multiset TX) = ∑ k ∈ (d.numbers i).toFinset,
      (World.log conf d.world).weight (fun p => (bodyTransx env p : Multiset TX)) k := by
  have world := benign_world reached
  have sum := ReplicatedLog.sum_replay (fun p => (bodyTransx env p : Multiset TX))
    (ReplicatedLog.sound (World.log_reached world)) i
  rw [World.replay_log world] at sum
  refine Eq.trans ?_ sum
  change (((d.bodies i).flatMap (bodyTransx env) : List TX) : Multiset TX) =
    ((d.bodies i).map fun p => (bodyTransx env p : Multiset TX)).sum
  induction d.bodies i with
  | nil => rfl
  | cons p ps ih => rw [List.flatMap_cons, ← Multiset.coe_add, ih, List.map_cons, List.sum_cons]

/-- A numbered body is the entry of the log at its number. -/
theorem weight_numbered (reached : Reach (step env conf) (Benign conf) (init conf node) d)
    {s : Nat} {b : String} (numbered : World.NumberedBody d.world.history conf.pbftPrimary s b) :
    (World.log conf d.world).weight (fun p => (bodyTransx env p : Multiset TX)) s =
      bodyTransx env b := by
  obtain ⟨req, did, rfl⟩ := numbered
  have listed := ((World.numbers_requests (benign_world reached) _).numbered s req).mp did
  have entry : (World.log conf d.world).entries[s]? = some req.body := by
    simp only [World.log, List.getElem?_map, listed, Option.map_some]
  rw [ReplicatedLog.weight, entry]
  rfl

end Deployment

/-! ### The primary as an intake -/

namespace ClosedLoop

variable {env : Env} {conf : Config} {minTxPerBlock : Nat} {node : CoinNode} {block : Block}
  {l l' : ClosedLoop}

/-- The transactions that the primary's coin node has found valid when they were submitted to
it. -/
def accepted (env : Env) (conf : Config) (run : List Label) : List TX :=
  run.filterMap fun
    | .addTransx i tx =>
      if i = conf.pbftPrimary ∧ tx.validateSignature env.crypto env.amounts then some tx else none
    | _ => none

/-- When `Run` packs, the file of the tip can be read, and the text of the packed block is
read back as the block. -/
def Sighted (env : Env) (conf : Config) (minTxPerBlock : Nat) (l : ClosedLoop) : Label → Prop
  | .turn random merkle _ =>
    let node := l.proposer conf minTxPerBlock
    let packed := (node.packBlock env random merkle).state.onPackingBlock
    node.tryPublishCond = true →
      (∃ lastBlock, readBlock env node.blockchain node.tip = some (.ok lastBlock)) ∧
        env.parseBlock (env.json.dump packed.toJson) = .ok packed
  | _ => True

instance (read : Option (Except Coin.Fault Block)) : Decidable (∃ b, read = some (.ok b)) :=
  match read with
  | some (.ok b) => .isTrue ⟨b, rfl⟩
  | some (.error _) => .isFalse (by simp)
  | none => .isFalse (by simp)

instance (l : ClosedLoop) : ∀ a, Decidable (l.Sighted env conf minTxPerBlock a)
  | .turn .. => inferInstanceAs (Decidable (_ → _ ∧ _))
  | .addTransx .. => inferInstanceAs (Decidable True)
  | .deliver .. => inferInstanceAs (Decidable True)
  | .completed => inferInstanceAs (Decidable True)

/-- A turn of `Run` packs from the pool, and proposes what it has packed. -/
theorem turn_packs {random merkle : String} {timeStamp : Nat}
    (sighted : l.Sighted env conf minTxPerBlock (.turn random merkle timeStamp))
    (taken : l.step env conf minTxPerBlock (.turn random merkle timeStamp) = some l') :
    l' = l ∨
      ((l'.onPackingBlock.transxList : Multiset TX) ≤
        (l.deployment.nodes conf.pbftPrimary).txPool.txs) ∧
      env.parseBlock (env.json.dump l'.onPackingBlock.toJson) = .ok l'.onPackingBlock := by
  simp only [step] at taken
  split at taken
  next =>
    unfold turn at taken
    split at taken
    next => cases taken
    next =>
      cases taken
      exact Or.inl rfl
    next packed turned =>
      obtain ⟨d, -, rfl⟩ := Option.map_eq_some_iff.mp taken
      obtain ⟨publishes, rfl⟩ := ProposingNode.turn_proposes (congrArg Prod.snd turned)
      obtain ⟨⟨lastBlock, read⟩, parsed⟩ := sighted publishes
      exact Or.inr ⟨PackingNode.packBlock_within publishes read, parsed⟩
  next => cases taken

/-- The transactions of the block that the loop waits for, until it is executed. -/
def batch (conf : Config) (l : ClosedLoop) : Option (Multiset TX) :=
  l.waiting.bind fun s =>
    if s ∈ l.deployment.numbers conf.pbftPrimary then none else some l.onPackingBlock.transxList

/-- The transactions that the primary can still pack; none when its coin node is gone. -/
def stock (conf : Config) (l : ClosedLoop) : Multiset TX :=
  if l.deployment.stopped conf.pbftPrimary = none then
    (l.deployment.nodes conf.pbftPrimary).txPool.txs
  else 0

/-- The primary's coin node, when these transactions have come in. -/
def intake (env : Env) (conf : Config) (came : List TX) (l : ClosedLoop) : Intake TX where
  taken := came
  stock := l.stock conf
  batch := l.batch conf
  settled := l.deployment.settled env conf.pbftPrimary

/-- What the loop waits for is the block packed last. -/
def Awaits (env : Env) (conf : Config) (l : ClosedLoop) : Prop :=
  ∀ s, l.waiting = some s →
    World.NumberedBody l.deployment.world.history conf.pbftPrimary s
      (env.json.dump l.onPackingBlock.toJson) ∧
    env.parseBlock (env.json.dump l.onPackingBlock.toJson) = .ok l.onPackingBlock

/-- Nothing has come of the step, or a move of the intake. -/
def Advances (env : Env) (conf : Config) (came came' : List TX) (l l' : ClosedLoop) : Prop :=
  l'.intake env conf came' = l.intake env conf came ∨
    ∃ m, Intake.step (l.intake env conf came) m = some (l'.intake env conf came')

/-- The primary has settled nothing since, and waits for the same block. -/
structure Rests (env : Env) (conf : Config) (l l' : ClosedLoop) : Prop where
  batch : l'.batch conf = l.batch conf
  settled : l'.deployment.settled env conf.pbftPrimary =
    l.deployment.settled env conf.pbftPrimary

variable {came : List TX}

theorem Rests.intake_eq (rests : Rests env conf l l') (stock : l'.stock conf = l.stock conf) :
    l'.intake env conf came = l.intake env conf came := by
  unfold intake
  rw [stock, rests.batch, rests.settled]

theorem Rests.advances (rests : Rests env conf l l') (stock : l'.stock conf = l.stock conf) :
    Advances env conf came (came ++ []) l l' := by
  rw [List.append_nil]
  exact Or.inl (rests.intake_eq stock)

theorem stock_eq (nodes : (l'.deployment.nodes conf.pbftPrimary).txPool =
      (l.deployment.nodes conf.pbftPrimary).txPool)
    (stopped : l'.deployment.stopped conf.pbftPrimary = l.deployment.stopped conf.pbftPrimary) :
    l'.stock conf = l.stock conf := by
  unfold stock
  rw [nodes, stopped]

/-- A valid transaction that is submitted comes in, and is kept if its place is free. -/
theorem Rests.takes {tx : TX} (rests : Rests env conf l l')
    (running : l.deployment.stopped conf.pbftPrimary = none)
    (stopped : l'.deployment.stopped conf.pbftPrimary = l.deployment.stopped conf.pbftPrimary)
    (pool : (l'.deployment.nodes conf.pbftPrimary).txPool =
      (l.deployment.nodes conf.pbftPrimary).txPool.insert tx) :
    Advances env conf came (came ++ [tx]) l l' := by
  have one : ((came ++ [tx] : List TX) : Multiset TX) = tx ::ₘ came :=
    Multiset.coe_eq_coe.mpr (List.perm_append_singleton tx came)
  have before : l.stock conf = (l.deployment.nodes conf.pbftPrimary).txPool.txs := if_pos running
  have after : l'.stock conf =
      ((l.deployment.nodes conf.pbftPrimary).txPool.insert tx).txs := by
    rw [stock, if_pos (stopped.trans running), pool]
  right
  rcases TxPool.insert_cases (l.deployment.nodes conf.pbftPrimary).txPool tx with put | taken
  · refine ⟨.keep tx, ?_⟩
    simp only [Intake.step, intake, rests.batch, rests.settled, before, after, put, one]
  · refine ⟨.pass tx, ?_⟩
    simp only [Intake.step, intake, rests.batch, rests.settled, before, after, taken, one]

theorem advances_addTransx {i : Nat} (running : l.deployment.stopped i = none) (tx : TX) :
    Advances env conf came (came ++ accepted env conf [.addTransx i tx]) l
      { l with deployment := l.deployment.addTransx env i tx } := by
  have rests : Rests env conf l { l with deployment := l.deployment.addTransx env i tx } :=
    ⟨rfl, rfl⟩
  by_cases here : i = conf.pbftPrimary
  · subst here
    cases valid : tx.validateSignature env.crypto env.amounts with
    | true =>
      have one : accepted env conf [.addTransx conf.pbftPrimary tx] = [tx] := by
        simp [accepted, valid]
      rw [one]
      apply rests.takes running rfl
      simp only [Deployment.addTransx, Function.update_self]
      exact CoinNode.addTransx_of_valid valid
    | false =>
      -- refused, and the pool is as it was
      have none : accepted env conf [.addTransx conf.pbftPrimary tx] = [] := by
        simp [accepted, valid]
      rw [none]
      refine rests.advances (stock_eq ?_ rfl)
      simp only [Deployment.addTransx, Function.update_self]
      rw [CoinNode.addTransx_of_invalid valid]
  · -- the pool of another coin node, from which nothing is packed
    have none : accepted env conf [.addTransx i tx] = [] := by
      simp [accepted, here]
    rw [none]
    refine rests.advances (stock_eq ?_ rfl)
    simp only [Deployment.addTransx, Function.update_of_ne (Ne.symm here)]

/-- What the primary executes is what the loop waits for. -/
theorem awaited {k i s : Nat} {b : String} {d : Deployment}
    (reached : Reach (step env conf minTxPerBlock) Benign (init conf node block) l)
    (awaits : l.Awaits env conf) (allowed : l.Benign (.deliver k i))
    (taken : l.deployment.step env conf (.deliver k i) = some d)
    (settles : Deployment.Settles env conf conf.pbftPrimary s b l.deployment d) :
    l.waiting = some s ∧ s ∉ l.deployment.numbers conf.pbftPrimary ∧
      b = env.json.dump l.onPackingBlock.toJson ∧ env.parseBlock b = .ok l.onPackingBlock := by
  have started : Reach (Deployment.step env conf) (Deployment.Benign conf)
    (Deployment.init conf node) l.deployment := deployment_reached reached
  have allowed' : l.deployment.Benign conf (.deliver k i) := allowed
  have reached' := started.step allowed' taken
  have more := settles.numbers conf.pbftPrimary
  rw [if_pos rfl] at more
  obtain ⟨below, fresh⟩ : s < l.deployment.world.numbers conf ∧
      s ∉ l.deployment.numbers conf.pbftPrimary := by
    rcases inner_executes reached (a := .deliver k i) rfl allowed taken conf.pbftPrimary with
      same | ⟨s', below, fresh, appended⟩
    · rw [same] at more
      exact absurd (List.self_eq_append_right.mp more) (List.cons_ne_nil _ _)
    · rw [appended] at more
      obtain rfl : s' = s := List.singleton_inj.mp (List.append_cancel_left more)
      exact ⟨below, fresh⟩
  cases waiting : l.waiting with
  | none =>
    -- everything had been executed
    rw [(paced reached).idle waiting, List.mem_range] at fresh
    exact absurd below fresh
  | some t =>
    obtain ⟨next, numbers⟩ := (paced reached).busy t waiting
    obtain rfl : t = s := by
      rcases numbers with before | done
      · rw [before, List.mem_range] at fresh
        omega
      · rw [done, List.mem_range] at fresh
        omega
    obtain ⟨numbered, parsed⟩ := awaits t waiting
    obtain rfl : b = env.json.dump l.onPackingBlock.toJson :=
      World.NumberedBody.unique (Deployment.benign_world reached') settles.numbered
        (Deployment.numbered_mono taken numbered)
    exact ⟨rfl, fresh, rfl, parsed⟩

theorem advances_deliver {k i : Nat} {d : Deployment}
    (reached : Reach (step env conf minTxPerBlock) Benign (init conf node block) l)
    (awaits : l.Awaits env conf) (sound : (l.intake env conf came).Sound)
    (allowed : l.Benign (.deliver k i))
    (taken : l.deployment.step env conf (.deliver k i) = some d) :
    Advances env conf came came l { l with deployment := d } := by
  have started : Reach (Deployment.step env conf) (Deployment.Benign conf)
    (Deployment.init conf node) l.deployment := deployment_reached reached
  have allowed' : l.deployment.Benign conf (.deliver k i) := allowed
  rcases Deployment.advance_settles started allowed' rfl taken with
    quiet | ⟨j, s, b, settles⟩
  · have rests : Rests env conf l { l with deployment := d } := by
      constructor
      · simp only [batch, quiet.numbers]
      · simp only [Deployment.settled, quiet.bodies]
    refine Or.inl (rests.intake_eq (stock_eq ?_ ?_))
    · rw [quiet.nodes]
    · rw [quiet.stopped]
  · by_cases here : j = conf.pbftPrimary
    · subst here
      obtain ⟨waiting, fresh, -, parsed⟩ := awaited reached awaits allowed taken settles
      have gathered : l.batch conf = some (l.onPackingBlock.transxList : Multiset TX) := by
        simp [batch, waiting, fresh]
      have done : ({ l with deployment := d } : ClosedLoop).batch conf = none := by
        simp [batch, waiting, settles.numbers]
      have before : l.stock conf = (l.deployment.nodes conf.pbftPrimary).txPool.txs :=
        if_pos settles.running
      have within : (l.onPackingBlock.transxList : Multiset TX) ≤
          (l.deployment.nodes conf.pbftPrimary).txPool.txs :=
        before ▸ sound.batched _ gathered
      have settled : d.settled env conf.pbftPrimary =
          l.deployment.settled env conf.pbftPrimary ++ l.onPackingBlock.transxList := by
        simp [Deployment.settled, settles.bodies, bodyTransx, parsed]
      have room : (l.onPackingBlock.transxList : Multiset TX) +
          ({ l with deployment := d } : ClosedLoop).stock conf ≤ l.stock conf := by
        rw [before, stock]
        dsimp only
        split
        next running =>
          -- the transactions of the block have been taken out of the pool
          rw [settles.stopped, Function.update_self] at running
          rw [settles.nodes, Function.update_self, CoinNode.commitProposal_txPool parsed running]
          exact TxPool.foldl_erase_le within
        next =>
          rw [add_zero]
          exact within
      refine Or.inr ⟨.settle (({ l with deployment := d } : ClosedLoop).stock conf), ?_⟩
      simp only [Intake.step, intake, gathered, done, settled]
      rw [if_pos room, Multiset.coe_add]
    · -- another replica executes
      have rests : Rests env conf l { l with deployment := d } := by
        constructor
        · simp only [batch, settles.numbers, if_neg here, List.append_nil]
        · simp only [Deployment.settled, settles.bodies, if_neg here, List.append_nil]
      refine Or.inl (rests.intake_eq (stock_eq ?_ ?_))
      · rw [settles.nodes, Function.update_of_ne (Ne.symm here)]
      · rw [settles.stopped, Function.update_of_ne (Ne.symm here)]

/-- A request leaves the coin nodes alone. -/
theorem request_quiet {req : Request} {d : Deployment}
    (reached : Reach (step env conf minTxPerBlock) Benign (init conf node block) l)
    (taken : l.deployment.step env conf (.request conf.pbftPrimary req) = some d) :
    Deployment.Quiet l.deployment d := by
  have started : Reach (Deployment.step env conf) (Deployment.Benign conf)
    (Deployment.init conf node) l.deployment := deployment_reached reached
  have allowed : l.deployment.Benign conf (.request conf.pbftPrimary req) := rfl
  rcases Deployment.advance_settles started allowed rfl taken with quiet | ⟨j, s, b, settles⟩
  · exact quiet
  · have more := settles.numbers j
    rw [((Deployment.request_numbers taken).unmoved j).numbers, if_pos rfl] at more
    exact absurd (List.self_eq_append_right.mp more) (List.cons_ne_nil _ _)

theorem advances_turn {random merkle : String} {timeStamp : Nat}
    (reached : Reach (step env conf minTxPerBlock) Benign (init conf node block) l)
    (awaits : l.Awaits env conf)
    (sighted : l.Sighted env conf minTxPerBlock (.turn random merkle timeStamp))
    (taken : l.step env conf minTxPerBlock (.turn random merkle timeStamp) = some l') :
    Advances env conf came came l l' ∧ l'.Awaits env conf := by
  rcases turn_packs sighted taken with rfl | ⟨within, parsed⟩
  · exact ⟨Or.inl rfl, awaits⟩
  · cases step_cases taken with
    | inner b same => cases same
    | idle _ same =>
      subst same
      exact ⟨Or.inl rfl, awaits⟩
    | proposed req waiting running body stepped waits =>
      have quiet := request_quiet reached stepped
      have opens := Deployment.request_numbers stepped
      -- the batch is that of a number which nobody has executed yet
      have fresh : l.deployment.world.numbers conf ∉ l'.deployment.numbers conf.pbftPrimary := by
        rw [quiet.numbers, (paced reached).idle waiting]
        exact List.not_mem_range_self
      have idle : l.batch conf = none := by simp [batch, waiting]
      have gathered : l'.batch conf = some (l'.onPackingBlock.transxList : Multiset TX) := by
        simp [batch, waits, fresh]
      have settled : l'.deployment.settled env conf.pbftPrimary =
          l.deployment.settled env conf.pbftPrimary := by
        simp only [Deployment.settled, quiet.bodies]
      have stock : l'.stock conf = l.stock conf :=
        stock_eq (by rw [quiet.nodes]) (by rw [quiet.stopped])
      have before : l.stock conf = (l.deployment.nodes conf.pbftPrimary).txPool.txs :=
        if_pos running
      constructor
      · refine Or.inr ⟨.gather l'.onPackingBlock.transxList, ?_⟩
        simp only [Intake.step, intake, idle, gathered, settled, stock]
        rw [if_pos ⟨trivial, before ▸ within⟩]
      · intro s waits'
        rw [waits] at waits'
        obtain rfl := Option.some.inj waits'
        exact ⟨⟨req, opens.numbered, body⟩, parsed⟩
    | returned label => cases label

theorem advances_completed
    (reached : Reach (step env conf minTxPerBlock) Benign (init conf node block) l)
    (taken : l.step env conf minTxPerBlock .completed = some l') :
    Advances env conf came came l l' ∧ l'.Awaits env conf := by
  have world := Deployment.benign_world (deployment_reached reached)
  simp only [step] at taken
  split at taken
  next s waiting =>
    split at taken
    next completed =>
      cases taken
      have member : s ∈ l.deployment.numbers conf.pbftPrimary :=
        (World.committed_iff_executed world conf.pbftPrimary s).mp completed.1
      have rests : Rests env conf l { l with waiting := none } := by
        constructor
        · simp [batch, waiting, member]
        · rfl
      exact ⟨Or.inl (rests.intake_eq rfl), fun s waits => by cases waits⟩
    next => cases taken
  next => cases taken

/-- Together with what has come in, the primary's coin node runs as an intake. -/
theorem intake_reached {run : List Label}
    (benign : Meets (step env conf minTxPerBlock) Benign (init conf node block) run)
    (sighted : Meets (step env conf minTxPerBlock) (Sighted env conf minTxPerBlock)
      (init conf node block) run)
    (ran : exec (step env conf minTxPerBlock) (init conf node block) run = some l) :
    l.Awaits env conf ∧ Intake.Reachable node.txPool.txs
      (l.intake env conf (node.txPool.txs ++ accepted env conf run)) := by
  -- from the end of the run, as what has been accepted grows there
  induction run using List.reverseRecOn generalizing l with
  | nil =>
    cases ran
    refine ⟨fun s (waits : none = some s) => (by cases waits), ?_⟩
    have start : (init conf node block).intake env conf (node.txPool.txs ++ accepted env conf []) =
        Intake.opening node.txPool.txs := by
      simp [intake, accepted, init, batch, stock, Deployment.settled, Deployment.init, Deployment.bodies,
        World.executions, World.init, Intake.opening]
    rw [start]
    exact .start
  | append_singleton run a ih =>
    obtain ⟨l₁, before, taken⟩ := exec_concat.mp ran
    obtain ⟨benign₁, benignLast⟩ := (meets_append _ run [a]).mp benign
    obtain ⟨sighted₁, sightedLast⟩ := (meets_append _ run [a]).mp sighted
    obtain ⟨awaits, reachable⟩ := ih benign₁ sighted₁ before
    have reached := reach_of_exec benign₁ before
    have allowed : l₁.Benign a := (benignLast l₁ before).1
    have sees : l₁.Sighted env conf minTxPerBlock a := (sightedLast l₁ before).1
    have came : node.txPool.txs ++ accepted env conf (run ++ [a]) =
        (node.txPool.txs ++ accepted env conf run) ++ accepted env conf [a] := by
      rw [List.append_assoc]
      exact congrArg _ List.filterMap_append
    have next : Advances env conf (node.txPool.txs ++ accepted env conf run)
        (node.txPool.txs ++ accepted env conf (run ++ [a])) l₁ l ∧ l.Awaits env conf := by
      rw [came]
      cases a with
      | addTransx i tx =>
        obtain ⟨d, stepped, rfl⟩ := Option.map_eq_some_iff.mp taken
        obtain ⟨running, added⟩ := Option.ite_none_right_eq_some.mp stepped
        cases added
        exact ⟨advances_addTransx running tx, awaits⟩
      | deliver k i =>
        obtain ⟨d, stepped, rfl⟩ := Option.map_eq_some_iff.mp taken
        have none : accepted env conf [.deliver k i] = [] := rfl
        rw [none, List.append_nil]
        refine ⟨advances_deliver reached awaits (Intake.sound reachable) allowed stepped, ?_⟩
        exact fun s waits => ⟨Deployment.numbered_mono stepped (awaits s waits).1, (awaits s waits).2⟩
      | turn random merkle timeStamp =>
        have none : accepted env conf [.turn random merkle timeStamp] = [] := rfl
        rw [none, List.append_nil]
        exact advances_turn reached awaits sees taken
      | completed =>
        have none : accepted env conf [.completed] = [] := rfl
        rw [none, List.append_nil]
        exact advances_completed reached taken
    refine ⟨next.2, ?_⟩
    rcases next.1 with same | ⟨m, moved⟩
    · rw [same]
      exact reachable
    · exact reachable.step trivial moved

theorem range_toFinset (n : Nat) : (List.range n).toFinset = Finset.range n :=
  Multiset.toFinset_range n

/-- No replica has settled more than the primary has settled or is about to. -/
theorem settled_ahead (reached : Reach (step env conf minTxPerBlock) Benign (init conf node block) l)
    (awaits : l.Awaits env conf) (i : Nat) :
    (l.deployment.settled env i : Multiset TX) ≤
      l.deployment.settled env conf.pbftPrimary + (l.batch conf).getD 0 := by
  have started : Reach (Deployment.step env conf) (Deployment.Benign conf)
    (Deployment.init conf node) l.deployment := deployment_reached reached
  have within : (l.deployment.numbers i).toFinset ⊆
      Finset.range (l.deployment.world.numbers conf) := by
    intro s member
    rw [List.mem_toFinset] at member
    exact Finset.mem_range.mpr (Deployment.executed_below started member)
  rw [Deployment.settled_eq_sum started, Deployment.settled_eq_sum started]
  refine (Finset.sum_le_sum_of_subset within).trans ?_
  cases waiting : l.waiting with
  | none =>
    rw [(paced reached).idle waiting, range_toFinset]
    exact Multiset.le_add_right _ _
  | some s =>
    obtain ⟨next, numbers⟩ := (paced reached).busy s waiting
    rw [next]
    rcases numbers with before | done
    · -- the block that the loop waits for comes on top
      obtain ⟨numbered, parsed⟩ := awaits s waiting
      have gathered : l.batch conf = some (l.onPackingBlock.transxList : Multiset TX) := by
        simp [batch, waiting, before]
      have weight := Deployment.weight_numbered started numbered
      rw [before, range_toFinset, Finset.sum_range_succ, weight, gathered]
      simp only [bodyTransx, parsed, Option.getD_some, le_refl]
    · rw [done, range_toFinset]
      exact Multiset.le_add_right _ _

theorem settled_le_came {run : List Label}
    (benign : Meets (step env conf minTxPerBlock) Benign (init conf node block) run)
    (sighted : Meets (step env conf minTxPerBlock) (Sighted env conf minTxPerBlock)
      (init conf node block) run)
    (ran : exec (step env conf minTxPerBlock) (init conf node block) run = some l) (i : Nat) :
    (l.deployment.settled env i : Multiset TX) ≤
      (node.txPool.txs ++ accepted env conf run : List TX) := by
  obtain ⟨awaits, reachable⟩ := intake_reached benign sighted ran
  exact (settled_ahead (reach_of_exec benign ran) awaits i).trans (Intake.settled_le reachable)

/-- Whatever a coin node has settled, the primary's coin node has accepted, at least as often,
or had in its pool to begin with. -/
theorem settled_once {run : List Label}
    (benign : Meets (step env conf minTxPerBlock) Benign (init conf node block) run)
    (sighted : Meets (step env conf minTxPerBlock) (Sighted env conf minTxPerBlock)
      (init conf node block) run)
    (ran : exec (step env conf minTxPerBlock) (init conf node block) run = some l) (i : Nat) :
    (l.deployment.settled env i).Subperm (node.txPool.txs ++ accepted env conf run) :=
  Multiset.coe_le.mp (settled_le_came benign sighted ran i)

/-- When no accepted transaction has a negative value, no account is at any coin node charged
more than it paid in accepted transactions, nor credited more than it was paid in them. -/
theorem charged_within {run : List Label}
    (benign : Meets (step env conf minTxPerBlock) Benign (init conf node block) run)
    (sighted : Meets (step env conf minTxPerBlock) (Sighted env conf minTxPerBlock)
      (init conf node block) run)
    (ran : exec (step env conf minTxPerBlock) (init conf node block) run = some l)
    (nonneg : ∀ tx ∈ node.txPool.txs ++ accepted env conf run, 0 ≤ tx.value) (i : Nat) (a : String) :
    ∃ added, balance env.amounts (l.deployment.nodes i).balances a =
        (balance env.amounts node.balances a).map (· + added) ∧
      -debits (node.txPool.txs ++ accepted env conf run) a ≤ added ∧
      added ≤ credits (node.txPool.txs ++ accepted env conf run) a := by
  have started : Reach (Deployment.step env conf) (Deployment.Benign conf)
    (Deployment.init conf node) l.deployment := deployment_reached (reach_of_exec benign ran)
  let txs := transactions env (l.deployment.bodies i)
  have among : txs.Subperm (node.txPool.txs ++ accepted env conf run) :=
    ((transactions_initial _).sublist.subperm).trans
      (Multiset.coe_le.mp (settled_le_came benign sighted ran i))
  obtain ⟨lower, upper⟩ := moved_posts_within (t := env.amounts) (s := node.balances)
    (fun tx member => nonneg tx (among.subset member)) a
  refine ⟨Ledger.moved (posts env.amounts node.balances txs) a, ?_, ?_, ?_⟩
  · rw [congrArg ChainState.balances (Deployment.replayed started i).state,
      (CoinNode.commitAll_posted env node _).balance_eq]
  · exact (neg_le_neg (debits_le among nonneg a)).trans lower
  · exact upper.trans (credits_le among nonneg a)

/-! ### A payment that is submitted twice -/

/-- The payment is accepted twice before it is proposed. -/
def submittedTwice : List Label := .addTransx 0 covered :: proposing covered ++ settling

theorem submittedTwice_benign :
    Meets (step loopEnv (sampleConfig 2) 1) Benign loopStart submittedTwice := by
  decide +kernel

theorem submittedTwice_sighted :
    Meets (step loopEnv (sampleConfig 2) 1) (Sighted loopEnv (sampleConfig 2) 1) loopStart
      submittedTwice := by
  decide +kernel

theorem settled_once_submittedTwice :
    ∃ l, exec (step loopEnv (sampleConfig 2) 1) loopStart submittedTwice = some l ∧
      l.deployment.settled loopEnv 1 = [covered] ∧
      accepted loopEnv (sampleConfig 2) submittedTwice = [covered, covered] ∧
      (l.deployment.settled loopEnv 1).Subperm (accepted loopEnv (sampleConfig 2) submittedTwice) := by
  obtain ⟨l, ran, settled⟩ := exec_of_run (step loopEnv (sampleConfig 2) 1) loopStart submittedTwice
    (p := fun l => decide (l.deployment.settled loopEnv 1 = [covered])) (by decide +kernel)
  exact ⟨l, ran, of_decide_eq_true settled, by decide +kernel,
    settled_once submittedTwice_benign submittedTwice_sighted ran 1⟩

/-- The account that pays has at the end what it began with, or up to two payments less. -/
theorem charged_within_submittedTwice :
    ∃ l, exec (step loopEnv (sampleConfig 2) 1) loopStart submittedTwice = some l ∧
      ∃ added, balance loopEnv.amounts (l.deployment.nodes 1).balances "04a" =
          some (20000000 + added) ∧ -20000000 ≤ added ∧ added ≤ 0 := by
  obtain ⟨l, ran, -⟩ := exec_of_run (step loopEnv (sampleConfig 2) 1) loopStart submittedTwice
    (p := fun _ => true) (by decide +kernel)
  obtain ⟨added, balances, lower, upper⟩ :=
    charged_within submittedTwice_benign submittedTwice_sighted ran (by decide +kernel) 1 "04a"
  have began : balance loopEnv.amounts (packingNodeWith TxPool.empty).balances "04a" =
      some 20000000 := by decide +kernel
  rw [began] at balances
  exact ⟨l, ran, added, balances, le_trans (by decide +kernel) lower,
    upper.trans (by decide +kernel)⟩

end ClosedLoop

end Ruccoin
