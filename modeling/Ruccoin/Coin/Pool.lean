import Ruccoin.Coin.Run

/-!
# What becomes of accepted transactions

`AddTransx` returns `true` for every transaction that validates, but the pool is a set whose
order compares the time stamp and the sender only. A second transaction of a sender within
one second finds its place taken and is not inserted, and a committed one takes every
equivalent one out of the pool with it.
-/

namespace Ruccoin.Coin

/-- The four fields that make up a payment. -/
def TX.SamePayment (a b : TX) : Prop :=
  a.timeStamp = b.timeStamp ∧ a.fromAddr = b.fromAddr ∧ a.toAddr = b.toAddr ∧ a.value = b.value

instance (a b : TX) : Decidable (a.SamePayment b) := inferInstanceAs (Decidable (_ ∧ _))

/-- One of the blocks lists the payment. -/
def PaidIn (blocks : List Block) (tx : TX) : Prop :=
  ∃ block ∈ blocks, ∃ u ∈ block.transxList, u.SamePayment tx

instance (blocks : List Block) (tx : TX) : Decidable (PaidIn blocks tx) :=
  inferInstanceAs (Decidable (∃ block ∈ blocks, ∃ u ∈ block.transxList, u.SamePayment tx))

theorem PaidIn.append {blocks : List Block} {tx : TX} (paid : PaidIn blocks tx)
    (rest : List Block) : PaidIn (blocks ++ rest) tx := by
  obtain ⟨block, member, listed⟩ := paid
  exact ⟨block, List.mem_append_left rest member, listed⟩

namespace NodeRun

open Transition

/-- Every accepted transaction is in the pool or in a committed block. -/
def Kept (r : NodeRun) : Prop :=
  ∀ tx ∈ r.accepted, tx ∈ r.node.txPool.txs ∨ PaidIn r.committed tx

/-- A transaction that validates finds its place in the pool free, or is there already, or
has been committed; and a committed block takes no accepted transaction out of the pool
whose payment is neither in it nor in an earlier block. -/
def Keeps (env : Env) (r : NodeRun) : NodeCall → Prop
  | .addTransx tx => tx.validateSignature env.crypto env.amounts = true →
      (∀ u ∈ r.node.txPool.txs, u.before tx ∨ tx.before u) ∨
        tx ∈ r.node.txPool.txs ∨ PaidIn r.committed tx
  | .packBlock _ _ => True
  | .commitProposal p => Result.Returns (env.parseBlock p) fun block =>
      Named env.amounts r.node.balances block.transxList →
        ∀ tx ∈ r.accepted, tx ∈ r.node.txPool.txs →
          (∃ u ∈ block.transxList, ¬tx.before u ∧ ¬u.before tx) →
            PaidIn (r.committed ++ [block]) tx

instance (env : Env) (r : NodeRun) : ∀ call, Decidable (Keeps env r call)
  | .addTransx tx => inferInstanceAs (Decidable (tx.validateSignature env.crypto env.amounts =
      true → (∀ u ∈ r.node.txPool.txs, u.before tx ∨ tx.before u) ∨
        tx ∈ r.node.txPool.txs ∨ PaidIn r.committed tx))
  | .packBlock _ _ => inferInstanceAs (Decidable True)
  | .commitProposal _ => inferInstanceAs (Decidable (Result.Returns _ _))

variable {env : Env} {r r' : NodeRun}

theorem kept_addTransx {tx : TX} (before : Kept r) :
    Kept (r.perform env (.addTransx tx)) ↔ Keeps env r (.addTransx tx) := by
  rw [perform_addTransx]
  split
  next valid =>
    constructor
    · intro after _
      rcases after tx (List.mem_append_right _ List.mem_cons_self) with pending | paid
      · rcases TxPool.mem_insert.mp pending with old | ⟨-, free⟩
        · exact Or.inr (Or.inl old)
        · exact Or.inl free
      · exact Or.inr (Or.inr paid)
    · intro place u member
      rcases List.mem_append.mp member with old | new
      · -- nothing leaves the pool
        exact (before u old).imp_left fun pending => TxPool.mem_insert.mpr (Or.inl pending)
      · obtain rfl := List.mem_singleton.mp new
        rcases place valid with free | pending | paid
        · exact Or.inl (TxPool.mem_insert.mpr (Or.inr ⟨rfl, free⟩))
        · exact Or.inl (TxPool.mem_insert.mpr (Or.inl pending))
        · exact Or.inr paid
  next invalid => exact iff_of_true before fun valid => absurd valid invalid

theorem kept_returned {block : Block} (done : Returned env r r' block) (before : Kept r) :
    Kept r' ↔ ∀ tx ∈ r.accepted, tx ∈ r.node.txPool.txs →
      (∃ u ∈ block.transxList, ¬tx.before u ∧ ¬u.before tx) →
        PaidIn (r.committed ++ [block]) tx := by
  unfold Kept
  rw [done.accepted, done.committed, done.txPool]
  constructor
  · rintro after tx member - ⟨u, listed, notBefore, notAfter⟩
    rcases after tx member with pending | paid
    · -- `u` takes `tx` out of the pool
      have apart := (TxPool.mem_foldl_erase.mp pending).2 u listed
      exact (apart.elim notBefore notAfter).elim
    · exact paid
  · intro listed tx member
    rcases before tx member with pending | paid
    · by_cases taken : ∃ u ∈ block.transxList, ¬tx.before u ∧ ¬u.before tx
      · exact Or.inr (listed tx member pending taken)
      · left
        refine TxPool.mem_foldl_erase.mpr ⟨pending, fun u within => ?_⟩
        by_contra same
        exact taken ⟨u, within, not_or.mp same⟩
    · exact Or.inr (paid.append [block])

theorem kept_step {call : NodeCall} (before : Kept r) (taken : step env r call = some r') :
    Kept r' ↔ Keeps env r call := by
  rw [step_perform taken]
  cases call with
  | addTransx tx => exact kept_addTransx before
  | packBlock random merkle =>
    rw [perform_packBlock]
    exact iff_of_true before trivial
  | commitProposal p =>
    cases parsed : env.parseBlock p with
    | error e =>
      rw [commit_unparsed parsed]
      refine iff_of_true before fun block returned => ?_
      rw [parsed] at returned
      cases returned
    | ok block =>
      simp only [Keeps, Result.Returns, parsed, Except.ok.injEq, forall_eq']
      by_cases named : Named env.amounts r.node.balances block.transxList
      · simp only [named, forall_const]
        exact kept_returned (commit_returned parsed named) before
      · -- the call has not reached the pool
        have stopped := commit_stopped (r := r) parsed named
        refine iff_of_true ?_ fun all => absurd all named
        unfold Kept
        rw [stopped.accepted, stopped.txPool, stopped.committed]
        exact before

/-- In a run every accepted transaction stays in the pool until its payment is committed
exactly when no transaction is turned away at the pool, or taken out of it, in favour of
another one of the same second and sender. -/
theorem accepted_kept_iff {node : PackingNode} {run : List NodeCall}
    (ran : exec (step env) (start node) run = some r) :
    Always (step env) Kept (start node) run ↔ Meets (step env) (Keeps env) (start node) run := by
  have noneYet : Kept (start node) := fun _ member => nomatch member
  exact always_iff_meets noneYet (fun _ _ _ _ before _ => kept_step before)
    (meets_true _ run) ran

/-- A block with the first of two submitted payments. -/
def orderlyBlock : Block := sampleBlock 1 "genesis" "h1" [samplePayment 1 "a" "04b"]

def orderlyRun : List NodeCall :=
  [.addTransx (samplePayment 1 "a" "04b"), .addTransx (samplePayment 3 "b" "04a"),
    .commitProposal ((sampleEnv [orderlyBlock]).json.dump orderlyBlock.toJson)]

theorem accepted_kept_orderly :
    ∃ r, exec (step (sampleEnv [orderlyBlock])) (start samplePackingNode) orderlyRun = some r ∧
      r.accepted.length = 2 ∧ r.node.txPool.txs = [samplePayment 3 "b" "04a"] ∧
      Always (step (sampleEnv [orderlyBlock])) Kept (start samplePackingNode) orderlyRun := by
  obtain ⟨r, ran, ends⟩ := exec_of_run (step (sampleEnv [orderlyBlock]))
    (start samplePackingNode) orderlyRun
    (p := fun r => decide (r.accepted.length = 2 ∧
      r.node.txPool.txs = [samplePayment 3 "b" "04a"])) (by decide +kernel)
  obtain ⟨accepted, pending⟩ := of_decide_eq_true ends
  exact ⟨r, ran, accepted, pending, (accepted_kept_iff ran).mpr (by decide +kernel)⟩

/-- Two payments of one second, to different recipients. -/
def crowdedRun : List NodeCall :=
  [.addTransx (samplePayment 1 "a" "04b"), .addTransx (samplePayment 1 "a" "04a")]

/-- Both are reported as added, and the second is nowhere. -/
theorem accepted_lost :
    ∃ r, exec (step (sampleEnv [])) (start samplePackingNode) crowdedRun = some r ∧
      r.accepted = [samplePayment 1 "a" "04b", samplePayment 1 "a" "04a"] ∧
      r.node.txPool.txs = [samplePayment 1 "a" "04b"] ∧ ¬Kept r := by
  obtain ⟨r, ran, ends⟩ := exec_of_run (step (sampleEnv [])) (start samplePackingNode) crowdedRun
    (p := fun r => decide (r.accepted = [samplePayment 1 "a" "04b", samplePayment 1 "a" "04a"] ∧
      r.node.txPool.txs = [samplePayment 1 "a" "04b"] ∧ r.committed = [])) (by decide +kernel)
  obtain ⟨accepted, pending, noBlock⟩ := of_decide_eq_true ends
  refine ⟨r, ran, accepted, pending, fun kept => ?_⟩
  rcases kept (samplePayment 1 "a" "04a") (by simp [accepted]) with inPool | ⟨block, member, -⟩
  · rw [pending] at inPool
    exact absurd inPool (by decide +kernel)
  · rw [noBlock] at member
    cases member

end NodeRun

end Ruccoin.Coin
