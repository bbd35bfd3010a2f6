import Ruccoin.Deployment.System
import Mathlib.Data.List.Sort

/-!
# Blocks are checked long before they are applied

A block is checked when its pre-prepare arrives and applied, without another check, when
its Commits do. What happens in between decides whether the check still means anything: it
does when the pre-prepare arrived with exactly the lower numbers executed. A handler call,
with what the coin node does for it, is one step, and a message arrives when it is handled.

## Main result

`no_stale_validation`: if no block is approved before its predecessors are applied, and no
block is applied before its predecessors, then each block would be accepted once more just
before it is applied.

## Proof strategy

The coin node of a replica is determined by the bodies it executed (`replayed`). A replica
that executes a number in order and one that approved of its body in time have executed the
same bodies, so the approval was given by an equal coin node.
-/

namespace Ruccoin.Deployment

open Pbft Coin Transition

variable {D : Type} [Add D] [Sub D] [LT D] [DecidableLT D] [Double D]
  {env : Env D} {conf : Config} {node : CoinNode D} {d : Deployment D}

/-- Replica `i` executed proposals in the order of their numbers. -/
def Ascending (d : Deployment D) (i : Nat) : Prop := (d.numbers i).Pairwise (· < ·)

instance (d : Deployment D) (i : Nat) : Decidable (d.Ascending i) :=
  inferInstanceAs (Decidable ((d.numbers i).Pairwise (· < ·)))

/-- On every replica that executes in order, each block applied would have been accepted on
the balances and the chain just before. -/
def NoStale (env : Env D) (d : Deployment D) : Prop :=
  ∀ c ∈ d.commitments, d.Ascending c.replica → c.node.checkProposal env c.body = .ok true

/-- A pre-prepare whose block is accepted arrives when exactly the lower numbers have been
executed, in order. A Commit that completes a proposal whose body is known arrives when all
the lower numbers have been executed, unless a higher one has been as well. -/
def Timely (env : Env D) (d : Deployment D) : Label D → Prop
  | .deliver k i => ∀ m ∈ d.world.sent[k]?,
      (m.mtype = .preprepare →
        (d.nodes i).checkProposal env ((d.world.replicas i).storeBody m).body = .ok true →
          d.numbers i = List.range m.seq) ∧
      (m.mtype = .commit → d.world.Completes i m →
        (∀ s < m.seq, s ∈ d.numbers i) ∨ ∃ s ∈ d.numbers i, m.seq < s)
  | _ => True

instance (d : Deployment D) : (a : Label D) → Decidable (d.Timely env a)
  | .deliver k i => inferInstanceAs (Decidable (∀ m ∈ d.world.sent[k]?,
      (m.mtype = .preprepare →
        (d.nodes i).checkProposal env ((d.world.replicas i).storeBody m).body = .ok true →
          d.numbers i = List.range m.seq) ∧
      (m.mtype = .commit → d.world.Completes i m →
        (∀ s < m.seq, s ∈ d.numbers i) ∨ ∃ s ∈ d.numbers i, m.seq < s)))
  | .addTransx .. => isTrue trivial
  | .request .. => isTrue trivial

/-- A run without faulty replicas in which every message is timely. -/
def Orderly (env : Env D) (conf : Config) (d : Deployment D) (a : Label D) : Prop :=
  d.Benign conf a ∧ d.Timely env a

instance (d : Deployment D) (a : Label D) : Decidable (d.Orderly env conf a) :=
  inferInstanceAs (Decidable (_ ∧ _))

/-! ### Approvals -/

/-- The body was accepted by a node that had committed the bodies of the numbers below `s`,
which replica `v` had executed. -/
def Approved (env : Env D) (node : CoinNode D) (d : Deployment D) (v s : Nat) (b : String) : Prop :=
  ∃ executed : List (Nat × String), executed.map Prod.fst = List.range s ∧
    (∀ e ∈ executed, Did d.world.history v (.commitAction e.1 e.2)) ∧
    (node.commitAll env (executed.map Prod.snd)).state.checkProposal env b = .ok true

theorem Approved.mono {d d' : Deployment D} {v s : Nat} {b : String}
    (later : ∀ e, Did d.world.history v e → Did d'.world.history v e)
    (approved : Approved env node d v s b) : Approved env node d' v s b := by
  obtain ⟨executed, numbers, did, accepted⟩ := approved
  exact ⟨executed, numbers, fun e member => later _ (did e member), accepted⟩

/-- What the coin node of a replica accepts is accepted after committing what the replica
executed. -/
theorem checkProposal_replayed {guard : Deployment D → Label D → Prop}
    (reached : Reach (step env conf) guard (init conf node) d) (i : Nat) (b : String) :
    (d.nodes i).checkProposal env b =
      (node.commitAll env (d.bodies i)).state.checkProposal env b := by
  rw [(replayed reached i).state]

/-- The verdict a pre-prepare was answered with is that of the coin node. -/
theorem checked_by_node {d' : Deployment D} {a : Pbft.Label} {a₀ : Label D} {i : Nat}
    {source : Option Nat} {h : PBFTHandler} {effects : List Effect}
    (called : d.call env a₀ = some a) (ran : World.Ran env.crypto d.world a i source h effects)
    (served : Served env d d' i effects) {s : Nat} {b : String}
    (reported : .checkProposal s b true ∈ effects) :
    ∃ k m, a₀ = .deliver k i ∧ d.world.sent[k]? = some m ∧ m.mtype = .preprepare ∧ m.seq = s ∧
      ((d.world.replicas i).storeBody m).body = b ∧
      (d.nodes i).checkProposal env b = .ok true := by
  obtain ⟨k, m, master', rfl, rfl, found, type, rfl, prepared⟩ :=
    ran.checks (faultFree_call called) reported
  obtain ⟨_, _, same, -, body, stored, verdict⟩ :=
    PBFTHandler.call_checkProposal (a := .prepare _ _) prepared reported
  cases same
  -- the master that was asked is the coin node of the same replica
  have own : a₀ = .deliver k i ∧ master' = master env (d.nodes i) := by
    cases a₀ with
    | addTransx j tx => cases called
    | request j req => cases called
    | deliver k' dst => cases called; exact ⟨rfl, rfl⟩
  obtain ⟨rfl, rfl⟩ := own
  refine ⟨k, m, rfl, found, type, rfl, ?_, ?_⟩
  · rw [stored]
    exact PBFTHandler.storeBody_body ..
  · cases served with
    | committed s' b' only => rw [only] at reported; cases List.mem_singleton.mp reported
    | quiet _ _ _ _ answered =>
      -- the node answered, so the verdict is no RPC error
      obtain ⟨verdict', answer⟩ := answered _ _ _ reported
      unfold PBFTHandler.checkProposal master at verdict
      rw [body, answer] at verdict
      rw [answer, verdict]

theorem approved (reached : Reach (step env conf) (Orderly env conf) (init conf node) d)
    {v s : Nat} {b : String} (did : Did d.world.history v (.checkProposal s b true)) :
    Approved env node d v s b := by
  induction reached with
  | start => simp [init, World.init, Did] at did
  | @step before after a reached allowed taken ih =>
    rcases step_cases taken with
      ⟨j, tx, -, -, rfl⟩ | ⟨a', j, source, h, effects, called, stepped, ran, world, served⟩
    · exact ih did
    · have later : ∀ e, Did before.world.history v e → Did after.world.history v e := by
        intro e old
        rw [world]
        exact (World.did_record ..).mpr (Or.inr old)
      rw [world] at did
      rcases (World.did_record ..).mp did with ⟨rfl, new⟩ | old
      · -- approved now, with exactly the lower numbers executed
        obtain ⟨k, m, rfl, found, type, rfl, body, accepted⟩ :=
          checked_by_node called ran served new
        have numbers := (allowed.2 m found).1 type (by rw [body]; exact accepted)
        refine Approved.mono later ⟨World.executions before.world.history j, numbers, ?_, ?_⟩
        · exact fun e member => World.mem_executions.mp member
        · rw [checkProposal_replayed reached] at accepted
          exact accepted
      · exact (ih old).mono later

/-! ### Executions in order -/

/-- Ascending numbers, none of them past `s` and none below it missing. -/
theorem eq_range_of_ascending {numbers : List Nat} {s : Nat}
    (ascending : (numbers ++ [s]).Pairwise (· < ·)) (all : ∀ t < s, t ∈ numbers) :
    numbers = List.range s := by
  obtain ⟨ordered, -, below⟩ := List.pairwise_append.mp ascending
  refine ordered.eq_of_mem_iff List.pairwise_lt_range fun t => ?_
  rw [List.mem_range]
  exact ⟨fun member => below t member s (List.mem_singleton.mpr rfl), all t⟩

omit [Add D] in
/-- A replica that executes a block in order has executed exactly the lower numbers. -/
theorem numbers_of_executes {d' : Deployment D} {a₀ : Label D} {a : Pbft.Label} {i : Nat}
    {source : Option Nat} {h : PBFTHandler} {effects : List Effect}
    (timely : d.Timely env a₀) (called : d.call env a₀ = some a)
    (ran : World.Ran env.crypto d.world a i source h effects)
    (world : d'.world = d.world.record i source h effects) {s : Nat} {b : String}
    (reported : .commitAction s b ∈ effects) (ascending : d'.Ascending i) :
    d.numbers i = List.range s := by
  obtain ⟨k, m, master', rfl, rfl, found, type, rfl, only, replied⟩ :=
    ran.executes (faultFree_call called) reported
  have appended : d'.numbers i = d.numbers i ++ [m.seq] := by
    unfold numbers
    rw [world, World.executions_record, if_pos rfl, only]
    simp [World.Effect.execution]
  unfold Ascending at ascending
  rw [appended] at ascending
  apply eq_range_of_ascending ascending
  obtain ⟨k', dst, rfl⟩ : ∃ k' dst, a₀ = .deliver k' dst := by
    cases a₀ with
    | addTransx j tx => cases called
    | request j req => cases called
    | deliver k' dst => exact ⟨k', dst, rfl⟩
  cases called
  -- the message is a Commit that completes the proposal
  rcases PBFTHandler.reply_cases replied with
    ⟨-, silent, -⟩ | ⟨p, same, rfl, ⟨-, silent, -⟩ | ⟨quorum, unset, body, -, -⟩⟩
  · rw [silent] at reported; cases reported
  · rw [silent] at reported; cases reported
  · rcases (timely m found).2 type ⟨quorum, unset, body⟩ with lower | ⟨t, member, higher⟩
    · exact lower
    · -- a higher number executed earlier would be out of order
      have below := (List.pairwise_append.mp ascending).2.2 t member m.seq (by simp)
      omega

/-- A replica that executes in order an approved block finds it acceptable. -/
theorem accepted_of_approved
    (reached : Reach (step env conf) (Orderly env conf) (init conf node) d)
    {i v s : Nat} {b : String} (numbers : d.numbers i = List.range s)
    (approval : Approved env node d v s b) : (d.nodes i).checkProposal env b = .ok true := by
  obtain ⟨executed, executedNumbers, did, accepted⟩ := approval
  have one := World.one_execution
    (World.Benign.trusted (world_reached (fun _ _ allowed => allowed.1) reached))
  -- two replicas that executed the same numbers executed the same bodies
  have same : executed = World.executions d.world.history i := by
    have lengths : executed.length = (World.executions d.world.history i).length := by
      have mapped := congrArg List.length (executedNumbers.trans numbers.symm)
      rw [List.length_map, Deployment.numbers, List.length_map] at mapped
      exact mapped
    apply List.IsPrefix.eq_of_length _ lengths
    apply World.prefix_of_agree
    · rw [executedNumbers, ← List.length_map (f := Prod.fst), executedNumbers, List.length_range]
    · have length : (World.executions d.world.history i).length = s := by
        rw [← List.length_map (f := Prod.fst)]
        exact (congrArg List.length numbers).trans List.length_range
      rw [length]
      exact numbers
    · intro t c c' listed listed'
      exact one v i t c c' (did (t, c) listed) (World.mem_executions.mp listed')
    · exact lengths.le
  rw [checkProposal_replayed reached, bodies, ← same]
  exact accepted

/-! ### The main result -/

/-- An orderly step applies only a block that would be accepted, if it is in order. -/
theorem noStale_step {d' : Deployment D} {a : Label D}
    (reached : Reach (step env conf) (Orderly env conf) (init conf node) d)
    (fresh : d.NoStale env) (allowed : d.Orderly env conf a)
    (taken : step env conf d a = some d') : d'.NoStale env := by
  rcases step_cases taken with
    ⟨j, tx, -, -, rfl⟩ | ⟨a', j, source, h, effects, called, stepped, ran, world, served⟩
  · exact fresh
  · have benign := world_reached (fun _ _ allowed => allowed.1) reached
    have allowed' : d.world.Benign conf a' := benign_call called allowed.1
    intro c member ascending
    -- what is in order after the step was in order before it
    have earlier : d.Ascending c.replica := by
      unfold Ascending numbers at ascending ⊢
      rw [world, World.executions_record, List.map_append] at ascending
      exact (List.pairwise_append.mp ascending).1
    cases served with
    | quiet _ _ _ same =>
      rw [same] at member
      exact fresh c member earlier
    | committed s b only running nodes stopped recorded =>
      rw [recorded] at member
      rcases List.mem_cons.mp member with rfl | old
      · -- a quorum approved of the block, on coin nodes equal to this one
        have reported : .commitAction s b ∈ effects := by
          rw [only]
          exact List.mem_singleton_self _
        have numbers := numbers_of_executes allowed.2 called ran world reported ascending
        obtain ⟨-, ⟨voters, large, approval⟩, -⟩ :=
          World.executes_certified benign allowed' stepped ran reported
        obtain ⟨v, voted⟩ : voters.Nonempty := Finset.card_pos.mp (by omega)
        exact accepted_of_approved reached numbers (approved reached (approval v voted).2)
      · exact fresh c old earlier

/-- In an orderly run each block that a replica applies in order would be accepted by the
check just before. -/
theorem no_stale_validation
    (reached : Reach (step env conf) (Orderly env conf) (init conf node) d) : d.NoStale env := by
  apply reached.invariant (P := NoStale env)
  · intro c member
    cases member
  · intro d a d' reached fresh allowed taken
    exact noStale_step reached fresh allowed taken

/-! ### Two runs -/

/-- A payment of all the coins of an account, another of the same coins, and the return of
the first in the block after it. -/
def paid : Block := sampleBlock 1 "genesis" "h1" [samplePayment 1 "a" "04b"]

def paidAgain : Block := sampleBlock 1 "genesis" "h2" [samplePayment 2 "a" "04b"]

def returned : Block := sampleBlock 2 "h1" "h2" [samplePayment 3 "b" "04a"]

/-- The proposal of a block: its JSON text. -/
def text (block : Block) : String := (sampleEnv []).json.dump block.toJson

/-- The libraries on these three blocks, with the SHA-256 digests of their texts. -/
def deployedEnv : Env :=
  { sampleEnv [paid, paidAgain, returned] with
    crypto := sampleCryptoWith (sampleDigests ++
      [(text paid, "365d65472d56db275ca23d0435045a16a4314a40f07cf7db0cd44c3b4442af9d"),
        (text paidAgain, "806ab3ef64511838f50b6514fecccbaabf1f4c95ed4ada3ae4cfae01fb09a341"),
        (text returned, "3da07b80414e17304cc7f89529c015b57e5d5afc0af9a517a6992e530cfcf05a")]) }

/-- Two replicas apply a block before the next one is proposed. -/
def oneByOne : List Label :=
  [.request 0 ⟨0, 1, text paid⟩, .deliver 0 0, .deliver 0 1, .deliver 1 0, .deliver 1 1,
    .deliver 3 0, .deliver 3 1, .request 0 ⟨0, 2, text returned⟩, .deliver 5 0, .deliver 5 1,
    .deliver 6 0, .deliver 6 1, .deliver 8 0, .deliver 8 1]

theorem no_stale_validation_oneByOne :
    ∃ d, exec (step deployedEnv (sampleConfig 2)) (init (sampleConfig 2) sampleNode) oneByOne =
        some d ∧ (d.Ascending 0 ∧ d.bodies 0 = [text paid, text returned] ∧
      d.Ascending 1 ∧ d.bodies 1 = [text paid, text returned]) ∧ d.NoStale deployedEnv := by
  obtain ⟨d, ran, executed⟩ := exec_of_run (step deployedEnv (sampleConfig 2))
    (init (sampleConfig 2) sampleNode) oneByOne
    (p := fun d => decide (d.Ascending 0 ∧ d.bodies 0 = [text paid, text returned] ∧
      d.Ascending 1 ∧ d.bodies 1 = [text paid, text returned])) (by decide +kernel)
  refine ⟨d, ran, of_decide_eq_true executed, ?_⟩
  have orderly : Meets (step deployedEnv (sampleConfig 2)) (Orderly deployedEnv (sampleConfig 2))
      (init (sampleConfig 2) sampleNode) oneByOne := by decide +kernel
  exact no_stale_validation (reach_of_exec orderly ran)

/-- Both payments are proposed, and found valid, before either is applied. -/
def overlapping : List Label :=
  [.request 0 ⟨0, 1, text paid⟩, .request 0 ⟨0, 2, text paidAgain⟩, .deliver 0 0, .deliver 1 0,
    .deliver 2 0, .deliver 3 0, .deliver 4 0, .deliver 5 0]

/-- The replica applies both blocks in order, though the check would reject the second by
then, and the same coins are spent twice. -/
theorem spent_twice :
    ∃ d, Reach (step deployedEnv (sampleConfig 2)) (Benign (sampleConfig 2))
        (init (sampleConfig 2) sampleNode) d ∧
      d.Ascending 0 ∧ d.bodies 0 = [text paid, text paidAgain] ∧
      balance sampleAmountText (d.nodes 0).balances "04a" = some (-10000000) ∧
      ¬d.NoStale deployedEnv := by
  obtain ⟨d, ran, facts⟩ := exec_of_run (step deployedEnv (sampleConfig 2))
    (init (sampleConfig 2) sampleNode) overlapping
    (p := fun d => decide (d.Ascending 0 ∧ d.bodies 0 = [text paid, text paidAgain] ∧
      balance sampleAmountText (d.nodes 0).balances "04a" = some (-10000000) ∧
      ∃ c ∈ d.commitments, c.replica = 0 ∧
        c.node.checkProposal deployedEnv c.body = .ok false)) (by decide +kernel)
  obtain ⟨ascending, bodies, spent, c, member, here, rejected⟩ := of_decide_eq_true facts
  refine ⟨d, reach_of_exec (by decide +kernel) ran, ascending, bodies, spent, fun fresh => ?_⟩
  have accepted := fresh c member (here ▸ ascending)
  rw [rejected] at accepted
  exact absurd accepted (by decide)

end Ruccoin.Deployment
