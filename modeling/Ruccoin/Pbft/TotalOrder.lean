import Ruccoin.Pbft.Validity

/-!
# The order of executions

`CheckSeqNumber` accepts every message, so `Reply` executes whichever proposal first has a
body and a quorum. A replica executes in the order of the numbers exactly when each Commit
that completes a proposal finds the lower ones committed.

A handler call is one step, and a message arrives when its handler takes it up.
-/

namespace Ruccoin.Pbft.World

open Transition PBFTHandler

variable {c : Crypto} {conf : Config} {w w' : World}

/-- The next request is submitted after `GetRequest` returned for those before. -/
def Sequential (w : World) : Label → Prop
  | .request i _ => ∀ s < (w.replicas i).nextProposalSeq,
      (w.replicas i).requestCompleted s = true
  | _ => True

instance (w : World) : (a : Label) → Decidable (w.Sequential a)
  | .request i _ => inferInstanceAs (Decidable (∀ s < (w.replicas i).nextProposalSeq,
      (w.replicas i).requestCompleted s = true))
  | .deliver .. => isTrue trivial
  | .inject .. => isTrue trivial

/-- A fault-free run whose requests are submitted one at a time. -/
def OneAtATime (conf : Config) (w : World) (a : Label) : Prop :=
  w.Benign conf a ∧ w.Sequential a

instance (conf : Config) (w : World) (a : Label) : Decidable (w.OneAtATime conf a) :=
  inferInstanceAs (Decidable (_ ∧ _))

/-- With this Commit replica `i` has a quorum for a proposal that it has not executed and
whose body it knows. -/
abbrev Completes (w : World) (i : Nat) (m : Message) : Prop :=
  let p := ((w.replicas i).findOrCreate m).updateInfo m
  p.checkVotes m.mtype = true ∧ p.committed = false ∧ p.body ≠ ""

/-- A Commit that completes a proposal whose body is known arrives when the lower numbers
are committed. -/
def InTurn (w : World) : Label → Prop
  | .deliver k i _ => ∀ m ∈ w.sent[k]?, m.mtype = .commit → w.Completes i m →
      ∀ s < m.seq, ((w.replicas i).proposal s).committed = true
  | _ => True

instance (w : World) : (a : Label) → Decidable (w.InTurn a)
  | .deliver k i _ => inferInstanceAs (Decidable (∀ m ∈ w.sent[k]?, m.mtype = .commit →
      w.Completes i m → ∀ s < m.seq, ((w.replicas i).proposal s).committed = true))
  | .request .. => isTrue trivial
  | .inject .. => isTrue trivial

/-- The numbers a replica executed are the first ones, in order. -/
def InOrder (w : World) (i : Nat) : Prop :=
  (executions w.history i).map Prod.fst = List.range (executions w.history i).length

/-- Every replica executes the numbers in order without a gap, and of any two replicas one
executed an initial part of what the other did. -/
def TotalOrder (w : World) : Prop :=
  (∀ i, w.InOrder i) ∧ ∀ i j, executions w.history i <+: executions w.history j ∨
    executions w.history j <+: executions w.history i

/-- Two numbered lists that agree on every number: the shorter is a prefix. -/
theorem prefix_of_agree {β : Type*} {xs ys : List (Nat × β)}
    (numbered : xs.map Prod.fst = List.range xs.length)
    (numbered' : ys.map Prod.fst = List.range ys.length)
    (agree : ∀ s b b', (s, b) ∈ xs → (s, b') ∈ ys → b = b') (le : xs.length ≤ ys.length) :
    xs <+: ys := by
  -- the number of an element is its index
  have number : ∀ {zs : List (Nat × β)}, zs.map Prod.fst = List.range zs.length →
      ∀ {k : Nat} {z : Nat × β}, zs[k]? = some z → z.1 = k := by
    intro zs numbered k z found
    have first : (zs.map Prod.fst)[k]? = some z.1 := by rw [List.getElem?_map, found]; rfl
    rw [numbered, List.getElem?_range (List.getElem?_eq_some_iff.mp found).1] at first
    exact (Option.some.inj first).symm
  rw [List.prefix_iff_getElem?]
  intro k bound
  have foundX : xs[k]? = some xs[k] := List.getElem?_eq_getElem bound
  have foundY : ys[k]? = some ys[k] := List.getElem?_eq_getElem (by omega)
  have memberX : (k, xs[k].2) ∈ xs := by
    have member : (xs[k].1, xs[k].2) ∈ xs := List.getElem_mem bound
    rwa [number numbered foundX] at member
  have memberY : (k, ys[k].2) ∈ ys := by
    have member : (ys[k].1, ys[k].2) ∈ ys := List.getElem_mem (by omega)
    rwa [number numbered' foundY] at member
  have body := agree k _ _ memberX memberY
  have same : xs[k] = ys[k] :=
    Prod.ext ((number numbered foundX).trans (number numbered' foundY).symm) body
  rw [foundY, same]

/-- Replicas that each execute in order execute the same sequence, as far as they are. -/
theorem totalOrder_of_inOrder (reached : Reach (step c conf) (Benign conf) (init conf) w)
    (inOrder : ∀ i, w.InOrder i) : w.TotalOrder := by
  refine ⟨inOrder, fun i j => ?_⟩
  have one := one_execution (Benign.trusted reached)
  have agree : ∀ i j s b b', (s, b) ∈ executions w.history i →
      (s, b') ∈ executions w.history j → b = b' := by
    intro i j s b b' listed listed'
    exact one i j s b b' (mem_executions.mp listed) (mem_executions.mp listed')
  rcases Nat.le_total (executions w.history i).length (executions w.history j).length with
    le | le
  · exact Or.inl (prefix_of_agree (inOrder i) (inOrder j) (agree i j) le)
  · exact Or.inr (prefix_of_agree (inOrder j) (inOrder i) (agree j i) le)

/-- What a replica has committed is what it has executed. -/
theorem committed_iff_executed {guard : World → Label → Prop}
    (reached : Reach (step c conf) guard (init conf) w) (i s : Nat) :
    ((w.replicas i).proposal s).committed = true ↔
      s ∈ (executions w.history i).map Prod.fst := by
  rw [(flags_reported reached i s).committed, List.mem_map]
  constructor
  · rintro ⟨b, did⟩
    exact ⟨(s, b), mem_executions.mpr did, rfl⟩
  · rintro ⟨⟨s', b⟩, listed, rfl⟩
    exact ⟨b, mem_executions.mp listed⟩

/-- One step: if it is in turn, a replica that executes in order continues to. -/
theorem inOrder_step {a : Label} (reached : Reach (step c conf) (Benign conf) (init conf) w)
    (allowed : w.Benign conf a) (turn : w.InTurn a) (taken : step c conf w a = some w')
    {i : Nat} (inOrder : w.InOrder i) : w'.InOrder i := by
  obtain ⟨j, source, h, effects, -, rfl, ran⟩ := step_cases taken
  unfold InOrder at inOrder ⊢
  rw [executions_record]
  by_cases here : j = i
  · subst here
    rw [if_pos rfl]
    cases execution : effects.filterMap Effect.execution with
    | nil =>
      -- nothing was executed
      rw [List.append_nil]
      exact inOrder
    | cons first rest =>
      obtain ⟨s, b⟩ := first
      have reported : .commitAction s b ∈ effects := by
        rw [← mem_execution, execution]
        exact List.mem_cons_self
      obtain ⟨k, m, master, rfl, rfl, found, type, rfl, only, ran⟩ :=
        ran.executes allowed.1 reported
      have single : (m.seq, b) :: rest = [(m.seq, b)] := by rw [← execution, only]; rfl
      rw [single]
      -- the number is not executed yet, and all the lower ones are
      have fresh : m.seq ∉ (executions w.history j).map Prod.fst := by
        rw [← committed_iff_executed reached, Bool.not_eq_true]
        exact ((call_flags (a := .reply m) ran m.seq).commitAction b reported).1
      have lower : ∀ s < m.seq, s ∈ (executions w.history j).map Prod.fst := by
        intro s below
        rw [← committed_iff_executed reached]
        refine turn m found type ?_ s below
        rcases reply_cases ran with
          ⟨-, silent, -⟩ | ⟨p, same, rfl, ⟨-, silent, -⟩ | ⟨quorum, unset, body, -, -⟩⟩
        · rw [silent] at reported; cases reported
        · rw [silent] at reported; cases reported
        · exact ⟨quorum, unset, body⟩
      -- and the only such number is the next one
      have next : m.seq = (executions w.history j).length := by
        rw [inOrder, List.mem_range] at fresh
        have notPast : ¬(executions w.history j).length < m.seq := by
          intro past
          have impossible := lower _ past
          rw [inOrder, List.mem_range] at impossible
          omega
        omega
      simp [inOrder, List.range_succ, next]
  · rw [if_neg here, List.append_nil]
    exact inOrder

/-- One step back: a step after which a replica has executed in order was in turn. -/
theorem inTurn_of_inOrder {a : Label} (reached : Reach (step c conf) (Benign conf) (init conf) w)
    (taken : step c conf w a = some w') (inOrder : ∀ i, w'.InOrder i) : w.InTurn a := by
  obtain ⟨j, source, h, effects, -, rfl, ran⟩ := step_cases taken
  cases ran with
  | request => exact trivial
  | inject => exact trivial
  | prepare found type =>
    -- only a Commit has a turn
    intro m member wrong
    obtain rfl := Option.some.inj (found.symm.trans member)
    rw [type] at wrong; cases wrong
  | commit found type =>
    intro m member wrong
    obtain rfl := Option.some.inj (found.symm.trans member)
    rw [type] at wrong; cases wrong
  | @reply j k m master h effects found type ran =>
    intro m' member _ executes s below
    obtain rfl := Option.some.inj (found.symm.trans member)
    -- `Reply` accepts the message and executes the proposal
    have valid := sent_valid reached (List.mem_of_getElem? found)
    obtain ⟨same, replies⟩ := reply_of_valid (h := w.replicas j) valid
    rw [replies] at ran
    dsimp only at ran
    rw [if_pos executes] at ran
    obtain ⟨-, rfl⟩ := Prod.mk.inj (Except.ok.inj ran)
    have ordered := inOrder j
    unfold InOrder at ordered
    rw [show executions (w.record j (some k) h _).history j = executions w.history j ++
        [(m.seq, (((w.replicas j).findOrCreate m).updateInfo m).body)] by
      simp [executions_record, Effect.execution]] at ordered
    rw [List.map_append, List.length_append, List.length_singleton, List.range_succ] at ordered
    obtain ⟨before, last⟩ := List.append_inj' ordered rfl
    rw [committed_iff_executed reached, before, List.mem_range]
    -- the lower numbers are those executed before
    have number : m.seq = (executions w.history j).length := by simpa using last
    omega

/-- What is in order after a step was in order before: an initial part of an ordered list is
ordered. -/
theorem inOrder_before {a : Label} (taken : step c conf w a = some w') {i : Nat}
    (inOrder : w'.InOrder i) : w.InOrder i := by
  obtain ⟨j, source, h, effects, -, rfl, -⟩ := step_cases taken
  unfold InOrder at inOrder ⊢
  rw [executions_record] at inOrder
  have initial := congrArg (List.take (executions w.history i).length) inOrder
  rw [List.map_append, List.take_left' (by simp), List.take_range] at initial
  simpa using initial

/-- A run executes in one total order exactly when every Commit that completes a proposal
arrives in its turn. -/
theorem total_order_iff (run : List Label)
    (meets : Meets (step c conf) (OneAtATime conf) (init conf) run)
    (ran : exec (step c conf) (init conf) run = some w) :
    w.TotalOrder ↔ Meets (step c conf) InTurn (init conf) run := by
  have benign : ∀ {w : World}, Reach (step c conf) (OneAtATime conf) (init conf) w →
      Reach (step c conf) (Benign conf) (init conf) w :=
    fun reached => reached.mono fun _ _ allowed => allowed.1
  suffices ordered : (∀ i, w.InOrder i) ↔ Meets (step c conf) InTurn (init conf) run by
    rw [← ordered]
    exact ⟨fun total => total.1, totalOrder_of_inOrder (benign (reach_of_exec meets ran))⟩
  induction run using List.reverseRecOn generalizing w with
  | nil =>
    cases ran
    exact ⟨fun _ => trivial, fun _ i => rfl⟩
  | append_singleton run a ih =>
    obtain ⟨before, ran, taken⟩ := exec_concat.mp ran
    obtain ⟨meets, last⟩ := (meets_append _ _ _).mp meets
    have reached := benign (reach_of_exec meets ran)
    have allowed : before.Benign conf a := (last before ran).1.1
    rw [meets_append, ← ih meets ran]
    constructor
    · intro inOrder
      refine ⟨?_, ?_⟩
      · intro i
        exact inOrder_before taken (inOrder i)
      · intro s ran'
        obtain rfl := Option.some.inj (ran.symm.trans ran')
        exact ⟨inTurn_of_inOrder reached taken inOrder, by rw [taken]; trivial⟩
    · rintro ⟨inOrder, turn⟩ i
      exact inOrder_step reached allowed (turn before ran).1 taken (inOrder i)

/-- Two requests at the only replica, the second after the first was executed. -/
def queuedRun : List Label :=
  [.request 0 ⟨0, 0, "A"⟩, .deliver 0 0 approving, .deliver 1 0 approving,
    .deliver 2 0 approving, .request 0 ⟨0, 1, "B"⟩, .deliver 3 0 approving,
    .deliver 4 0 approving, .deliver 5 0 approving]

theorem total_order_queued :
    ∃ w, exec (step sampleCrypto (sampleConfig 1)) (init (sampleConfig 1)) queuedRun = some w ∧
      executions w.history 0 = [(0, "A"), (1, "B")] ∧ w.TotalOrder := by
  obtain ⟨w, ran, executed⟩ := exec_of_run
    (step sampleCrypto (sampleConfig 1)) (init (sampleConfig 1))
    queuedRun
    (p := fun w => decide (executions w.history 0 = [(0, "A"), (1, "B")])) (by decide +kernel)
  refine ⟨w, ran, of_decide_eq_true executed, ?_⟩
  exact (total_order_iff queuedRun (by decide +kernel) ran).mpr (by decide +kernel)

/-- Replica 1 hears of the second request only: its messages overtake those of the first,
which the primary executed long ago. -/
def overtakingRun : List Label :=
  [.request 0 ⟨0, 0, "A"⟩, .deliver 0 0 approving, .deliver 1 0 approving,
    .deliver 2 0 approving, .request 0 ⟨0, 1, "B"⟩, .deliver 3 1 approving,
    .deliver 4 1 approving, .deliver 5 1 approving]

theorem overtaken :
    ∃ w, Reach (step sampleCrypto (sampleConfig 2)) (OneAtATime (sampleConfig 2))
      (init (sampleConfig 2)) w ∧ executions w.history 1 = [(1, "B")] ∧ ¬w.TotalOrder := by
  obtain ⟨w, ran, executed⟩ := exec_of_run
    (step sampleCrypto (sampleConfig 2)) (init (sampleConfig 2))
    overtakingRun
    (p := fun w => decide (executions w.history 1 = [(1, "B")])) (by decide +kernel)
  have only : executions w.history 1 = [(1, "B")] := of_decide_eq_true executed
  refine ⟨w, reach_of_exec (by decide +kernel) ran, only, fun total => ?_⟩
  have inOrder := total.1 1
  unfold InOrder at inOrder
  rw [only] at inOrder
  exact absurd inOrder (by decide)

end Ruccoin.Pbft.World
