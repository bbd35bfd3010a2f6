import Mathlib.Data.Finset.Prod
import Ruccoin.Pbft.Completeness

/-!
# How much a run sends

A number costs one pre-prepare, and one Prepare and one Commit of each replica at most. So a
fault-free run broadcasts at most `2n + 1` messages for each number that was handed out, each
of them arrives `n` times at most, and when all proposals are approved of the run is over
exactly when it has taken that many calls.
-/

namespace Ruccoin.Pbft.World

open Transition PBFTHandler

variable {c : Crypto} {conf : Config} {w w' : World}

/-! ### Broadcasts -/

/-- How many numbers the primary has handed out. -/
def numbers (conf : Config) (w : World) : Nat :=
  (w.replicas conf.pbftPrimary).nextProposalSeq

/-- The ballots that can be cast for a number, each with its sender. -/
def ballots (conf : Config) : Finset (MType × Nat) :=
  insert (.preprepare, conf.pbftPrimary) ({.prepare, .commit} ×ˢ Finset.range conf.n)

theorem ballots_card (conf : Config) : (ballots conf).card = 2 * conf.n + 1 := by
  have fresh : (MType.preprepare, conf.pbftPrimary) ∉
      ({.prepare, .commit} : Finset MType) ×ˢ Finset.range conf.n := by
    simp
  rw [ballots, Finset.card_insert_of_notMem fresh, Finset.card_product, Finset.card_range]
  rfl

/-- The number, the type and the sender of a message. -/
def ballotOf (m : Message) : Nat × MType × Nat := (m.seq, m.mtype, m.replicaId)

theorem cast_nodup (reached : Reach (step c conf) (Benign conf) (init conf) w) :
    (w.sent.map ballotOf).Nodup := by
  refine List.pairwise_map.mpr ((sole reached).distinct.imp fun {m m'} distinct same => ?_)
  obtain ⟨seq, type, owner⟩ : m.seq = m'.seq ∧ m.mtype = m'.mtype ∧ m.replicaId = m'.replicaId := by
    simpa [ballotOf] using same
  exact distinct ⟨type, seq, owner⟩

theorem cast_expected (reached : Reach (step c conf) (Benign conf) (init conf) w) {m : Message}
    (sent : m ∈ w.sent) : ballotOf m ∈ Finset.range (w.numbers conf) ×ˢ ballots conf := by
  obtain ⟨req, did⟩ := sent_numbered reached sent
  have below := (numbering reached conf.pbftPrimary).below m.seq req did
  obtain ⟨bound, -, justified⟩ := sent_justified reached sent
  simp only [ballotOf, ballots, Finset.mem_product, Finset.mem_range, Finset.mem_insert,
    Finset.mem_singleton, Prod.mk.injEq]
  refine ⟨below, ?_⟩
  rcases justified with ⟨type, -⟩ | ⟨type, -⟩ | ⟨type, -⟩
  · exact Or.inl ⟨type, (preprepare_numbered (Benign.trusted reached) sent type).1⟩
  · exact Or.inr ⟨Or.inl type, bound⟩
  · exact Or.inr ⟨Or.inr type, bound⟩

theorem sent_le (reached : Reach (step c conf) (Benign conf) (init conf) w) :
    w.sent.length ≤ w.numbers conf * (2 * conf.n + 1) := by
  have within : (w.sent.map ballotOf).toFinset ⊆
      Finset.range (w.numbers conf) ×ˢ ballots conf := by
    intro ballot member
    obtain ⟨m, sent, rfl⟩ := List.mem_map.mp (List.mem_toFinset.mp member)
    exact cast_expected reached sent
  have fewer := Finset.card_le_card within
  rwa [List.toFinset_card_of_nodup (cast_nodup reached), List.length_map, Finset.card_product,
    Finset.card_range, ballots_card] at fewer

/-! ### Arrivals -/

/-- What was delivered, and where. -/
def deliveries (w : World) : List (Nat × Nat) :=
  w.history.filterMap fun e => e.source.map (·, e.replica)

theorem mem_deliveries {k i : Nat} : (k, i) ∈ w.deliveries ↔ w.Arrived k i := by
  simp only [deliveries, List.mem_filterMap, Arrived, Option.map_eq_some_iff, Prod.mk.injEq]
  constructor
  · rintro ⟨e, member, k', source, rfl, rfl⟩
    exact ⟨e, member, rfl, source⟩
  · rintro ⟨e, member, rfl, source⟩
    exact ⟨e, member, k, source, rfl, rfl⟩

/-- Every call is a request or a delivery, and no delivery is made twice. -/
structure Accounted (conf : Config) (w : World) : Prop where
  calls : w.history.length = w.numbers conf + w.deliveries.length
  nodup : w.deliveries.Nodup
  bound : ∀ k i, w.Arrived k i → i < conf.n

/-- A delivery hands out no number. -/
theorem numbers_delivered {a : Label} {i k : Nat} {h : PBFTHandler} {effects : List Effect}
    (ran : Ran c w a i (some k) h effects) :
    (w.record i (some k) h effects).numbers conf = w.numbers conf := by
  unfold numbers
  rw [record_replicas]
  split
  next here =>
    subst here
    obtain ⟨m, master, -, -, runs⟩ := ran.delivers
    rcases runs with ⟨-, ran⟩ | ⟨-, ran⟩ | ⟨-, ran⟩
    · exact call_nextProposalSeq (a := .prepare master m) ran
    · exact call_nextProposalSeq (a := .commit m) ran
    · exact call_nextProposalSeq (a := .reply m) ran
  next => rfl

theorem accounted_step {a : Label} (before : w.Accounted conf) (allowed : w.Benign conf a)
    (taken : step c conf w a = some w') : w'.Accounted conf := by
  obtain ⟨i, source, h, effects, bound, rfl, ran⟩ := step_cases taken
  have inRange : ∀ k j, (w.record i source h effects).Arrived k j → j < conf.n := by
    intro k j arrived
    rcases (arrived_record ..).mp arrived with ⟨rfl, -⟩ | old
    · exact bound
    · exact before.bound k j old
  have calls : (w.record i source h effects).history.length = w.history.length + 1 := rfl
  cases source with
  | none =>
    obtain ⟨req, rfl, called⟩ := ran.requests allowed.1
    obtain rfl : i = conf.pbftPrimary := allowed.2.1
    have handed : (w.record conf.pbftPrimary none h effects).numbers conf =
        w.numbers conf + 1 := by
      rw [numbers, record_self]
      exact call_nextProposalSeq (a := .getRequest req) called
    refine ⟨?_, before.nodup, inRange⟩
    rw [calls, handed, before.calls, Nat.add_right_comm]
    rfl
  | some k =>
    have delivered : (w.record i (some k) h effects).deliveries = (k, i) :: w.deliveries := rfl
    refine ⟨?_, ?_, inRange⟩
    · rw [calls, numbers_delivered ran, before.calls, delivered, List.length_cons, Nat.add_assoc]
    · rw [delivered, List.nodup_cons, mem_deliveries]
      exact ⟨ran.fresh allowed.2.2, before.nodup⟩

theorem accounted (reached : Reach (step c conf) (Benign conf) (init conf) w) :
    w.Accounted conf := by
  apply reached.invariant (P := Accounted conf)
  · exact ⟨rfl, List.nodup_nil, by simp [init, Arrived]⟩
  · intro w a w' _ before allowed taken
    exact accounted_step before allowed taken

/-- What has arrived after a delivery is its message, or had arrived before. -/
theorem arrived_deliver {guard : World → Label → Prop}
    (reached : Reach (step c conf) guard (init conf) w) {i j k k' : Nat} {m m' : Message}
    {h : PBFTHandler} {effects : List Effect} (source : w.sent[k']? = some m')
    (found : (w.record j (some k') h effects).sent[k]? = some m)
    (arrived : (w.record j (some k') h effects).Arrived k i) :
    (j = i ∧ k' = k ∧ m' = m) ∨ (w.sent[k]? = some m ∧ w.Arrived k i) := by
  rcases (arrived_record ..).mp arrived with ⟨here, same⟩ | old
  · obtain rfl := Option.some.inj same
    rw [sent_record source] at found
    exact Or.inl ⟨here, rfl, Option.some.inj found⟩
  · -- it arrived before, so it was broadcast before
    obtain ⟨m'', earlier⟩ := arrived_found reached old
    rw [sent_record earlier] at found
    exact Or.inr ⟨earlier.trans found, old⟩

theorem deliveries_within (reached : Reach (step c conf) (Benign conf) (init conf) w) :
    w.deliveries.toFinset ⊆ Finset.range w.sent.length ×ˢ Finset.range conf.n := by
  rintro ⟨k, i⟩ member
  have arrived := mem_deliveries.mp (List.mem_toFinset.mp member)
  obtain ⟨m, found⟩ := arrived_found reached arrived
  obtain ⟨below, -⟩ := List.getElem?_eq_some_iff.mp found
  exact Finset.mem_product.mpr
    ⟨Finset.mem_range.mpr below, Finset.mem_range.mpr ((accounted reached).bound k i arrived)⟩

theorem deliveries_card (reached : Reach (step c conf) (Benign conf) (init conf) w) :
    w.deliveries.toFinset.card = w.deliveries.length :=
  List.toFinset_card_of_nodup (accounted reached).nodup

theorem deliveries_le (reached : Reach (step c conf) (Benign conf) (init conf) w) :
    w.deliveries.length ≤ w.sent.length * conf.n := by
  have fewer := Finset.card_le_card (deliveries_within reached)
  rwa [deliveries_card reached, Finset.card_product, Finset.card_range, Finset.card_range] at fewer

/-- Everything has arrived when as many deliveries were made as there are broadcasts at
replicas. -/
theorem quiescent_iff_deliveries (reached : Reach (step c conf) (Benign conf) (init conf) w) :
    w.Quiescent conf ↔ w.deliveries.length = w.sent.length * conf.n := by
  have within := deliveries_within reached
  have all : (Finset.range w.sent.length ×ˢ Finset.range conf.n).card =
      w.sent.length * conf.n := by
    rw [Finset.card_product, Finset.card_range, Finset.card_range]
  constructor
  · intro quiet
    have covered : Finset.range w.sent.length ×ˢ Finset.range conf.n ⊆ w.deliveries.toFinset := by
      rintro ⟨k, i⟩ member
      obtain ⟨below, bound⟩ := Finset.mem_product.mp member
      exact List.mem_toFinset.mpr (mem_deliveries.mpr
        (quiet k (Finset.mem_range.mp below) i (Finset.mem_range.mp bound)))
    rw [← deliveries_card reached, ← all]
    exact congrArg Finset.card (within.antisymm covered)
  · intro many k below i bound
    have equal := Finset.eq_of_subset_of_card_le within
      (by rw [all, deliveries_card reached, many])
    refine mem_deliveries.mp (List.mem_toFinset.mp ?_)
    rw [equal]
    exact Finset.mem_product.mpr ⟨Finset.mem_range.mpr below, Finset.mem_range.mpr bound⟩

/-- A run takes so many calls at most. -/
theorem calls_le (reached : Reach (step c conf) (Benign conf) (init conf) w) :
    w.history.length ≤ w.numbers conf + w.numbers conf * (2 * conf.n + 1) * conf.n := by
  rw [(accounted reached).calls]
  have arrived : w.sent.length * conf.n ≤ w.numbers conf * (2 * conf.n + 1) * conf.n :=
    Nat.mul_le_mul_right _ (sent_le reached)
  exact Nat.add_le_add_left ((deliveries_le reached).trans arrived) _

/-- How many calls there can still be with the numbers handed out so far. -/
def callsLeft (conf : Config) (w : World) : Nat :=
  w.numbers conf + w.numbers conf * (2 * conf.n + 1) * conf.n - w.history.length

theorem callsLeft_delivered {a : Label} {i k : Nat} {h : PBFTHandler} {effects : List Effect}
    (ran : Ran c w a i (some k) h effects)
    (reached : Reach (step c conf) (Benign conf) (init conf) (w.record i (some k) h effects)) :
    (w.record i (some k) h effects).callsLeft conf < w.callsLeft conf := by
  have fewer := calls_le reached
  have more : (w.record i (some k) h effects).history.length = w.history.length + 1 := rfl
  unfold callsLeft
  rw [numbers_delivered ran] at fewer ⊢
  omega

/-! ### Runs in which every proposal is approved of -/

/-- When every message has arrived, every replica has cast its two votes for a number. -/
theorem quiescent_votes (reached : Reach (step c conf) (Supportive conf) (init conf) w)
    (quiet : w.Quiescent conf) {s : Nat} {req : Request}
    (did : Did w.history conf.pbftPrimary (.numbered s req)) {v : Nat} (member : v < conf.n) :
    (∃ m ∈ w.sent, m.mtype = .prepare ∧ m.seq = s ∧ m.replicaId = v) ∧
      ∃ m ∈ w.sent, m.mtype = .commit ∧ m.seq = s ∧ m.replicaId = v ∧
        m.digest = Message.getDigest c "" := by
  have benign := Supportive.benign reached
  have arrives : ∀ {m : Message}, m ∈ w.sent → ∀ i < conf.n,
      ∃ k, w.sent[k]? = some m ∧ w.Arrived k i := by
    intro m sent i bound
    obtain ⟨k, below, found⟩ := List.getElem_of_mem sent
    exact ⟨k, List.getElem?_eq_some_iff.mpr ⟨below, found⟩, quiet k below i bound⟩
  obtain ⟨pm, pmSent, pmType, rfl, -⟩ := numbered_sent benign did
  have answered : ∀ u < conf.n, ∃ m ∈ w.sent, m.mtype = .prepare ∧ m.seq = pm.seq ∧
      m.replicaId = u ∧ m.digest = Message.getDigest c pm.body := by
    intro u bound
    obtain ⟨k, found, arrived⟩ := arrives pmSent u bound
    exact (preprepare_answered reached found pmType arrived).2
  constructor
  · obtain ⟨m, sent, type, seq, owner, -⟩ := answered v member
    exact ⟨m, sent, type, seq, owner⟩
  · -- the Prepares have arrived at `v`, which is prepared and has said so
    have voted : ∀ u < conf.n, w.Voted v pm.seq .prepare (Message.getDigest c pm.body) u := by
      intro u bound
      obtain ⟨m, sent, type, seq, owner, digest⟩ := answered u bound
      obtain ⟨k, found, arrived⟩ := arrives sent v member
      exact ⟨k, m, found, type, seq, digest, owner, arrived⟩
    exact prepared_sent benign (quorum_prepared benign
      (quorum_of_all benign (Or.inl rfl) (Nat.one_le_of_lt member) voted))

/-- When every message has arrived, every ballot has been cast. -/
theorem quiescent_sent (reached : Reach (step c conf) (Supportive conf) (init conf) w)
    (quiet : w.Quiescent conf) : w.sent.length = w.numbers conf * (2 * conf.n + 1) := by
  have benign := Supportive.benign reached
  refine Nat.le_antisymm (sent_le benign) ?_
  have cast : Finset.range (w.numbers conf) ×ˢ ballots conf ⊆
      (w.sent.map ballotOf).toFinset := by
    rintro ⟨s, type, v⟩ member
    obtain ⟨below, ballot⟩ := Finset.mem_product.mp member
    obtain ⟨req, did⟩ := (numbering reached conf.pbftPrimary).all s (Finset.mem_range.mp below)
    suffices ∃ m ∈ w.sent, ballotOf m = (s, type, v) from
      List.mem_toFinset.mpr (List.mem_map.mpr this)
    rcases Finset.mem_insert.mp ballot with same | vote
    · obtain ⟨rfl, rfl⟩ := Prod.mk.inj same
      obtain ⟨m, sent, type, seq, -⟩ := numbered_sent benign did
      exact ⟨m, sent, by
        rw [ballotOf, seq, type, (preprepare_numbered (Benign.trusted benign) sent type).1]⟩
    · obtain ⟨kind, bound⟩ := Finset.mem_product.mp vote
      obtain ⟨⟨m, sent, type, seq, owner⟩, m', sent', type', seq', owner', -⟩ :=
        quiescent_votes reached quiet did (Finset.mem_range.mp bound)
      rcases Finset.mem_insert.mp kind with rfl | commit
      · exact ⟨m, sent, by rw [ballotOf, seq, type, owner]⟩
      · obtain rfl := Finset.mem_singleton.mp commit
        exact ⟨m', sent', by rw [ballotOf, seq', type', owner']⟩
  have fewer := Finset.card_le_card cast
  rwa [List.toFinset_card_of_nodup (cast_nodup benign), List.length_map, Finset.card_product,
    Finset.card_range, ballots_card] at fewer

/-- A run over `K` numbers broadcasts `K * (2 * n + 1)` messages and takes
`K + K * (2 * n + 1) * n` calls at most, and it takes as many exactly when every message has
arrived everywhere. -/
theorem traffic (reached : Reach (step c conf) (Supportive conf) (init conf) w) :
    w.sent.length ≤ w.numbers conf * (2 * conf.n + 1) ∧
    w.history.length ≤ w.numbers conf + w.numbers conf * (2 * conf.n + 1) * conf.n ∧
    (w.Quiescent conf ↔
      w.history.length = w.numbers conf + w.numbers conf * (2 * conf.n + 1) * conf.n) := by
  have benign := Supportive.benign reached
  have fewer := sent_le benign
  have calls := (accounted benign).calls
  have delivered := deliveries_le benign
  have all : w.sent.length * conf.n ≤ w.numbers conf * (2 * conf.n + 1) * conf.n :=
    Nat.mul_le_mul_right _ fewer
  refine ⟨fewer, calls_le benign, fun quiet => ?_, fun many => ?_⟩
  · rw [calls, (quiescent_iff_deliveries benign).mp quiet, quiescent_sent reached quiet]
  · -- nothing less than everything that could be sent has arrived everywhere
    exact (quiescent_iff_deliveries benign).mpr (by omega)

theorem traffic_orderly :
    ∃ w, exec (step sampleCrypto (sampleConfig 2)) (init (sampleConfig 2)) orderlyRun = some w ∧
      w.numbers (sampleConfig 2) = 1 ∧ w.history.length = 11 ∧ w.Quiescent (sampleConfig 2) := by
  obtain ⟨w, ran, facts⟩ := exec_of_run
    (step sampleCrypto (sampleConfig 2)) (init (sampleConfig 2)) orderlyRun
    (p := fun w => decide (w.numbers (sampleConfig 2) = 1 ∧ w.history.length = 11))
    (by decide +kernel)
  obtain ⟨one, eleven⟩ := of_decide_eq_true facts
  have benign : Meets (step sampleCrypto (sampleConfig 2)) (Benign (sampleConfig 2))
      (init (sampleConfig 2)) orderlyRun := by decide +kernel
  have agreeable : ∀ a ∈ orderlyRun, Agreeable a := by
    simp [orderlyRun, List.range_succ, Agreeable, approving]
  have reached := reach_of_exec
    ((meets_and _ _).mpr ⟨benign, meets_of_labels _ agreeable⟩) ran
  refine ⟨w, ran, one, eleven, (traffic reached).2.2.mpr ?_⟩
  rw [one, eleven]
  rfl

end Ruccoin.Pbft.World
