import Ruccoin.Pbft.Progress

/-!
# The workers of the server

`server.async_run(8)` serves the calls on eight threads, and `GetRequest` keeps its thread
until the request is committed. When every thread serves a request whose proposal is not
committed, the messages that would commit it find no thread. This is the only way in which
the server stops serving.
-/

namespace Ruccoin.Pbft

namespace Point

/-- The points of `GetRequest`. -/
def isRequest : Point → Bool
  | .takeNumber _ => true
  | .findRequest .. => true
  | .insertRequest .. => true
  | .sendPreprepare .. => true
  | .lockWait _ => true
  | .testWait _ => true
  | _ => false

/-- The thread serves a request whose proposal is not committed. -/
def awaits (σ : Shared) (p : Point) : Bool :=
  p.isRequest && p.seq.all fun seq => !σ.handler.requestCompleted seq

/-- One for a request that has no number yet. -/
def unnumbered (p : Point) : Nat := if p.seq = none then 1 else 0

variable {c : Crypto} {σ : Shared} {p : Point} {d : Step}

@[simp] theorem counting_isRequest (phase : Phase) (m : Message) :
    (counting phase m).isRequest = false := by
  unfold counting
  split <;> rfl

/-- Nothing else leads into `GetRequest`. -/
theorem act_elsewhere (acts : p.act c σ = some d) (elsewhere : p.isRequest = false)
    {n : Point} (next : d.next = some n) : n.isRequest = false := by
  cases p with
  | takeNumber | findRequest | insertRequest | sendPreprepare | lockWait | testWait =>
    cases elsewhere
  | findPrepare | findDigest | testVotes | askMaster =>
    cases acts
    dsimp only at next
    split at next <;> cases next <;> rfl
  | findEntry =>
    cases acts
    dsimp only at next
    split at next <;> cases next
    · rfl
    · exact counting_isRequest ..
  | insertEntry =>
    cases acts
    cases next
    exact counting_isRequest ..
  | testBody =>
    rcases testBody_cases acts with ⟨-, rfl⟩ | rfl
    · cases next
      rfl
    · cases next
      rfl
  | testFlag =>
    rcases testFlag_cases acts with rfl | ⟨-, rfl⟩ | ⟨-, -, rfl⟩
    · cases next
    · cases next
      rfl
    · cases next
      rfl
  | sendPrepare | sendCommit =>
    obtain ⟨sm, -, rfl⟩ := send_eq.mp acts
    cases next
  | setCommitted =>
    cases acts
    cases next
  | _ =>
    cases acts
    cases next
    rfl

/-- What a step of `GetRequest` can do: it takes the next number, goes on under its number,
or returns once its proposal is committed. It commits none itself. -/
theorem act_request (acts : p.act c σ = some d) (request : p.isRequest = true) :
    (∀ s, d.shared.handler.requestCompleted s = σ.handler.requestCompleted s) ∧
    ((p.seq = none ∧ d.shared.handler.nextProposalSeq = σ.handler.nextProposalSeq + 1 ∧
        ∃ n, d.next = some n ∧ n.isRequest = true ∧ n.seq = some σ.handler.nextProposalSeq) ∨
      (d.shared.handler.nextProposalSeq = σ.handler.nextProposalSeq ∧
        ∃ s, p.seq = some s ∧ ((∃ n, d.next = some n ∧ n.isRequest = true ∧ n.seq = some s) ∨
          (d.next = none ∧ σ.handler.requestCompleted s = true)))) := by
  cases p with
  | takeNumber req =>
    cases acts
    exact ⟨fun _ => rfl, Or.inl ⟨rfl, rfl, _, rfl, rfl, rfl⟩⟩
  | findRequest seq req =>
    cases acts
    refine ⟨fun _ => rfl, Or.inr ⟨rfl, seq, rfl, Or.inl ⟨_, rfl, ?_, ?_⟩⟩⟩
    · split <;> rfl
    · split <;> rfl
  | insertRequest seq req =>
    cases acts
    -- a new entry is not committed, like one that is missing
    let fresh := Proposal.new req.timeStamp req.clientId seq req.body σ.handler.f
    rcases σ.handler.insertProposal_cases seq fresh rfl with ⟨-, kept⟩ | ⟨missing, set⟩
    · have same : (σ.insert seq fresh rfl).handler = σ.handler := kept
      refine ⟨fun s => ?_, Or.inr ⟨?_, seq, rfl, Or.inl ⟨_, rfl, rfl, rfl⟩⟩⟩
      · exact congrArg (·.requestCompleted s) same
      · exact congrArg (·.nextProposalSeq) same
    · have same : (σ.insert seq fresh rfl).handler = σ.handler.setProposal seq fresh rfl := set
      refine ⟨fun s => ?_, Or.inr ⟨?_, seq, rfl, Or.inl ⟨_, rfl, rfl, rfl⟩⟩⟩
      · refine (congrArg (·.requestCompleted s) same).trans ?_
        refine PBFTHandler.setProposal_kept Proposal.committed rfl ?_ s
        rw [PBFTHandler.proposal, missing]
        rfl
      · exact congrArg (·.nextProposalSeq) same
  | sendPreprepare seq req =>
    obtain ⟨sm, -, rfl⟩ := send_eq.mp acts
    exact ⟨fun _ => rfl, Or.inr ⟨rfl, seq, rfl, Or.inl ⟨_, rfl, rfl, rfl⟩⟩⟩
  | lockWait seq =>
    cases acts
    exact ⟨fun _ => rfl, Or.inr ⟨rfl, seq, rfl, Or.inl ⟨_, rfl, rfl, rfl⟩⟩⟩
  | testWait seq =>
    cases acts
    refine ⟨fun _ => rfl, Or.inr ⟨rfl, seq, rfl, ?_⟩⟩
    dsimp only
    split
    next completed => exact Or.inr ⟨rfl, completed⟩
    next => exact Or.inl ⟨_, rfl, rfl, rfl⟩
  | _ => cases request

end Point

namespace Process

open Transition Threads

variable {c : Crypto} {h : PBFTHandler} {p p' : Process} {W : Nat}

/-- All workers serve requests that are not committed, and the requests that have no number
yet will get numbers that are not committed. -/
def Starved (W : Nat) (p : Process) : Prop :=
  (∀ t < W, (p.threads t).any (Point.awaits p.shared) = true) ∧
    ∀ k < totalLeft Point.unnumbered W p.threads,
      p.shared.handler.requestCompleted (p.shared.handler.nextProposalSeq + k) = false

instance (W : Nat) (p : Process) : Decidable (Starved W p) :=
  inferInstanceAs (Decidable (_ ∧ _))

theorem awaits_congr {σ σ' : Shared}
    (same : ∀ s, σ'.handler.requestCompleted s = σ.handler.requestCompleted s) :
    Point.awaits σ' = Point.awaits σ := by
  funext q
  simp only [Point.awaits, same]

/-- One worker and the others. -/
theorem busy_split {t : Nat} {threads : Nat → Option Point} {waits : Point → Bool}
    (bound : t < W) :
    (∀ u < W, (threads u).any waits = true) ↔
      (threads t).any waits = true ∧ ∀ u < W, u ≠ t → (threads u).any waits = true := by
  constructor
  · exact fun all => ⟨all t bound, fun u bound _ => all u bound⟩
  · rintro ⟨mine, others⟩ u bound
    by_cases same : u = t
    · rw [same]
      exact mine
    · exact others u bound same

/-- No step of a worker starves the server or helps it out. -/
theorem starved_advance {t : Nat} (below : Below W p)
    (taken : step c p (.advance t) = some p') : Starved W p' ↔ Starved W p := by
  obtain ⟨q, d, owner, here, acts, -, rfl⟩ := step_advance.mp taken
  have bound := below.lt here
  cases request : q.isRequest with
  | false =>
    -- a worker that serves something else
    refine iff_of_false (fun starved => ?_) fun starved => ?_
    · have busy := starved.1 t bound
      simp only [Function.update_self] at busy
      cases next : d.next with
      | none =>
        rw [next] at busy
        cases busy
      | some n =>
        rw [next, Option.any_some, Point.awaits, Point.act_elsewhere acts request next] at busy
        cases busy
    · have busy := starved.1 t bound
      rw [here, Option.any_some, Point.awaits, request] at busy
      cases busy
  | true =>
    obtain ⟨same, kind⟩ := Point.act_request acts request
    have others : (∀ u < W, u ≠ t →
        (Function.update p.threads t d.next u).any (Point.awaits p.shared) = true) ↔
        ∀ u < W, u ≠ t → (p.threads u).any (Point.awaits p.shared) = true := by
      refine forall₃_congr fun u _ other => ?_
      rw [Function.update_of_ne other]
    unfold Starved
    dsimp only
    rw [awaits_congr same, busy_split bound, busy_split bound, others, Function.update_self, here,
      Option.any_some, totalLeft_update _ _ _ bound, totalLeft_split _ p.threads bound, here,
      left_some]
    simp only [same]
    rcases kind with ⟨none, later, n, next, request', number⟩ |
        ⟨later, s, number, ⟨n, next, request', number'⟩ | ⟨next, completed⟩⟩
    · -- the number that it takes is the first of those to come
      have waits : Point.awaits p.shared q = true := by simp [Point.awaits, request, none]
      have waits' : Point.awaits p.shared n =
          !p.shared.handler.requestCompleted p.shared.handler.nextProposalSeq := by
        simp [Point.awaits, request', number]
      rw [next, Option.any_some, left_some, later, waits, waits']
      simp only [Point.unnumbered, none, number, if_true, reduceCtorEq, if_false, Nat.zero_add,
        Nat.add_comm 1, Nat.forall_lt_succ_left, Nat.add_assoc, Nat.add_zero, Bool.not_eq_true',
        true_and]
      exact and_assoc.trans and_left_comm
    · have waits : Point.awaits p.shared n = Point.awaits p.shared q := by
        simp [Point.awaits, request, request', number, number']
      rw [next, Option.any_some, left_some, later, waits]
      simp [Point.unnumbered, number, number']
    · -- it returns, and was not waiting before
      have waits : Point.awaits p.shared q = false := by
        simp [Point.awaits, number, completed]
      rw [next, waits]
      simp

theorem starved_reach (below : Below W p)
    (later : Reach (step c) Advances p p') : Starved W p' ↔ Starved W p := by
  have both : Below W p' ∧ (Starved W p' ↔ Starved W p) := by
    apply later.invariant (P := fun p' => Below W p' ∧ (Starved W p' ↔ Starved W p))
    · exact ⟨below, Iff.rfl⟩
    · rintro p₁ m p₂ - ⟨below₁, kept⟩ advances taken
      cases m with
      | enter t a => exact advances.elim
      | advance t => exact ⟨below_advance below₁ taken, (starved_advance below₁ taken).trans kept⟩
  exact both.2

/-- Calls that come in find no worker, so a server that is starved stays so. -/
theorem starved_forever (below : Below W p) (starved : Starved W p)
    (later : Reach (step c) (Workers W) p p') : Starved W p' := by
  have both : Below W p' ∧ Starved W p' := by
    apply later.invariant (P := fun p' => Below W p' ∧ Starved W p')
    · exact ⟨below, starved⟩
    · rintro p₁ m p₂ - ⟨below₁, starved₁⟩ works taken
      refine ⟨below_step below₁ works taken, ?_⟩
      cases m with
      | enter t a =>
        obtain ⟨free, -⟩ := step_enter taken
        have busy := starved₁.1 t works
        rw [free] at busy
        cases busy
      | advance t => exact (starved_advance below₁ taken).mpr starved₁
  exact both.2

/-- With `W` workers a call that comes in finds one, now or once those that are busy have
gone on, unless all of them serve requests that are not committed; and then no further call
is ever served. -/
theorem worker_free_iff (pair : c.KeyPair h.privKey h.pubKey)
    (reached : Reach (step c) (Workers W) (start h) p) :
    ((∃ p', Reach (step c) Advances p p' ∧ ∃ t < W, p'.threads t = none) ↔
      ¬Starved W p) ∧
    (Starved W p → ∀ p', Reach (step c) (Workers W) p p' → Starved W p') := by
  have below := below_workers reached
  refine ⟨⟨?_, fun unstarved => ?_⟩, fun starved p' later => starved_forever below starved later⟩
  · rintro ⟨p', later, t, bound, free⟩ starved
    have busy := ((starved_reach below later).mpr starved).1 t bound
    rw [free] at busy
    cases busy
  · obtain ⟨p', later, -, rest⟩ := rests pair reached
    refine ⟨p', later, ?_⟩
    -- otherwise the workers are all asleep
    by_contra full
    push Not at full
    refine unstarved ((starved_reach below later).mp ⟨fun t bound => ?_, fun k less => ?_⟩)
    · obtain ⟨q, there⟩ := Option.ne_none_iff_exists'.mp (full t bound)
      obtain ⟨seq, rfl, uncommitted⟩ := rest t q there
      rw [there]
      simp [Point.awaits, Point.isRequest, Point.seq, uncommitted]
    · have numbered : totalLeft Point.unnumbered W p'.threads = 0 := by
        refine Finset.sum_eq_zero fun t _ => ?_
        cases there : p'.threads t with
        | none => rfl
        | some q =>
          obtain ⟨seq, rfl, -⟩ := rest t q there
          rfl
      rw [numbered] at less
      exact absurd less (Nat.not_lt_zero k)

/-- A request on each of the eight workers that the server has. -/
def crowdedRequests : List (Move Call) :=
  (List.range 8).map fun t => .enter t (.getRequest { timeStamp := t, clientId := 0, body := "A" })

theorem worker_free_crowded :
    ∃ p, exec (step sampleCrypto) (start (PBFTHandler.init (sampleConfig 4) 0)) crowdedRequests =
        some p ∧
      Starved 8 p ∧ ¬(∃ p', Reach (step sampleCrypto) Advances p p' ∧
        ∃ t < 8, p'.threads t = none) ∧
      ∀ p', Reach (step sampleCrypto) (Workers 8) p p' → Starved 8 p' := by
  obtain ⟨p, ran, starved⟩ := exec_of_run (step sampleCrypto)
    (start (PBFTHandler.init (sampleConfig 4) 0)) crowdedRequests
    (p := fun p => decide (Starved 8 p)) (by decide +kernel)
  have meets : Meets (step sampleCrypto) (Workers 8)
      (start (PBFTHandler.init (sampleConfig 4) 0)) crowdedRequests := by decide +kernel
  have starved := of_decide_eq_true starved
  obtain ⟨free, forever⟩ := worker_free_iff (World.sampleConfig_keys 4 0 (by decide))
    (reach_of_exec meets ran)
  exact ⟨p, ran, starved, fun reachable => free.mp reachable starved, forever starved⟩

end Process

end Ruccoin.Pbft
