import Ruccoin.Foundation.Progress
import Ruccoin.Pbft.Agreement
import Ruccoin.Pbft.AtMostOnce

/-!
# The calls of a process come to an end

The mutex of a proposal is taken while `proposals_mutex` is held, never the other way round,
and a thread that waits for a commitment has given the mutex of its proposal back. So the
calls of a process cannot block one another: they can always be run until nothing is left
but requests that are not committed, and no run goes on for ever otherwise.
-/

namespace Ruccoin.Pbft

/-! ### The order of the mutexes -/

/-- `proposals_mutex` is taken first. -/
def Lock.before : Lock → Lock → Prop
  | .proposals, .ins _ => True
  | _, _ => False

theorem Lock.before_founded : WellFounded (flip Lock.before) := by
  let rank (l : Lock) : Nat := if l = .proposals then 1 else 0
  refine Subrelation.wf (r := InvImage (· < ·) rank) ?_ (InvImage.wf rank Nat.lt_wfRel.wf)
  intro inner outer earlier
  cases outer with
  | proposals =>
    cases inner with
    | proposals => exact absurd earlier id
    | ins s => simp [InvImage, rank]
  | ins s => cases inner <;> exact absurd earlier id

namespace Point

variable {c : Crypto} {σ : Shared} {p : Point} {d : Step}

/-- Only `Prepare` takes a mutex while it holds one. -/
theorem act_acquire {k : Lock} (acts : p.act c σ = some d) (op : d.lock = .acquire k) :
    p.held = [] ∨ ∃ master m, p = .lockBody master m ∧ k = .ins m.seq := by
  cases p with
  | lockBody master m =>
    cases acts
    cases op
    exact Or.inr ⟨master, m, rfl, rfl⟩
  | lockWait | lockTable | lockVotes | lockFlag => exact Or.inl rfl
  | testBody =>
    rcases testBody_cases acts with ⟨-, rfl⟩ | rfl <;> cases op
  | testFlag =>
    rcases testFlag_cases acts with rfl | ⟨-, rfl⟩ | ⟨-, -, rfl⟩ <;> cases op
  | sendPreprepare | sendPrepare | sendCommit =>
    obtain ⟨sm, -, rfl⟩ := send_eq.mp acts
    cases op
  | _ =>
    cases acts
    cases op

end Point

theorem program_ordered (c : Crypto) :
    Threads.Ordered (program c) Point.Holds Lock.before := by
  intro σ p d k acts op l held
  rcases Point.act_acquire acts op with none | ⟨master, m, rfl, rfl⟩
  · rw [Point.Holds, none] at held
    cases held
  · obtain rfl : l = .proposals := List.mem_singleton.mp held
    trivial

/-! ### The work of a call -/

namespace Point

/-- How many steps are left at most, the waiting of `GetRequest` counted as one. -/
def work : Point → Nat
  | .takeNumber _ => 5
  | .findRequest .. => 4
  | .insertRequest .. => 3
  | .sendPreprepare .. => 2
  | .lockWait _ => 1
  | .testWait _ => 1
  | .lockTable .. => 9
  | .findPrepare .. => 8
  | .insertPrepare .. => 7
  | .lockBody .. => 7
  | .testBody .. => 6
  | .fillBody .. => 5
  | .unlockTable .. => 4
  | .askMaster .. => 3
  | .sendPrepare _ => 2
  | .findEntry .. => 12
  | .insertEntry .. => 11
  | .findDigest .. => 10
  | .insertDigest .. => 9
  | .pushVote .. => 8
  | .lockVotes .. => 7
  | .testVotes .. => 6
  | .lockFlag .. => 5
  | .testFlag .. => 4
  | .setPrepared _ => 3
  | .sendCommit _ => 2
  | .callMaster _ => 2
  | .setCommitted _ => 1

theorem counting_work (phase : Phase) (m : Message) : (counting phase m).work ≤ 10 := by
  unfold counting
  split <;> simp [work]

end Point

namespace Shared

/-- A request that waits for its commitment. -/
def Parked (σ : Shared) : Point → Prop
  | .lockWait seq => σ.handler.requestCompleted seq = false
  | _ => False

/-- The steps of `wait` until it returns or sleeps. -/
def wait (σ : Shared) : Point → Nat
  | .lockWait seq => if σ.handler.requestCompleted seq then 2 else 0
  | .testWait _ => 1
  | _ => 0

end Shared

namespace Point

variable {c : Crypto} {σ : Shared} {p : Point} {d : Step}

open Threads (left)

theorem act_less (acts : p.act c σ = some d) (busy : ¬σ.Parked p) :
    left work d.next < p.work ∨ (left work d.next = p.work ∧
      left (d.shared.wait) d.next < σ.wait p ∧ ∀ q, d.shared.wait q ≤ σ.wait q) := by
  have both : ∀ {b : Prop} [Decidable b] {x y : Point} {n : Nat}, x.work < n → y.work < n →
      (if b then x else y).work < n := by
    intro b _ x y n first second
    split
    · exact first
    · exact second
  cases p with
  | lockWait seq =>
    -- not parked, so the wait will return
    cases acts
    refine Or.inr ⟨rfl, ?_, fun q => le_rfl⟩
    have completed : σ.handler.requestCompleted seq = true := by
      simpa [Shared.Parked] using busy
    simp [Shared.wait, left, completed]
  | testWait seq =>
    cases acts
    dsimp only
    split
    next completed => exact Or.inl Nat.zero_lt_one
    next uncompleted =>
      refine Or.inr ⟨rfl, ?_, fun q => le_rfl⟩
      simp [Shared.wait, left, uncompleted]
  | findRequest | findPrepare | findDigest =>
    cases acts
    exact Or.inl (both (by simp [work]) (by simp [work]))
  | findEntry phase m =>
    cases acts
    exact Or.inl (both (by simp [work]) (Nat.lt_succ_of_le (Nat.le_succ_of_le (counting_work phase m))))
  | insertEntry phase m =>
    cases acts
    exact Or.inl (Nat.lt_succ_of_le (counting_work phase m))
  | testVotes | askMaster =>
    cases acts
    dsimp only
    left
    split <;> simp [work]
  | testBody =>
    rcases testBody_cases acts with ⟨-, rfl⟩ | rfl <;> exact Or.inl (by simp [work])
  | testFlag =>
    rcases testFlag_cases acts with rfl | ⟨-, rfl⟩ | ⟨-, -, rfl⟩ <;> exact Or.inl (by simp [work])
  | sendPreprepare | sendPrepare | sendCommit =>
    obtain ⟨sm, -, rfl⟩ := send_eq.mp acts
    exact Or.inl (by simp [work])
  | _ =>
    cases acts
    exact Or.inl (by simp [work])

/-! ### Every step can be taken -/

theorem sign_defined {m : Message} {next : Option Point}
    (pair : c.KeyPair σ.handler.privKey m.pubKey) (known : m.mtype.Known) :
    ∃ d, send c σ m next = some d := by
  obtain ⟨sm, signed, -⟩ := PBFTHandler.sign_ok pair known
  exact ⟨_, send_eq.mpr ⟨sm, signed, rfl⟩⟩

/-- A process whose keys are a pair never fails an assertion. -/
theorem act_defined (pair : c.KeyPair σ.handler.privKey σ.handler.pubKey)
    (p : Point) : ∃ d, p.act c σ = some d := by
  cases p with
  | sendPreprepare => exact sign_defined pair MType.known_preprepare
  | sendPrepare => exact sign_defined pair MType.known_prepare
  | sendCommit => exact sign_defined pair MType.known_commit
  | testBody =>
    rw [act]
    split <;> exact ⟨_, rfl⟩
  | testFlag phase =>
    cases phase <;> rw [act] <;> split <;> exact ⟨_, rfl⟩
  | _ => exact ⟨_, rfl⟩

theorem act_keys (acts : p.act c σ = some d) :
    d.shared.handler.privKey = σ.handler.privKey ∧ d.shared.handler.pubKey = σ.handler.pubKey := by
  have inserted : ∀ seq p same, (σ.insert seq p same).handler.privKey = σ.handler.privKey ∧
      (σ.insert seq p same).handler.pubKey = σ.handler.pubKey := by
    intro seq p same
    change (σ.handler.insertProposal seq p same).privKey = _ ∧
      (σ.handler.insertProposal seq p same).pubKey = _
    rcases σ.handler.insertProposal_cases seq p same with ⟨-, kept⟩ | ⟨-, set⟩
    · rw [kept]
      exact ⟨rfl, rfl⟩
    · rw [set]
      exact ⟨rfl, rfl⟩
  have edited : ∀ seq change keeps, (σ.edit seq change keeps).handler.privKey = σ.handler.privKey ∧
      (σ.edit seq change keeps).handler.pubKey = σ.handler.pubKey := by
    intro seq change keeps
    change (σ.handler.edit seq change keeps).privKey = _ ∧
      (σ.handler.edit seq change keeps).pubKey = _
    rcases σ.handler.edit_cases seq change keeps with ⟨-, kept⟩ | ⟨p, same, -, set⟩
    · rw [kept]
      exact ⟨rfl, rfl⟩
    · rw [set]
      exact ⟨rfl, rfl⟩
  cases p with
  | insertRequest | insertPrepare | insertEntry =>
    cases acts
    exact inserted ..
  | fillBody | insertDigest | pushVote | setCommitted =>
    cases acts
    exact edited ..
  | setPrepared m =>
    cases acts
    exact edited m.seq (fun p => { p with prepared := true }) fun _ => rfl
  | testBody => rcases testBody_cases acts with ⟨-, rfl⟩ | rfl <;> exact ⟨rfl, rfl⟩
  | testFlag => rcases testFlag_cases acts with rfl | ⟨-, rfl⟩ | ⟨-, -, rfl⟩ <;> exact ⟨rfl, rfl⟩
  | sendPreprepare | sendPrepare | sendCommit =>
    obtain ⟨sm, -, rfl⟩ := send_eq.mp acts
    exact ⟨rfl, rfl⟩
  | _ =>
    cases acts
    exact ⟨rfl, rfl⟩

end Point

theorem program_drains (c : Crypto) :
    Threads.Drains (program c) Point.Holds
      (fun σ => c.KeyPair σ.handler.privKey σ.handler.pubKey) Shared.Parked Point.work
      Shared.wait where
  defined pair p := Point.act_defined pair p
  kept := by
    intro σ p d pair acts
    obtain ⟨privKey, pubKey⟩ := Point.act_keys acts
    rwa [privKey, pubKey]
  unparked := by
    intro σ p l held parked
    cases p with
    | lockWait => cases held
    | _ => exact parked
  less acts busy := Point.act_less acts busy

/-! ### Runs -/

namespace Process

open Transition

variable {c : Crypto} {h : PBFTHandler} {p : Process}

theorem keys_reach {guard : Process → Threads.Move Call → Prop}
    (pair : c.KeyPair h.privKey h.pubKey) (reached : Reach (step c) guard (start h) p) :
    c.KeyPair p.shared.handler.privKey p.shared.handler.pubKey := by
  apply reached.invariant (P := fun p => c.KeyPair p.shared.handler.privKey p.shared.handler.pubKey)
  · exact pair
  · intro p m p' _ before _ taken
    cases m with
    | enter t a =>
      obtain ⟨-, rfl⟩ := Threads.step_enter taken
      exact before
    | advance t =>
      obtain ⟨q, d, owner, -, acts, -, rfl⟩ := Threads.step_advance.mp taken
      exact (program_drains c).kept before acts

/-- The calls can be run until no mutex is held and only requests that are not committed are
left. -/
theorem rests {guard : Process → Threads.Move Call → Prop}
    (pair : c.KeyPair h.privKey h.pubKey) (reached : Reach (step c) guard (start h) p)
    :
    ∃ p', Reach (step c) Threads.Advances p p' ∧ (∀ l, p'.owner l = none) ∧
      ∀ t q, p'.threads t = some q →
        ∃ seq, q = .lockWait seq ∧ p'.shared.handler.requestCompleted seq = false := by
  obtain ⟨n, below⟩ := Threads.below_reach reached
  have held := Threads.held_reach (program_disciplined c) reached
  have pair' := keys_reach pair reached
  obtain ⟨p', later, held', rest⟩ := (program_drains c).run (program_disciplined c)
    Lock.before_founded (program_ordered c) below held pair'
  have parked : ∀ t q, p'.threads t = some q →
      ∃ seq, q = .lockWait seq ∧ p'.shared.handler.requestCompleted seq = false := by
    intro t q there
    have parked := rest t q there
    cases q with
    | lockWait seq => exact ⟨seq, rfl, parked⟩
    | _ => exact absurd parked id
  refine ⟨p', later, fun l => ?_, parked⟩
  by_contra owned
  obtain ⟨t, owned⟩ := Option.ne_none_iff_exists'.mp owned
  obtain ⟨q, there, holding⟩ := held' l t owned
  obtain ⟨seq, rfl, -⟩ := parked t q there
  cases holding

/-- Whatever calls came in and however they interleaved, they do not block one another: as
long as a thread is there that does not just wait for a commitment, such a thread can go on;
this does not go on for ever; and in the end no mutex is held and what is left are requests
whose proposals are not committed. -/
theorem runs_to_rest {guard : Process → Threads.Move Call → Prop}
    (pair : c.KeyPair h.privKey h.pubKey) (reached : Reach (step c) guard (start h) p) :
    (¬∃ run : Nat → Process, run 0 = p ∧
      ∀ k, Threads.Busy (program c) Shared.Parked (run k) (run (k + 1))) ∧
    ∃ p', Reach (step c) Threads.Advances p p' ∧ (∀ l, p'.owner l = none) ∧
      ∀ t q, p'.threads t = some q →
        ∃ seq, q = .lockWait seq ∧ p'.shared.handler.requestCompleted seq = false := by
  obtain ⟨n, below⟩ := Threads.below_reach reached
  exact ⟨(program_drains c).not_endless below, rests pair reached⟩

/-- A request that holds its mutex for a look at the flag, and a `Prepare` that wants that
mutex under `proposals_mutex`. -/
def blockedMoves : List (Threads.Move Call) :=
  .enter 0 (.getRequest { timeStamp := 0, clientId := 0, body := "A" }) ::
    List.replicate 5 (.advance 0) ++
  .enter 1 (.prepare (fun _ => .value true)
      (sampleMessage .preprepare 0 (Message.getDigest sampleCrypto "A") "A")) ::
    List.replicate 2 (.advance 1)

theorem runs_to_rest_blocked :
    ∃ p, exec (step sampleCrypto) (start (PBFTHandler.init (sampleConfig 4) 0)) blockedMoves =
        some p ∧
      step sampleCrypto p (.advance 1) = none ∧
      ∃ p', Reach (step sampleCrypto) Threads.Advances p p' ∧
        (∀ l, p'.owner l = none) ∧
        ∀ t q, p'.threads t = some q →
          ∃ seq, q = .lockWait seq ∧ p'.shared.handler.requestCompleted seq = false := by
  obtain ⟨p, ran, blocked⟩ := exec_of_run (step sampleCrypto)
    (start (PBFTHandler.init (sampleConfig 4) 0)) blockedMoves
    (p := fun p => (step sampleCrypto p (.advance 1)).isNone)
    (by decide +kernel)
  obtain ⟨-, rest⟩ := runs_to_rest (World.sampleConfig_keys 4 0 (by decide))
    (reach_of_exec (meets_true _ _) ran)
  exact ⟨p, ran, Option.isNone_iff_eq_none.mp blocked, rest⟩

end Process

end Ruccoin.Pbft
