import Ruccoin.Pbft.AtMostOnce

/-!
# A call on its own

When no other thread runs, the steps of a call come to what `call` says: the same handler is
left behind and the same effects are logged. So the handlers taken as one step each are the
runs of the process in which no two calls overlap.
-/

namespace Ruccoin.Pbft

namespace PBFTHandler

variable {h : PBFTHandler} {seq : Nat} {p q : Proposal}

theorem setProposal_setProposal (same : p.f = h.f)
    (same' : q.f = (h.setProposal seq p same).f) :
    (h.setProposal seq p same).setProposal seq q same' = h.setProposal seq q same' := by
  simp only [setProposal, Function.update_idem]

theorem setProposal_congr (same : p.f = h.f) (equal : p = q) :
    h.setProposal seq p same = h.setProposal seq q (equal ▸ same) := by
  subst equal
  rfl

theorem setProposal_found (found : h.proposals seq = some p) (same : p.f = h.f) :
    h.setProposal seq p same = h := by
  have kept : Function.update h.proposals seq (some p) = h.proposals := by
    rw [← found, Function.update_eq_self]
  simp only [setProposal, kept]

@[simp] theorem setProposal_proposals_self (same : p.f = h.f) :
    (h.setProposal seq p same).proposals seq = some p :=
  Function.update_self ..

theorem insertProposal_none (missing : h.proposals seq = none) (same : p.f = h.f) :
    h.insertProposal seq p same = h.setProposal seq p same := by
  rw [insertProposal, missing]

theorem edit_some {change : Proposal → Proposal} {keeps : ∀ p, (change p).f = p.f}
    (found : h.proposals seq = some p) :
    h.edit seq change keeps =
      h.setProposal seq (change p) ((keeps p).trans (h.uniform seq p found)) := by
  rcases h.edit_cases seq change keeps with ⟨missing, -⟩ | ⟨p', same, found', edited⟩
  · rw [missing] at found
    cases found
  · rw [found] at found'
    cases found'
    exact edited

end PBFTHandler

open Threads

variable {c : Crypto} {h h' : PBFTHandler} {log : List Effect} {m : Message}
  {effects : List Effect}

/-- Steps of one thread. -/
abbrev Steps (c : Crypto) : Shared × Option Point → Shared × Option Point → Prop :=
  Solo (program c)

theorem Steps.of_act {σ : Shared} {p : Point} {d : Point.Step} {there : Shared × Option Point}
    (acts : p.act c σ = some d) (rest : Steps c (d.shared, d.next) there) :
    Steps c (σ, some p) there :=
  Solo.head acts rest

/-- Signing and sending. -/
theorem Steps.of_send {σ : Shared} {p : Point} {next : Option Point} {sm : Message}
    {there : Shared × Option Point} (acts : p.act c σ = Point.send c σ m next)
    (signed : σ.handler.sign c m = .ok sm)
    (rest : Steps c (σ.report (.sendMessage sm), next) there) : Steps c (σ, some p) there :=
  .of_act (d := ⟨.keep, σ.report (.sendMessage sm), next⟩)
    (acts.trans (Point.send_eq.mpr ⟨sm, signed, rfl⟩)) rest

/-! ### `Prepare` -/

/-- The first half of `Prepare`, up to the question to the master. -/
theorem steps_store (h : PBFTHandler) (log : List Effect) (master : Master) (m : Message) :
    Steps c (⟨h, log⟩, some (.lockTable master m))
      (⟨h.setProposal m.seq (h.storeBody m) (h.storeBody_f m), log⟩,
        some (.askMaster master m)) := by
  refine .of_act rfl ?_
  cases found : h.proposals m.seq with
  | none =>
    have created : Proposal.new m.timeStamp m.clientId m.seq m.body h.f = h.storeBody m := by
      rw [PBFTHandler.storeBody, found]
    rw [← PBFTHandler.setProposal_congr (Proposal.new_f ..) created,
      ← PBFTHandler.insertProposal_none found]
    refine .of_act (d := ⟨.keep, ⟨h, log⟩, some (.insertPrepare master m)⟩) ?_ ?_
    · simp [Point.act, Point.go, found]
    · exact .of_act rfl (.of_act rfl .refl)
  | some p =>
    refine .of_act (d := ⟨.keep, ⟨h, log⟩, some (.lockBody master m)⟩) ?_ ?_
    · simp [Point.act, Point.go, found]
    refine .of_act rfl ?_
    by_cases empty : p.body.isEmpty = true
    · -- the body is filled in
      have stored : h.edit m.seq (fun p => { p with body := m.body }) (fun _ => rfl) =
          h.setProposal m.seq (h.storeBody m) (h.storeBody_f m) := by
        rw [PBFTHandler.edit_some found]
        apply PBFTHandler.setProposal_congr
        simp only [PBFTHandler.storeBody, found, empty, if_true]
      rw [← stored]
      refine .of_act (d := ⟨.keep, ⟨h, log⟩, some (.fillBody master m)⟩) ?_ ?_
      · simp [Point.act, Point.go, PBFTHandler.proposal, found, empty]
      · exact .of_act rfl (.of_act rfl .refl)
    · have stored : h.setProposal m.seq (h.storeBody m) (h.storeBody_f m) = h := by
        apply PBFTHandler.setProposal_found
        rw [found]
        simp only [PBFTHandler.storeBody, found, empty, Bool.false_eq_true, if_false]
      rw [stored]
      refine .of_act (d := ⟨.release (.ins m.seq), ⟨h, log⟩, some (.unlockTable master m)⟩) ?_ ?_
      · simp [Point.act, PBFTHandler.proposal, found, empty]
      · exact .of_act rfl .refl

/-- `Prepare` on its own. -/
theorem steps_prepare {master : Master} (accepted : m.checkSignature c = .ok true)
    (ran : h.prepare c master m = .ok (h', effects)) :
    Steps c (⟨h, log⟩, some (.lockTable master m)) (⟨h', log ++ effects⟩, none) := by
  rw [PBFTHandler.prepare_of_accepted accepted] at ran
  refine (steps_store h log master m).trans ?_
  let stored := h.setProposal m.seq (h.storeBody m) (h.storeBody_f m)
  have entry : stored.proposal m.seq = h.storeBody m := by
    rw [PBFTHandler.setProposal_proposal, if_pos rfl]
  dsimp only at ran
  split at ran
  next approved =>
    obtain ⟨sm, signed, result⟩ := Result.map_ok.mp ran
    obtain ⟨rfl, rfl⟩ := Prod.mk.inj result
    refine Steps.of_act (d := ⟨.keep, (Shared.mk stored log).report
      (.checkProposal m.seq (h.storeBody m).body true), some (.sendPrepare m)⟩) ?_ ?_
    · simp [Point.act, stored, entry, approved]
    · refine Steps.of_send rfl signed ?_
      simp only [Shared.report, List.append_assoc, List.singleton_append]
      exact .refl
  next refused =>
    obtain ⟨rfl, rfl⟩ := Prod.mk.inj (Except.ok.inj ran)
    refine Steps.of_act (d := ⟨.keep, (Shared.mk stored log).report
      (.checkProposal m.seq (h.storeBody m).body false), none⟩) ?_ .refl
    simp [Point.act, stored, entry, refused]

/-! ### `Commit` and `Reply` -/

/-- The entry is looked up and made when it is missing. -/
theorem steps_entry (h : PBFTHandler) (log : List Effect) (phase : Phase) (m : Message) :
    Steps c (⟨h, log⟩, some (.findEntry phase m))
      (⟨h.setProposal m.seq (h.findOrCreate m) (h.findOrCreate_f m), log⟩,
        some (.counting phase m)) := by
  cases found : h.proposals m.seq with
  | none =>
    have created : Proposal.new m.timeStamp m.clientId m.seq m.body h.f = h.findOrCreate m := by
      rw [PBFTHandler.findOrCreate, found]
      rfl
    rw [← PBFTHandler.setProposal_congr (Proposal.new_f ..) created,
      ← PBFTHandler.insertProposal_none found]
    refine .of_act (d := ⟨.keep, ⟨h, log⟩, some (.insertEntry phase m)⟩) ?_ ?_
    · simp [Point.act, Point.go, found]
    · exact .of_act rfl .refl
  | some p =>
    have kept : h.setProposal m.seq (h.findOrCreate m) (h.findOrCreate_f m) = h := by
      apply PBFTHandler.setProposal_found
      rw [PBFTHandler.findOrCreate, found]
      rfl
    rw [kept]
    refine .of_act (d := ⟨.keep, ⟨h, log⟩, some (.counting phase m)⟩) ?_ .refl
    simp [Point.act, Point.go, found]

/-- A digest that is there is not inserted again. -/
theorem mapVotes_insertDigest {p : Proposal} (found : Point.digestFound p m = true) :
    p.mapVotes m.mtype (·.insertDigest m.digest) = p := by
  unfold Point.digestFound at found
  unfold Proposal.mapVotes VoteTable.insertDigest
  cases type : m.mtype with
  | prepare => simp_all
  | commit => simp_all
  | preprepare => rfl
  | other code => rfl

/-- An edit of an entry that is there. -/
theorem edit_found {p : Proposal} (found : h.proposals m.seq = some p) (log : List Effect)
    (change : Proposal → Proposal) (keeps : ∀ p, (change p).f = p.f) :
    (Shared.mk h log).edit m.seq change keeps =
      ⟨h.setProposal m.seq (change p) ((keeps p).trans (h.uniform m.seq p found)), log⟩ := by
  rw [Shared.edit, PBFTHandler.edit_some found]

/-- An edit of an entry that was just written. -/
theorem edit_written (p : Proposal) (same : p.f = h.f) (log : List Effect)
    (change : Proposal → Proposal) (keeps : ∀ p, (change p).f = p.f) :
    (Shared.mk (h.setProposal m.seq p same) log).edit m.seq change keeps =
      ⟨h.setProposal m.seq (change p) ((keeps p).trans same), log⟩ := by
  rw [edit_found (PBFTHandler.setProposal_proposals_self _), PBFTHandler.setProposal_setProposal]

/-- The vote is counted, the digest first. -/
theorem steps_count {p : Proposal} (found : h.proposals m.seq = some p) (log : List Effect)
    (phase : Phase) (same : (p.updateInfo m).f = h.f) :
    Steps c (⟨h, log⟩, some (.counting phase m))
      (⟨h.setProposal m.seq (p.updateInfo m) same, log⟩, some (.lockVotes phase m)) := by
  have entry : h.proposal m.seq = p := by
    rw [PBFTHandler.proposal, found]
    rfl
  have vote : Steps c (⟨h, log⟩, some (.findDigest phase m))
      (⟨h.setProposal m.seq (p.updateInfo m) same, log⟩, some (.lockVotes phase m)) := by
    rw [PBFTHandler.setProposal_congr same (p.updateInfo_eq_mapVotes m)]
    by_cases known : Point.digestFound p m = true
    · refine .of_act (d := ⟨.keep, ⟨h, log⟩, some (.pushVote phase m)⟩) ?_ (.of_act rfl ?_)
      · simp [Point.act, Point.go, entry, known]
      · rw [edit_found found, PBFTHandler.setProposal_congr _
          (congrArg (Proposal.mapVotes · m.mtype _) (mapVotes_insertDigest known).symm)]
    · refine .of_act (d := ⟨.keep, ⟨h, log⟩, some (.insertDigest phase m)⟩) ?_
        (.of_act rfl (.of_act rfl ?_))
      · simp [Point.act, Point.go, entry, known]
      · rw [edit_found found, edit_written]
  have skip : p.updateInfo m = p →
      Steps c (⟨h, log⟩, some (.lockVotes phase m))
        (⟨h.setProposal m.seq (p.updateInfo m) same, log⟩, some (.lockVotes phase m)) := by
    intro uncounted
    rw [PBFTHandler.setProposal_congr same uncounted, PBFTHandler.setProposal_found found]
  cases type : m.mtype with
  | prepare =>
    rw [Point.counting, type]
    exact vote
  | commit =>
    rw [Point.counting, type]
    exact vote
  | preprepare =>
    rw [Point.counting, type]
    exact skip (by rw [Proposal.updateInfo, type])
  | other code =>
    rw [Point.counting, type]
    exact skip (by rw [Proposal.updateInfo, type])

/-- The handler with the vote of the message counted, which both handlers test. -/
abbrev PBFTHandler.counted (h : PBFTHandler) (m : Message) : PBFTHandler :=
  h.setProposal m.seq (h.counting m) (h.counting_f m)

theorem counted_entry (h : PBFTHandler) (m : Message) :
    (h.counted m).proposal m.seq = h.counting m := by
  rw [PBFTHandler.setProposal_proposal, if_pos rfl]

/-- Both handlers up to their test of the votes. -/
theorem steps_voting (h : PBFTHandler) (log : List Effect) (phase : Phase) (m : Message) :
    Steps c (⟨h, log⟩, some (.findEntry phase m))
      (⟨h.counted m, log⟩, some (.testVotes phase m)) := by
  have same : (h.counting m).f =
      (h.setProposal m.seq (h.findOrCreate m) (h.findOrCreate_f m)).f := h.counting_f m
  have counted := steps_count (c := c) (PBFTHandler.setProposal_proposals_self _) log phase same
  rw [PBFTHandler.setProposal_setProposal] at counted
  refine (steps_entry h log phase m).trans (counted.trans ?_)
  exact Steps.of_act rfl .refl

/-- The test of the votes, and what follows it under the mutex when there are enough. -/
theorem steps_votes (h : PBFTHandler) (log : List Effect) (phase : Phase) (m : Message) :
    Steps c (⟨h.counted m, log⟩, some (.testVotes phase m))
      (⟨h.counted m, log⟩,
        if (h.counting m).checkVotes m.mtype then some (.testFlag phase m) else none) := by
  refine Steps.of_act rfl ?_
  rw [counted_entry]
  split
  · exact .of_act rfl .refl
  · exact .refl

/-- `Commit` on its own. -/
theorem steps_commit (accepted : m.checkSignature c = .ok true)
    (ran : h.commit c m = .ok (h', effects)) :
    Steps c (⟨h, log⟩, some (.findEntry .commit m)) (⟨h', log ++ effects⟩, none) := by
  rw [PBFTHandler.commit_of_accepted accepted] at ran
  refine (steps_voting h log .commit m).trans ((steps_votes h log .commit m).trans ?_)
  dsimp only at ran
  split at ran
  next sends =>
    obtain ⟨quorum, unset⟩ := sends
    obtain ⟨sm, signed, result⟩ := Result.map_ok.mp ran
    obtain ⟨rfl, rfl⟩ := Prod.mk.inj result
    rw [if_pos quorum]
    refine Steps.of_act (d := ⟨.keep, ⟨h.counted m, log⟩, some (.setPrepared m)⟩) ?_
      (Steps.of_act rfl ?_)
    · rw [Point.act, counted_entry, if_neg (Bool.not_eq_true _ ▸ unset)]
      rfl
    rw [edit_written]
    refine Steps.of_send rfl signed ?_
    simp only [Shared.report, List.append_assoc, List.singleton_append]
    exact .refl
  next silent =>
    obtain ⟨rfl, rfl⟩ := Prod.mk.inj (Except.ok.inj ran)
    rw [List.append_nil]
    split
    next quorum =>
      have set : (h.counting m).prepared = true := by simpa [quorum] using silent
      refine Steps.of_act (d := ⟨.release (.ins m.seq), ⟨h.counted m, log⟩, none⟩) ?_ .refl
      rw [Point.act, counted_entry, if_pos set]
    next => exact .refl

/-- `Reply` on its own. -/
theorem steps_reply (accepted : m.checkSignature c = .ok true)
    (ran : h.reply c m = .ok (h', effects)) :
    Steps c (⟨h, log⟩, some (.findEntry .reply m)) (⟨h', log ++ effects⟩, none) := by
  obtain ⟨same, runs⟩ := PBFTHandler.reply_of_valid (h := h) accepted
  rw [runs] at ran
  refine (steps_voting h log .reply m).trans ((steps_votes h log .reply m).trans ?_)
  dsimp only at ran
  split at ran
  next executes =>
    obtain ⟨quorum, uncommitted, filled⟩ := executes
    obtain ⟨rfl, rfl⟩ := Prod.mk.inj (Except.ok.inj ran)
    rw [if_pos quorum]
    refine Steps.of_act (d := ⟨.keep, ⟨h.counted m, log⟩, some (.callMaster m)⟩) ?_ ?_
    · rw [Point.act, counted_entry, uncommitted]
      simp only [Bool.not_false, Bool.true_and]
      rw [if_pos (by simpa [String.isEmpty_iff] using filled)]
      rfl
    refine Steps.of_act rfl (Steps.of_act rfl ?_)
    rw [Shared.report, edit_written, counted_entry]
  next silent =>
    obtain ⟨rfl, rfl⟩ := Prod.mk.inj (Except.ok.inj ran)
    rw [List.append_nil]
    split
    next quorum =>
      refine Steps.of_act (d := ⟨.release (.ins m.seq), ⟨h.counted m, log⟩, none⟩) ?_ .refl
      rw [Point.act, counted_entry, if_neg]
      intro ready
      refine silent ⟨quorum, ?_⟩
      simpa [String.isEmpty_iff] using ready
    next => exact .refl

/-! ### `GetRequest` -/

/-- `GetRequest` on its own, up to its wait. -/
theorem steps_request {req : Request} (ran : h.preprepare c req = .ok (h', effects)) :
    Steps c (⟨h, log⟩, some (.takeNumber req))
      (⟨h', log ++ effects⟩, some (.lockWait h.nextProposalSeq)) := by
  obtain ⟨sm, signed, result⟩ := Result.map_ok.mp ran
  obtain ⟨rfl, rfl⟩ := Prod.mk.inj result
  let seq := h.nextProposalSeq
  let numbered : Shared := ⟨{ h with nextProposalSeq := seq + 1 }, log ++ [.numbered seq req]⟩
  have stored : Steps c (numbered, some (.findRequest seq req))
      (⟨h.addRequest req, numbered.log⟩, some (.sendPreprepare seq req)) := by
    cases found : h.proposals seq with
    | none =>
      have inserted : h.addRequest req = numbered.handler.insertProposal seq
          (Proposal.new req.timeStamp req.clientId seq req.body h.f) (Proposal.new_f ..) := by
        unfold PBFTHandler.addRequest PBFTHandler.insertProposal
        rfl
      rw [inserted]
      refine .of_act (d := ⟨.keep, numbered, some (.insertRequest seq req)⟩) ?_ ?_
      · simp [Point.act, Point.go, numbered, found]
      · exact .of_act rfl .refl
    | some p =>
      have kept : h.addRequest req = numbered.handler := by
        rw [PBFTHandler.addRequest]
        dsimp only
        split
        next missing => cases missing.symm.trans found
        next => rfl
      rw [kept]
      refine .of_act (d := ⟨.keep, numbered, some (.sendPreprepare seq req)⟩) ?_ .refl
      simp [Point.act, Point.go, numbered, found]
  refine Steps.of_act rfl (stored.trans ?_)
  refine Steps.of_send rfl signed ?_
  simp only [Shared.report, numbered, List.append_assoc, List.singleton_append]
  exact .refl

/-! ### All calls -/

/-- A call on its own leaves the handler and the effects of `call` behind. It has returned
then, or waits for its proposal to be executed. -/
theorem steps_call {a : Call} (ran : h.call c a = .ok (h', effects)) :
    Steps c (⟨h, log⟩, Point.enter c a) (⟨h', log ++ effects⟩,
      if a.requests = 0 then none else some (.lockWait h.nextProposalSeq)) := by
  have rejected : ¬a.Accepted c → Point.enter c a = none → a.requests = 0 →
      Steps c (⟨h, log⟩, Point.enter c a) (⟨h', log ++ effects⟩,
        if a.requests = 0 then none else some (.lockWait h.nextProposalSeq)) := by
    intro refused entered none
    obtain ⟨rfl, rfl⟩ := (PBFTHandler.call_accepted ran).resolve_left refused
    rw [entered, if_pos none, List.append_nil]
  cases a with
  | getRequest req => exact steps_request ran
  | prepare master m =>
    by_cases accepted : m.checkSignature c = .ok true
    · rw [Point.enter, if_pos accepted]
      exact steps_prepare accepted ran
    · exact rejected accepted (if_neg accepted) rfl
  | commit m =>
    by_cases accepted : m.checkSignature c = .ok true
    · rw [Point.enter, if_pos accepted]
      exact steps_commit accepted ran
    · exact rejected accepted (if_neg accepted) rfl
  | reply m =>
    by_cases accepted : m.checkSignature c = .ok true
    · rw [Point.enter, if_pos accepted]
      exact steps_reply accepted ran
    · exact rejected accepted (if_neg accepted) rfl

/-- A call that returns did not end the process. -/
theorem served_of_call {a : Call} (ran : h.call c a = .ok (h', effects)) :
    Point.fatal c a = false := by
  have checked : ∀ {rest : Bool → Except Fault (PBFTHandler × List Effect)} {m : Message},
      (m.checkSignature c).bind rest = .ok (h', effects) → (m.checkSignature c).isOk = true := by
    intro rest m ran
    obtain ⟨valid, signature, -⟩ := Result.bind_ok.mp ran
    rw [signature]
    rfl
  cases a with
  | getRequest req => rfl
  | prepare | commit | reply => simp [Point.fatal, checked ran]

theorem executions_length (h : PBFTHandler) (effects : List Effect) (s : Nat) :
    ((Replica.executions h effects).filter (·.seq = s)).length =
      (effects.filterMap (Effect.executes s)).length := by
  induction effects with
  | nil => rfl
  | cons e effects ih =>
    unfold Replica.executions at ih ⊢
    cases e with
    | commitAction seq b =>
      by_cases here : seq = s
      · simp [Effect.executes, here, ih]
      · simp [Effect.executes, here, ih]
    | numbered | checkProposal | sendMessage | setPrepared => exact ih

/-- Deliveries one after the other are a run of the process, which logs what the replica
executes. -/
theorem reach_deliveries {r r' : Replica} {calls : List Call}
    (deliveries : ∀ a ∈ calls, a.requests = 0)
    (ran : Transition.exec (Replica.step c) r calls = some r') {log : List Effect}
    (logged : ∀ s, (r.executed.filter (·.seq = s)).length =
      (log.filterMap (Effect.executes s)).length) :
    ∃ log', Transition.Reach (Process.step c) Process.Freely
        (idle ⟨r.handler, log⟩) (idle ⟨r'.handler, log'⟩) ∧
      ∀ s, (r'.executed.filter (·.seq = s)).length =
        (log'.filterMap (Effect.executes s)).length := by
  induction calls generalizing r log with
  | nil =>
    cases ran
    exact ⟨log, .start, logged⟩
  | cons a calls ih =>
    obtain ⟨r₁, taken, rest⟩ := Option.bind_eq_some_iff.mp ran
    obtain ⟨effects, called, executed⟩ := Replica.step_call taken
    have solo : Steps c (⟨r.handler, log⟩, Point.enter c a)
        (⟨r₁.handler, log ++ effects⟩, none) := by
      have whole : Steps c (⟨r.handler, log⟩, Point.enter c a) (⟨r₁.handler, log ++ effects⟩,
          if a.requests = 0 then none else some (.lockWait r.handler.nextProposalSeq)) :=
        steps_call called
      rwa [if_pos (deliveries a List.mem_cons_self)] at whole
    have first : Transition.Reach (Process.step c) Process.Freely
        (idle ⟨r.handler, log⟩) (alone Point.Holds 0 ⟨r₁.handler, log ++ effects⟩ none) :=
      reach_alone (program_disciplined c) 0 (served_of_call called) solo
    rw [alone_returned] at first
    have logged₁ : ∀ s, (r₁.executed.filter (·.seq = s)).length =
        ((log ++ effects).filterMap (Effect.executes s)).length := by
      intro s
      rw [executed, List.filter_append, List.length_append, logged s, executions_length,
        List.filterMap_append, List.length_append]
    obtain ⟨log', last, logged'⟩ :=
      ih (fun b member => deliveries b (List.mem_cons_of_mem a member)) rest logged₁
    exact ⟨log', first.trans last, logged'⟩

/-- What overlapping calls execute at most once, calls that do not overlap do. -/
theorem executed_at_most_once {conf : Config} {id : Nat} {r : Replica} {calls : List Call}
    (deliveries : ∀ a ∈ calls, a.requests = 0)
    (ran : Transition.exec (Replica.step c) (Replica.start conf id) calls = some r) (s : Nat) :
    (r.executed.filter (·.seq = s)).length ≤ 1 := by
  have none_yet : ∀ s, ((Replica.start conf id).executed.filter (·.seq = s)).length =
      (([] : List Effect).filterMap (Effect.executes s)).length := fun _ => rfl
  obtain ⟨log, reached, logged⟩ := reach_deliveries deliveries ran none_yet
  rw [logged s]
  exact ((Process.outline_reached reached).always s).executedOnce

end Ruccoin.Pbft
