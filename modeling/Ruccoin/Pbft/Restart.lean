import Ruccoin.Pbft.Ballots

/-!
# Restarts of the PBFT processes

A PBFT process keeps its table in memory only: one that is started again begins with what
`Init` makes of the configuration, and what arrived before is not sent another time. When it
is not the primary that restarts, the replicas still agree and execute nothing twice, though
the votes are no longer counted once each. What saves them is the body: only the pre-prepare
brings it, and that arrives once.

## Main results

- `restarts_harmless`: whenever and however often the backups restart, no two replicas execute
  different bodies for one number, and none executes a number twice.
- `restart_forgets`: a backup that restarts executes no number any more, or again, whose
  pre-prepare it had received.
-/

namespace Ruccoin.Pbft

open Transition PBFTHandler World

/-- The process of replica `i` is started again. -/
def World.restart (conf : Config) (w : World) (i : Nat) : World :=
  { w with replicas := Function.update w.replicas i (PBFTHandler.init conf i) }

namespace Restarting

inductive Label where
  | call (a : Pbft.Label)
  | restart (i : Nat)

def step (c : Crypto) (conf : Config) (w : World) : Label → Option World
  | .call a => World.step c conf w a
  | .restart i => some (w.restart conf i)

/-- Nothing is faulty, messages arrive at most once, and the primary does not restart. -/
def Survivable (conf : Config) (w : World) : Label → Prop
  | .call a => w.Benign conf a
  | .restart i => i ≠ conf.pbftPrimary

instance (conf : Config) (w : World) (a : Label) : Decidable (Survivable conf w a) := by
  cases a <;> unfold Survivable <;> infer_instance

variable {c : Crypto} {conf : Config} {w w' : World}

theorem restart_self (w : World) (i : Nat) : (w.restart conf i).replicas i = .init conf i := by
  simp [World.restart]

theorem restart_other {i j : Nat} (other : j ≠ i) :
    (w.restart conf i).replicas j = w.replicas j := by
  simp [World.restart, other]

/-! ### What every run keeps -/

/-- A pre-prepare for the number has arrived at the replica. -/
def Heard (w : World) (i s : Nat) : Prop :=
  ∃ k m, w.sent[k]? = some m ∧ m.mtype = .preprepare ∧ m.seq = s ∧ w.Arrived k i

theorem Heard.record {i s j : Nat} {source : Option Nat} {h : PBFTHandler}
    {effects : List Effect} (heard : Heard w i s) : Heard (w.record j source h effects) i s := by
  obtain ⟨k, m, found, type, seq, arrived⟩ := heard
  exact ⟨k, m, sent_record found, type, seq, (arrived_record ..).mpr (Or.inr arrived)⟩

/-- What the primary and the network have to do with it. -/
structure Orderly (conf : Config) (w : World) : Prop where
  id : ∀ i, (w.replicas i).id = i
  numbering : w.Numbering conf.pbftPrimary
  primary : ∀ i s req, Did w.history i (.numbered s req) → i = conf.pbftPrimary
  justified : ∀ m ∈ w.sent, Justified w.history m
  single : ∀ (k k' : Nat) (m m' : Message), w.sent[k]? = some m → w.sent[k']? = some m' →
    m.mtype = .preprepare → m'.mtype = .preprepare → m.seq = m'.seq → k = k'

theorem Orderly.restart (orderly : Orderly conf w) {i : Nat} (backup : i ≠ conf.pbftPrimary) :
    Orderly conf (w.restart conf i) := by
  refine ⟨fun j => ?_, ?_, orderly.primary, orderly.justified, orderly.single⟩
  · by_cases here : j = i
    · subst here
      rw [restart_self]
      rfl
    · rw [restart_other here]
      exact orderly.id j
  have same : (w.restart conf i).replicas conf.pbftPrimary = w.replicas conf.pbftPrimary :=
    restart_other (Ne.symm backup)
  refine ⟨fun s req did => ?_, orderly.numbering.unique, fun s below => ?_⟩
  · rw [same]
    exact orderly.numbering.below s req did
  · rw [same] at below
    exact orderly.numbering.all s below

section Call

variable {a : Pbft.Label} {i : Nat} {source : Option Nat} {h : PBFTHandler}
  {effects : List Effect}

/-- A broadcast is one of those before, or the one of this call. -/
theorem sent_cases {k : Nat} {m : Message}
    (found : (w.record i source h effects).sent[k]? = some m) :
    w.sent[k]? = some m ∨
      w.sent.length ≤ k ∧ (effects.filterMap Effect.broadcast)[k - w.sent.length]? = some m := by
  rcases Nat.lt_or_ge k w.sent.length with below | beyond
  · rw [record, List.getElem?_append_left below] at found
    exact Or.inl found
  · rw [record, List.getElem?_append_right beyond] at found
    exact Or.inr ⟨beyond, found⟩

/-- A call that broadcasts a pre-prepare is a request at the primary, and broadcasts nothing
else. -/
theorem preprepare_new (allowed : w.Benign conf a) (ran : Ran c w a i source h effects)
    {m : Message} (sent : .sendMessage m ∈ effects) (type : m.mtype = .preprepare) :
    i = conf.pbftPrimary ∧ m.seq = (w.replicas i).nextProposalSeq ∧
      effects.filterMap Effect.broadcast = [m] := by
  obtain ⟨call, called⟩ := ran.call
  rcases (call_broadcast called sent).2 with ⟨-, req, numbered, -⟩ | ⟨wrong, -⟩ | ⟨wrong, -⟩
  · have request := ran.numbers allowed.1 numbered
    subst request
    have primary : i = conf.pbftPrimary := allowed.2.1
    obtain ⟨rfl, seq⟩ := (call_numbered called m.seq req).mp numbered
    obtain ⟨-, sm, -, -, -, -, rfl⟩ := preprepare_cases called
    obtain rfl : m = sm := by simpa using sent
    exact ⟨primary, seq, rfl⟩
  · rw [type] at wrong
    cases wrong
  · rw [type] at wrong
    cases wrong

theorem justified_record {m : Message} (justified : Justified w.history m) :
    Justified (w.record i source h effects).history m := by
  rcases justified with ⟨type, req, did, body⟩ | ⟨type, body, b, did⟩ | ⟨type, body, did⟩
  · exact Or.inl ⟨type, req, (did_record ..).mpr (Or.inr did), body⟩
  · exact Or.inr (Or.inl ⟨type, body, b, (did_record ..).mpr (Or.inr did)⟩)
  · exact Or.inr (Or.inr ⟨type, body, (did_record ..).mpr (Or.inr did)⟩)

theorem Orderly.call (orderly : Orderly conf w) (allowed : w.Benign conf a)
    (taken : World.step c conf w a = some w') : Orderly conf w' := by
  have numbering := numbering_step taken orderly.numbering
  obtain ⟨i, source, h, effects, -, rfl, ran⟩ := step_cases taken
  obtain ⟨call, called⟩ := ran.call
  -- the number on an earlier pre-prepare is below the counter
  have older : ∀ {k : Nat} {m : Message}, w.sent[k]? = some m → m.mtype = .preprepare →
      m.seq < (w.replicas conf.pbftPrimary).nextProposalSeq := by
    intro k m found type
    obtain ⟨req, did, -⟩ := (orderly.justified m (List.mem_of_getElem? found)).preprepare type
    exact orderly.numbering.below m.seq req (orderly.primary _ _ _ did ▸ did)
  refine ⟨fun j => ?_, numbering, fun j s req did => ?_, fun m sent => ?_,
    fun k k' m m' found found' type type' same => ?_⟩
  · rw [record_replicas]
    split
    next here =>
      rw [(call_settings called).id, here]
      exact orderly.id i
    next => exact orderly.id j
  · rcases (did_record ..).mp did with ⟨rfl, new⟩ | old
    · have toPrimary := allowed.2.1
      rw [ran.numbers allowed.1 new] at toPrimary
      exact toPrimary
    · exact orderly.primary j s req old
  · rcases (mem_record_sent ..).mp sent with old | new
    · exact justified_record (orderly.justified m old)
    · obtain ⟨sender, reports⟩ := call_broadcast called new
      have own : i = m.replicaId := by
        rw [sender]
        exact (orderly.id i).symm
      rcases reports with ⟨type, req, did, body⟩ | ⟨type, body, b, did⟩ | ⟨type, body, did⟩
      · exact Or.inl ⟨type, req, (did_record ..).mpr (Or.inl ⟨own, did⟩), body⟩
      · exact Or.inr (Or.inl ⟨type, body, b, (did_record ..).mpr (Or.inl ⟨own, did⟩)⟩)
      · exact Or.inr (Or.inr ⟨type, body, (did_record ..).mpr (Or.inl ⟨own, did⟩)⟩)
  · have newest : ∀ {k : Nat} {m : Message}, w.sent.length ≤ k →
        (effects.filterMap Effect.broadcast)[k - w.sent.length]? = some m →
        m.mtype = .preprepare →
        k = w.sent.length ∧ m.seq = (w.replicas conf.pbftPrimary).nextProposalSeq := by
      intro k m beyond new type
      obtain ⟨e, member, broadcast⟩ := List.mem_filterMap.mp (List.mem_of_getElem? new)
      obtain rfl : e = .sendMessage m := by
        cases e <;> cases broadcast
        rfl
      obtain ⟨primary, seq, only⟩ := preprepare_new allowed ran member type
      rw [only] at new
      have first := (List.getElem?_eq_some_iff.mp new).1
      simp only [List.length_singleton] at first
      exact ⟨by omega, primary ▸ seq⟩
    rcases sent_cases found with old | ⟨beyond, new⟩ <;>
      rcases sent_cases found' with old' | ⟨beyond', new'⟩
    · exact orderly.single k k' m m' old old' type type' same
    · have below := older old type
      have counter := (newest beyond' new' type').2
      omega
    · have below := older old' type'
      have counter := (newest beyond new type).2
      omega
    · rw [(newest beyond new type).1, (newest beyond' new' type').1]

/-- A body that a call fills in is the primary's for the number. At a backup it came with a
pre-prepare, which has arrived then. -/
theorem filled_in (orderly : Orderly conf w) (allowed : w.Benign conf a)
    (taken : World.step c conf w a = some w') {j s : Nat}
    (empty : ((w.replicas j).proposal s).body = "")
    (filled : ((w'.replicas j).proposal s).body ≠ "") :
    NumberedBody w'.history conf.pbftPrimary s ((w'.replicas j).proposal s).body ∧
      (j ≠ conf.pbftPrimary → ¬Heard w j s ∧ Heard w' j s) := by
  have orderly' := orderly.call allowed taken
  obtain ⟨i, source, h, effects, -, rfl, ran⟩ := step_cases taken
  by_cases here : j = i
  · subst here
    rw [record_self] at filled ⊢
    -- a vote offers nothing
    have noBody : ∀ {k : Nat} {m : Message}, w.sent[k]? = some m → m.mtype ≠ .preprepare →
        m.body = "" :=
      fun found type => (orderly.justified _ (List.mem_of_getElem? found)).vote_body type
    have offers : ∀ call : Call, (w.replicas j).call c call = .ok (h, effects) →
        (w.replicas j).supplies call = (s, (h.proposal s).body) := by
      intro call called
      rcases call_body called s with kept | ⟨-, supplied⟩
      · rw [kept] at filled
        exact absurd empty filled
      · exact supplied
    cases ran with
    | @request i req h effects ran =>
      obtain ⟨number, body⟩ := Prod.mk.inj (offers (.getRequest req) ran)
      have primary : j = conf.pbftPrimary := allowed.2.1
      have did := (call_numbered (a := .getRequest req) ran s req).mpr ⟨rfl, number.symm⟩
      refine ⟨⟨req, (did_record ..).mpr (Or.inl ⟨primary, did⟩), body⟩, fun other => ?_⟩
      exact absurd primary other
    | @prepare i k m master h effects found type ran =>
      obtain ⟨number, body⟩ := Prod.mk.inj (offers (.prepare master m) ran)
      obtain ⟨req, did, same⟩ :=
        (orderly.justified m (List.mem_of_getElem? found)).preprepare type
      have primary := orderly.primary _ _ _ did
      refine ⟨⟨req, ?_, same.trans body⟩, fun _ => ⟨?_, ?_⟩⟩
      · rw [primary, number] at did
        exact (did_record ..).mpr (Or.inr did)
      · rintro ⟨k', m', found', type', seq', arrived⟩
        -- the pre-prepare that arrives has not arrived before
        obtain rfl := orderly.single k k' m m' found found' type type' (number.trans seq'.symm)
        exact allowed.2.2 arrived
      · exact ⟨k, m, sent_record found, type, number, (arrived_record ..).mpr (Or.inl ⟨rfl, rfl⟩)⟩
    | @commit i k m master h effects found type ran =>
      obtain ⟨-, body⟩ := Prod.mk.inj (offers (.commit m) ran)
      rw [← body] at filled
      exact absurd (noBody found (by rw [type]; decide)) filled
    | @reply i k m master h effects found type ran =>
      obtain ⟨-, body⟩ := Prod.mk.inj (offers (.reply m) ran)
      rw [← body] at filled
      exact absurd (noBody found (by rw [type]; decide)) filled
    | inject ran => exact allowed.1.elim
  · rw [record_other (Ne.symm here)] at filled
    exact absurd empty filled

end Call

/-! ### What a replica has lived through -/

/-- Under the number there is the primary's body, which came to a backup with a pre-prepare;
and if the number was executed, it is marked so or can never be executed again. -/
structure Lived (conf : Config) (w : World) (i s : Nat) : Prop where
  body : ((w.replicas i).proposal s).body ≠ "" →
    NumberedBody w.history conf.pbftPrimary s ((w.replicas i).proposal s).body ∧
      (i ≠ conf.pbftPrimary → Heard w i s)
  executed : ∀ b, Did w.history i (.commitAction s b) →
    NumberedBody w.history conf.pbftPrimary s b ∧
      (((w.replicas i).proposal s).committed = true ∧ ((w.replicas i).proposal s).body = b ∧ b ≠ "" ∨
        i ≠ conf.pbftPrimary ∧ Heard w i s ∧ ((w.replicas i).proposal s).body = "")

theorem Lived.restart {i j s : Nat} (lived : Lived conf w j s) (backup : i ≠ conf.pbftPrimary) :
    Lived conf (w.restart conf i) j s := by
  by_cases here : j = i
  · subst here
    have body : (((w.restart conf j).replicas j).proposal s).body = "" := by
      rw [restart_self]
      rfl
    refine ⟨fun filled => absurd body filled, fun b did => ?_⟩
    obtain ⟨numbered, ⟨-, same, nonempty⟩ | ⟨-, heard, -⟩⟩ := lived.executed b did
    · have filled : ((w.replicas j).proposal s).body ≠ "" := by
        rw [same]
        exact nonempty
      exact ⟨numbered, Or.inr ⟨backup, (lived.body filled).2 backup, body⟩⟩
    · exact ⟨numbered, Or.inr ⟨backup, heard, body⟩⟩
  · constructor
    · rw [restart_other here]
      exact lived.body
    · rw [restart_other here]
      exact lived.executed

section Call

variable {a : Pbft.Label}

/-- A body stays when it is there, and so does the mark of an execution. -/
theorem kept_call (taken : World.step c conf w a = some w') {j s : Nat} :
    (((w.replicas j).proposal s).body ≠ "" →
      ((w'.replicas j).proposal s).body = ((w.replicas j).proposal s).body) ∧
    (((w.replicas j).proposal s).committed = true →
      ((w'.replicas j).proposal s).committed = true) := by
  rcases replica_step taken j with same | ⟨call, effects, called⟩
  · rw [same]
    exact ⟨fun _ => rfl, id⟩
  · exact ⟨call_body_kept called, fun set => (call_flags called s).committed.mpr (Or.inl set)⟩

theorem heard_call (taken : World.step c conf w a = some w') {j s : Nat} (heard : Heard w j s) :
    Heard w' j s := by
  obtain ⟨i, source, h, effects, -, rfl, -⟩ := step_cases taken
  exact heard.record

/-- No number is executed that has been executed before. -/
theorem executes_first (orderly : Orderly conf w) (allowed : w.Benign conf a)
    {i s : Nat} {source : Option Nat} {h : PBFTHandler} {effects : List Effect} {b : String}
    (taken : World.step c conf w a = some (w.record i source h effects))
    (ran : Ran c w a i source h effects) (lived : Lived conf w i s)
    (reported : .commitAction s b ∈ effects) :
    (∀ b', ¬Did w.history i (.commitAction s b')) ∧ b ≠ "" ∧ (h.proposal s).body = b ∧
      (h.proposal s).committed = true := by
  obtain ⟨call, called⟩ := ran.call
  have flags := call_flags called s
  obtain ⟨unset, nonempty, body⟩ := flags.commitAction b reported
  refine ⟨fun b' earlier => ?_, nonempty, body, flags.committed.mpr (Or.inr ⟨b, reported⟩)⟩
  obtain ⟨-, ⟨set, -⟩ | ⟨backup, heard, empty⟩⟩ := lived.executed b' earlier
  · rw [unset] at set
    cases set
  · -- a body would have had to come with another pre-prepare
    have filled : (((w.record i source h effects).replicas i).proposal s).body ≠ "" := by
      rw [record_self, body]
      exact nonempty
    exact ((filled_in orderly allowed taken empty filled).2 backup).1 heard

theorem Lived.call (orderly : Orderly conf w) (allowed : w.Benign conf a)
    (taken : World.step c conf w a = some w') {j s : Nat} (lived : Lived conf w j s) :
    Lived conf w' j s := by
  have mono : ∀ {b : String}, NumberedBody w.history conf.pbftPrimary s b →
      NumberedBody w'.history conf.pbftPrimary s b := by
    rintro b ⟨req, did, body⟩
    exact ⟨req, did_mono taken did, body⟩
  have body : ((w'.replicas j).proposal s).body ≠ "" →
      NumberedBody w'.history conf.pbftPrimary s ((w'.replicas j).proposal s).body ∧
        (j ≠ conf.pbftPrimary → Heard w' j s) := by
    intro filled
    by_cases empty : ((w.replicas j).proposal s).body = ""
    · obtain ⟨numbered, came⟩ := filled_in orderly allowed taken empty filled
      exact ⟨numbered, fun backup => (came backup).2⟩
    · obtain ⟨numbered, heard⟩ := lived.body empty
      rw [(kept_call taken).1 empty]
      exact ⟨mono numbered, fun backup => heard_call taken (heard backup)⟩
  refine ⟨body, fun b did => ?_⟩
  have new : Did w.history j (.commitAction s b) ∨ b ≠ "" ∧
      ((w'.replicas j).proposal s).body = b ∧ ((w'.replicas j).proposal s).committed = true := by
    obtain ⟨i, source, h, effects, -, rfl, ran⟩ := step_cases taken
    rcases (did_record ..).mp did with ⟨rfl, reported⟩ | old
    · rw [record_self]
      exact Or.inr (executes_first orderly allowed taken ran lived reported).2
    · exact Or.inl old
  rcases new with old | ⟨nonempty, same, set⟩
  · obtain ⟨numbered, ⟨set, same, nonempty⟩ | ⟨backup, heard, empty⟩⟩ := lived.executed b old
    · have filled : ((w.replicas j).proposal s).body ≠ "" := by
        rw [same]
        exact nonempty
      refine ⟨mono numbered, Or.inl ⟨(kept_call taken).2 set, ?_, nonempty⟩⟩
      rw [(kept_call taken).1 filled, same]
    · refine ⟨mono numbered, Or.inr ⟨backup, heard_call taken heard, ?_⟩⟩
      by_contra filled
      exact ((filled_in orderly allowed taken empty filled).2 backup).1 heard
  · have numbered := (body (by rw [same]; exact nonempty)).1
    rw [same] at numbered
    exact ⟨numbered, Or.inl ⟨set, same, nonempty⟩⟩

end Call

/-! ### Whole runs -/

/-- What holds in every run in which only backups restart. -/
structure Sound (conf : Config) (w : World) : Prop where
  orderly : Orderly conf w
  lived : ∀ i s, Lived conf w i s
  once : ∀ i, ((executions w.history i).map Prod.fst).Nodup

theorem sound_step {a : Label} (sound : Sound conf w) (allowed : Survivable conf w a)
    (taken : step c conf w a = some w') : Sound conf w' := by
  cases a with
  | restart i =>
    cases taken
    exact ⟨sound.orderly.restart allowed, fun j s => (sound.lived j s).restart allowed, sound.once⟩
  | call a =>
    have taken : World.step c conf w a = some w' := taken
    have allowed : w.Benign conf a := allowed
    refine ⟨sound.orderly.call allowed taken,
      fun j s => (sound.lived j s).call sound.orderly allowed taken, fun j => ?_⟩
    obtain ⟨i, source, h, effects, -, rfl, ran⟩ := step_cases taken
    rw [executions_record, List.map_append]
    split
    next here =>
      subst here
      obtain ⟨call, called⟩ := ran.call
      by_cases executes : ∃ s b, .commitAction s b ∈ effects
      · obtain ⟨s, b, reported⟩ := executes
        obtain ⟨-, -, -, only⟩ := call_commitAction called reported
        obtain ⟨fresh, -⟩ :=
          executes_first sound.orderly allowed taken ran (sound.lived i s) reported
        have one : (effects.filterMap Effect.execution).map Prod.fst = [s] := by
          rw [only]
          rfl
        rw [one]
        refine (sound.once i).append (List.nodup_singleton s) (List.disjoint_singleton.mpr ?_)
        intro member
        obtain ⟨⟨s', b'⟩, listed, rfl⟩ := List.mem_map.mp member
        exact fresh b' (mem_executions.mp listed)
      · have nothing : effects.filterMap Effect.execution = [] := by
          rw [List.eq_nil_iff_forall_not_mem]
          rintro ⟨s, b⟩ member
          exact executes ⟨s, b, mem_execution.mp member⟩
        rw [nothing, List.map_nil, List.append_nil]
        exact sound.once i
    next =>
      rw [List.map_nil, List.append_nil]
      exact sound.once j

theorem sound (reached : Reach (step c conf) (Survivable conf) (World.init conf) w) :
    Sound conf w := by
  apply reached.invariant (P := Sound conf)
  · refine ⟨⟨fun i => rfl, ?_, ?_, ?_, ?_⟩, fun i s => ⟨?_, ?_⟩, fun i => List.nodup_nil⟩
    · constructor <;> simp [World.init, PBFTHandler.init, Did]
    · simp [World.init, Did]
    · simp [World.init]
    · simp [World.init]
    · exact fun filled => absurd rfl filled
    · simp [World.init, Did]
  · exact fun w a w' _ sound allowed taken => sound_step sound allowed taken

/-- However often the backups restart, every body that a replica executes is the primary's for
the number, so no two replicas execute different ones, and none executes a number twice. -/
theorem restarts_harmless
    (reached : Reach (step c conf) (Survivable conf) (World.init conf) w) :
    (∀ i s b, Did w.history i (.commitAction s b) →
      NumberedBody w.history conf.pbftPrimary s b) ∧
    OneExecution w ∧ ∀ i, ((executions w.history i).map Prod.fst).Nodup := by
  have sound := sound reached
  have numbered : ∀ i s b, Did w.history i (.commitAction s b) →
      NumberedBody w.history conf.pbftPrimary s b :=
    fun i s b did => ((sound.lived i s).executed b did).1
  refine ⟨numbered, fun i j s b b' executed executed' => ?_, sound.once⟩
  obtain ⟨req, did, rfl⟩ := numbered i s b executed
  obtain ⟨req', did', rfl⟩ := numbered j s b' executed'
  rw [sound.orderly.numbering.unique s req req' did did']

/-- The backup executes the request, is started again and gets the other Prepare, whereupon it
sends a second Commit and counts it. -/
def executedEarlier : List Label :=
  [.call (.request 0 ⟨7, 1, "A"⟩), .call (.deliver 0 1 approving), .call (.deliver 1 1 approving),
    .call (.deliver 2 1 approving), .restart 1, .call (.deliver 0 0 approving),
    .call (.deliver 3 1 approving), .call (.deliver 4 1 approving)]

theorem restarts_harmless_executedEarlier :
    ∃ w, exec (step sampleCrypto (sampleConfig 2)) (World.init (sampleConfig 2)) executedEarlier =
        some w ∧
      ((w.replicas 1).proposal 0).checkVotes .commit = true ∧
      executions w.history 1 = [(0, "A")] ∧ OneExecution w := by
  obtain ⟨w, ran, facts⟩ := exec_of_run (step sampleCrypto (sampleConfig 2))
    (World.init (sampleConfig 2)) executedEarlier
    (p := fun w => decide (((w.replicas 1).proposal 0).checkVotes .commit = true ∧
      executions w.history 1 = [(0, "A")])) (by decide +kernel)
  have survivable : Meets (step sampleCrypto (sampleConfig 2)) (Survivable (sampleConfig 2))
      (World.init (sampleConfig 2)) executedEarlier := by decide +kernel
  obtain ⟨counted, executed⟩ := of_decide_eq_true facts
  exact ⟨w, ran, counted, executed, (restarts_harmless (reach_of_exec survivable ran)).2.1⟩

/-- When the primary restarts it begins to number from 0 again. -/
example :
    let run : List Label :=
      [.call (.request 0 ⟨7, 1, "A"⟩), .call (.deliver 0 0 approving),
        .call (.deliver 1 0 approving), .call (.deliver 2 0 approving), .restart 0,
        .call (.request 0 ⟨7, 2, "B"⟩), .call (.deliver 3 1 approving),
        .call (.deliver 4 1 approving), .call (.deliver 5 1 approving)]
    (exec (step sampleCrypto (sampleConfig 2)) (World.init (sampleConfig 2)) run).map
      (fun w => (executions w.history 0, executions w.history 1)) =
        some ([(0, "A")], [(0, "B")]) := by
  decide +kernel

/-- The pre-prepare has come and is gone. -/
structure Forgot (w₀ w : World) (i s : Nat) : Prop where
  heard : Heard w i s
  empty : ((w.replicas i).proposal s).body = ""
  silent : (executions w.history i).filter (·.1 = s) = (executions w₀.history i).filter (·.1 = s)

theorem forgot_step {w₀ : World} {a : Label} {i s : Nat} (sound : Sound conf w)
    (backup : i ≠ conf.pbftPrimary) (allowed : Survivable conf w a)
    (forgot : Forgot w₀ w i s) (taken : step c conf w a = some w') : Forgot w₀ w' i s := by
  cases a with
  | restart j =>
    cases taken
    refine ⟨forgot.heard, ?_, forgot.silent⟩
    by_cases here : i = j
    · rw [here, restart_self]
      rfl
    · rw [restart_other here]
      exact forgot.empty
  | call a =>
    have taken : World.step c conf w a = some w' := taken
    have allowed : w.Benign conf a := allowed
    have empty : ((w'.replicas i).proposal s).body = "" := by
      by_contra filled
      exact ((filled_in sound.orderly allowed taken forgot.empty filled).2 backup).1 forgot.heard
    refine ⟨heard_call taken forgot.heard, empty, ?_⟩
    obtain ⟨j, source, h, effects, -, rfl, ran⟩ := step_cases taken
    rw [executions_record, List.filter_append, forgot.silent]
    refine (List.self_eq_append_right.mpr (List.filter_eq_nil_iff.mpr ?_)).symm
    rintro ⟨s', b⟩ member same
    split at member
    next here =>
      -- what is executed now has a body
      obtain rfl : s' = s := of_decide_eq_true same
      subst here
      obtain ⟨-, nonempty, body, -⟩ := executes_first sound.orderly allowed taken ran
        (sound.lived j s') (mem_execution.mp member)
      rw [record_self, body] at empty
      exact nonempty empty
    next => cases member

/-- What a backup had received the pre-prepare of when it restarted it does not execute any
more, or again, in whatever way the run goes on. -/
theorem restart_forgets
    (reached : Reach (step c conf) (Survivable conf) (World.init conf) w) {i s : Nat}
    (backup : i ≠ conf.pbftPrimary) (heard : Heard w i s)
    (later : Reach (step c conf) (Survivable conf) (w.restart conf i) w') :
    (executions w'.history i).filter (·.1 = s) = (executions w.history i).filter (·.1 = s) := by
  have restarted : Reach (step c conf) (Survivable conf) (World.init conf) (w.restart conf i) :=
    reached.step (a := .restart i) backup rfl
  have forgot : Forgot w w' i s := by
    apply later.invariant
    · refine ⟨heard, ?_, rfl⟩
      rw [restart_self]
      rfl
    · intro w₁ a w₂ between forgot allowed taken
      exact forgot_step (sound (restarted.trans between)) backup allowed forgot taken
  exact forgot.silent

/-- All the votes for the request arrive at both replicas. -/
def voting : List Label :=
  .call (.deliver 0 0 approving) :: [1, 2, 3, 4].flatMap fun k =>
    [.call (.deliver k 0 approving), .call (.deliver k 1 approving)]

/-- The backup is started again between the pre-prepare and the votes. -/
theorem restart_forgets_voting :
    ∃ w w', exec (step sampleCrypto (sampleConfig 2)) (World.init (sampleConfig 2))
        [.call (.request 0 ⟨7, 1, "A"⟩), .call (.deliver 0 1 approving)] = some w ∧
      exec (step sampleCrypto (sampleConfig 2)) (w.restart (sampleConfig 2) 1) voting = some w' ∧
      Did w'.history 0 (.commitAction 0 "A") ∧
      (executions w'.history 1).filter (·.1 = 0) = [] := by
  obtain ⟨w, ran, facts⟩ := exec_of_run (step sampleCrypto (sampleConfig 2))
    (World.init (sampleConfig 2)) [.call (.request 0 ⟨7, 1, "A"⟩), .call (.deliver 0 1 approving)]
    (p := fun w => decide ((executions w.history 1).filter (·.1 = 0) = [] ∧ w.Arrived 0 1 ∧
      (w.sent[0]?).map (fun m : Message => (m.mtype, m.seq)) = some (MType.preprepare, 0) ∧
      Meets (step sampleCrypto (sampleConfig 2)) (Survivable (sampleConfig 2))
        (w.restart (sampleConfig 2) 1) voting ∧
      (exec (step sampleCrypto (sampleConfig 2)) (w.restart (sampleConfig 2) 1) voting).map
        (fun w => decide (Did w.history 0 (.commitAction 0 "A"))) = some true))
    (by decide +kernel)
  obtain ⟨silent, arrived, preprepared, survivable', goesOn⟩ := of_decide_eq_true facts
  obtain ⟨w', ran', executed⟩ := exec_of_run _ _ _ goesOn
  have survivable : Meets (step sampleCrypto (sampleConfig 2)) (Survivable (sampleConfig 2))
      (World.init (sampleConfig 2))
      [.call (.request 0 ⟨7, 1, "A"⟩), .call (.deliver 0 1 approving)] := by decide +kernel
  obtain ⟨m, found, kind⟩ := Option.map_eq_some_iff.mp preprepared
  obtain ⟨type, seq⟩ := Prod.mk.inj kind
  refine ⟨w, w', ran, ran', of_decide_eq_true executed, ?_⟩
  rw [← silent]
  exact restart_forgets (reach_of_exec survivable ran) (by decide) ⟨0, m, found, type, seq, arrived⟩
    (reach_of_exec survivable' ran')

end Restarting

end Ruccoin.Pbft
