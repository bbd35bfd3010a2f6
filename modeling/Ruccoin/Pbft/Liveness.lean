import Ruccoin.Pbft.Agreement
import Ruccoin.Pbft.Interference
import Ruccoin.Pbft.Traffic

/-!
# What can still be completed

Messages on their way can be delivered until none is left, whatever has happened so far. Then
a proposal is completed at a replica unless every Commit for it had come in ahead of its
pre-prepare: nothing makes the replica look at them again.
-/

namespace Ruccoin.Pbft.World

open Transition PBFTHandler

variable {c : Crypto} {conf : Config} {w w' : World}

/-- A message of one of the types is delivered. -/
def Delivers (conf : Config) (types : MType → Prop) (w : World) (a : Label) : Prop :=
  w.Supportive conf a ∧
    ∃ k i master m, a = .deliver k i master ∧ w.sent[k]? = some m ∧ types m.mtype

theorem Delivers.supportive {types : MType → Prop}
    (reached : Reach (step c conf) (Supportive conf) (init conf) w)
    (later : Reach (step c conf) (Delivers conf types) w w') :
    Reach (step c conf) (Supportive conf) (init conf) w' :=
  reached.trans (later.mono fun _ _ allowed => allowed.1)

/-- A step of deliveries, with the message that arrives. -/
theorem Delivers.cases {types : MType → Prop} {a : Label} (allowed : w.Delivers conf types a)
    (taken : step c conf w a = some w') :
    ∃ i k m h effects, w.sent[k]? = some m ∧ types m.mtype ∧
      Ran c w a i (some k) h effects ∧ w' = w.record i (some k) h effects := by
  obtain ⟨-, k, i, master, m, rfl, found, type⟩ := allowed
  obtain ⟨j, source, h, effects, -, rfl, ran⟩ := step_cases taken
  cases ran with
  | prepare found' type' ran =>
    exact ⟨i, k, m, h, effects, found, type, .prepare found' type' ran, rfl⟩
  | commit found' type' ran =>
    exact ⟨i, k, m, h, effects, found, type, .commit found' type' ran, rfl⟩
  | reply found' type' ran =>
    exact ⟨i, k, m, h, effects, found, type, .reply found' type' ran, rfl⟩

/-- Deliveries hand out no numbers. -/
theorem numbers_kept {types : MType → Prop}
    (later : Reach (step c conf) (Delivers conf types) w w') :
    w'.numbers conf = w.numbers conf := by
  apply later.invariant (P := fun w' => w'.numbers conf = w.numbers conf)
  · rfl
  · intro w₁ a w₂ _ same allowed taken
    obtain ⟨i, k, m, h, effects, -, -, ran, rfl⟩ := allowed.cases taken
    exact (numbers_delivered ran).trans same

/-! ### Everything can arrive -/

section Drain

variable (keys : ∀ i < conf.n, c.KeyPair (conf.keys i).privKey (conf.keys i).addr)

include keys

/-- A message that has not arrived at a replica can. -/
theorem deliver_pending (reached : Reach (step c conf) (Supportive conf) (init conf) w)
    {k i : Nat} {m : Message} (found : w.sent[k]? = some m) (bound : i < conf.n)
    (pending : ¬w.Arrived k i) {types : MType → Prop} (type : types m.mtype) :
    ∃ w', Delivers conf types w (.deliver k i approving) ∧
      step c conf w (.deliver k i approving) = some w' := by
  have sent := List.mem_of_getElem? found
  have settings := settings_kept reached i
  have pair : c.KeyPair (w.replicas i).privKey (w.replicas i).pubKey := by
    rw [settings.privKey, settings.pubKey]
    exact keys i bound
  obtain ⟨endpoint, route⟩ : ∃ endpoint, m.mtype.endpoint = some endpoint := by
    obtain ⟨-, -, ⟨type, -⟩ | ⟨type, -⟩ | ⟨type, -⟩⟩ := sent_justified reached sent <;>
      exact ⟨_, congrArg MType.endpoint type⟩
  obtain ⟨⟨h, effects⟩, ran⟩ : ∃ result,
      (w.replicas i).call c (endpoint.call approving m) = .ok result :=
    call_returns pair (sent_valid reached sent) endpoint
  refine ⟨w.record i (some k) h effects, ?_, ?_⟩
  · exact ⟨⟨⟨trivial, trivial, pending⟩, fun b => by simp [approving]⟩, k, i, approving, m, rfl,
      found, type⟩
  · simp only [step, resolve, found, route, Option.bind_some, Option.map_some, if_pos bound, ran]

/-- Messages can be delivered until all of the given types have arrived. -/
theorem drain (types : MType → Prop)
    (reached : Reach (step c conf) (Supportive conf) (init conf) w) :
    ∃ w', Reach (step c conf) (Delivers conf types) w w' ∧
      ∀ k m, w'.sent[k]? = some m → types m.mtype → ∀ i < conf.n, w'.Arrived k i := by
  -- a run over so many numbers takes only so many calls
  have drained : ∃ w', Reach (step c conf) (Delivers conf types) w w' ∧
      Reach (step c conf) (Supportive conf) (init conf) w' ∧
      ¬∃ k m, w'.sent[k]? = some m ∧ types m.mtype ∧ ∃ i < conf.n, ¬w'.Arrived k i := by
    refine exhaust (callsLeft conf) ?_ reached
    rintro w reached ⟨k, m, found, type, i, bound, pending⟩
    obtain ⟨w₁, allowed, taken⟩ := deliver_pending keys reached found bound pending type
    have reached₁ := reached.step allowed.1 taken
    obtain ⟨j, k', m', h, effects, -, -, ran, rfl⟩ := allowed.cases taken
    exact ⟨_, _, allowed, taken, reached₁, callsLeft_delivered ran (Supportive.benign reached₁)⟩
  obtain ⟨w', later, -, done⟩ := drained
  push Not at done
  exact ⟨w', later, done⟩

end Drain

/-! ### What has been heard -/

/-- The vote of replica `v` for the number has arrived at replica `i`. -/
def Heard (w : World) (i s : Nat) (t : MType) (v : Nat) : Prop :=
  ∃ k m, w.sent[k]? = some m ∧ m.mtype = t ∧ m.seq = s ∧ m.replicaId = v ∧ w.Arrived k i

instance (w : World) (i s : Nat) (t : MType) (v : Nat) : Decidable (w.Heard i s t v) :=
  decidable_of_iff (∃ k < w.sent.length, ∃ m ∈ w.sent[k]?,
      m.mtype = t ∧ m.seq = s ∧ m.replicaId = v ∧ w.Arrived k i) <| by
    constructor
    · rintro ⟨k, -, m, found, rest⟩
      exact ⟨k, m, found, rest⟩
    · rintro ⟨k, m, found, rest⟩
      exact ⟨k, (List.getElem?_eq_some_iff.mp found).1, m, found, rest⟩

/-- Arrivals are put in front of those before. -/
theorem arrivals_suffix {guard guard' : World → Label → Prop}
    (reached : Reach (step c conf) guard (init conf) w)
    (later : Reach (step c conf) guard' w w') (i s : Nat) :
    w.arrivals i s <:+ w'.arrivals i s := by
  have any : Reach (step c conf) (fun _ _ => True) (init conf) w :=
    reached.mono fun _ _ _ => trivial
  apply later.invariant (P := fun w' => w.arrivals i s <:+ w'.arrivals i s)
  · exact List.suffix_refl _
  · intro w₁ a w₂ between suffix _ taken
    have reached₁ := any.trans (between.mono fun _ _ _ => trivial)
    obtain ⟨j, source, h, effects, -, rfl, -⟩ := step_cases taken
    rw [arrivals_record reached₁]
    exact suffix.trans (List.suffix_append _ _)

/-- A delivery makes only its own message heard. -/
theorem heard_deliver {guard : World → Label → Prop}
    (reached : Reach (step c conf) guard (init conf) w) {i j k s v : Nat} {t : MType}
    {m : Message} {h : PBFTHandler} {effects : List Effect} (found : w.sent[k]? = some m)
    (heard : (w.record j (some k) h effects).Heard i s t v) :
    w.Heard i s t v ∨ (j = i ∧ m.mtype = t ∧ m.seq = s) := by
  obtain ⟨k', m', found', type, seq, owner, arrived⟩ := heard
  rcases arrived_deliver reached found found' arrived with ⟨here, -, rfl⟩ | ⟨earlier, old⟩
  · exact Or.inr ⟨here, type, seq⟩
  · exact Or.inl ⟨k', m', earlier, type, seq, owner, old⟩

theorem Heard.mono {a : Label} (taken : step c conf w a = some w') {i s v : Nat} {t : MType}
    (heard : w.Heard i s t v) : w'.Heard i s t v := by
  obtain ⟨k, m, found, type, seq, owner, arrived⟩ := heard
  obtain ⟨j, source, h, effects, -, rfl, -⟩ := step_cases taken
  exact ⟨k, m, sent_record found, type, seq, owner, (arrived_record ..).mpr (Or.inr arrived)⟩

/-- Deliveries of other types make no vote heard. -/
theorem heard_before {types : MType → Prop} {t : MType} (other : ¬types t)
    (reached : Reach (step c conf) (Supportive conf) (init conf) w)
    (later : Reach (step c conf) (Delivers conf types) w w') {i s v : Nat}
    (heard : w'.Heard i s t v) : w.Heard i s t v := by
  induction later with
  | start => exact heard
  | step between allowed taken ih =>
    obtain ⟨j, k, m, h, effects, found, type, -, rfl⟩ := allowed.cases taken
    rcases heard_deliver (Delivers.supportive reached between) found heard with
      old | ⟨-, wrong, -⟩
    · exact ih old
    · exact absurd (wrong ▸ type) other

/-! ### In time or never -/

/-- Where the pre-prepare has arrived, a Commit that is heard after it is in time. -/
theorem heard_in_time {types : MType → Prop}
    (reached : Reach (step c conf) (Supportive conf) (init conf) w)
    (later : Reach (step c conf) (Delivers conf types) w w') {i s v : Nat}
    (known : MType.preprepare ∈ w.arrivals i s) (heard : w'.Heard i s .commit v) :
    w.Heard i s .commit v ∨ w'.InTime i s := by
  induction later with
  | start => exact Or.inl heard
  | @step between after a before allowed taken ih =>
    have reached₁ := Delivers.supportive reached before
    have taken' := taken
    obtain ⟨j, k, m, h, effects, found, -, -, rfl⟩ := allowed.cases taken
    rcases heard_deliver reached₁ found heard with old | ⟨rfl, type, rfl⟩
    · exact (ih old).imp_right (InTime.mono reached₁ taken')
    · right
      have earlier := (arrivals_suffix reached before j m.seq).subset known
      unfold InTime
      rw [arrivals_deliver reached₁ found, if_pos rfl, type]
      exact List.Sublist.cons_cons _ (List.singleton_sublist.mpr earlier)

/-- When all Commits were heard and none was in time, none will be. -/
theorem never_in_time (reached : Reach (step c conf) (Supportive conf) (init conf) w)
    {types : MType → Prop} (later : Reach (step c conf) (Delivers conf types) w w') {i s : Nat}
    (all : ∀ v < conf.n, w.Heard i s .commit v) (late : ¬w.InTime i s) : ¬w'.InTime i s := by
  suffices both : (∀ v < conf.n, w'.Heard i s .commit v) ∧ ¬w'.InTime i s from both.2
  apply later.invariant (P := fun w' => (∀ v < conf.n, w'.Heard i s .commit v) ∧ ¬w'.InTime i s)
  · exact ⟨all, late⟩
  · rintro w₁ a w₂ between ⟨heard, late⟩ allowed taken
    refine ⟨fun v member => (heard v member).mono taken, fun inTime => late ?_⟩
    have reached₁ := Delivers.supportive reached between
    have once := allowed.1.1.2.2
    obtain ⟨j, k, m, h, effects, found, -, ran, rfl⟩ := allowed.cases taken
    by_cases here : j = i
    · subst here
      unfold InTime at inTime ⊢
      rw [arrivals_deliver reached₁ found] at inTime
      split at inTime
      next seq =>
        rcases List.sublist_cons_iff.mp inTime with old | ⟨rest, split, -⟩
        · exact old
        · -- a Commit that was heard already
          have type : m.mtype = .commit := (List.cons.inj split).1.symm
          have benign := Supportive.benign reached₁
          obtain ⟨bound, -⟩ := sent_justified reached₁ (List.mem_of_getElem? found)
          obtain ⟨k', m', found', type', seq', owner, arrived⟩ := heard m.replicaId bound
          have same : SameBallot m' m :=
            ⟨type'.trans type.symm, seq'.trans seq.symm, owner⟩
          obtain rfl : k' = k := (sole benign).index found' found same
          exact absurd arrived (ran.fresh once)
      next => exact inTime
    · unfold InTime at inTime ⊢
      rwa [arrivals_other reached₁ here] at inTime

/-- What all Commits came too early for is not executed any more. -/
theorem never_executed (reached : Reach (step c conf) (Supportive conf) (init conf) w)
    {types : MType → Prop} (later : Reach (step c conf) (Delivers conf types) w w') {i s : Nat}
    (other : i ≠ conf.pbftPrimary) (all : ∀ v < conf.n, w.Heard i s .commit v)
    (late : ¬w.InTime i s) (b : String) : ¬Did w'.history i (.commitAction s b) := by
  intro executed
  rcases executed_in_time (Delivers.supportive reached later) executed with primary | inTime
  · exact other primary
  · exact never_in_time reached later all late inTime

/-- From any state the messages can be delivered so that every proposal is completed
everywhere, unless some replica other than the primary has heard all Commits for a number
and none after the pre-prepare; then no order of the deliveries completes it there. -/
theorem completable_iff
    (keys : ∀ i < conf.n, c.KeyPair (conf.keys i).privKey (conf.keys i).addr)
    (reached : Reach (step c conf) (Supportive conf) (init conf) w) :
    ((∃ w', Reach (step c conf) (Delivers conf fun _ => True) w w' ∧ w'.Completed conf) ↔
      ∀ s req, Did w.history conf.pbftPrimary (.numbered s req) → ∀ i < conf.n,
        i ≠ conf.pbftPrimary → w.InTime i s ∨ ∃ v < conf.n, ¬w.Heard i s .commit v) ∧
    ∀ s i, i ≠ conf.pbftPrimary → (∀ v < conf.n, w.Heard i s .commit v) → ¬w.InTime i s →
      ∀ w', Reach (step c conf) (Delivers conf fun _ => True) w w' →
        ∀ b, ¬Did w'.history i (.commitAction s b) := by
  refine ⟨⟨?_, ?_⟩, fun s i other all late w' later b =>
    never_executed reached later other all late b⟩
  · rintro ⟨w', later, completed⟩ s req did i bound other
    by_contra hopeless
    push Not at hopeless
    obtain ⟨late, all⟩ := hopeless
    have did' : Did w'.history conf.pbftPrimary (.numbered s req) := by
      apply later.invariant (P := fun w' => Did w'.history conf.pbftPrimary (.numbered s req))
      · exact did
      · exact fun w₁ a w₂ _ did _ taken => did_mono taken did
    exact never_executed reached later other all late _ (completed s req did' i bound).2
  · intro hopeful
    -- first the pre-prepares, then everything
    obtain ⟨w₁, first, prepared⟩ := drain keys (· = .preprepare) reached
    have reached₁ := Delivers.supportive reached first
    obtain ⟨w₂, second, done⟩ := drain keys (fun _ => True) reached₁
    have reached₂ := Delivers.supportive reached₁ second
    have later : Reach (step c conf) (Delivers conf fun _ => True) w w₂ :=
      (first.mono fun w a allowed => ⟨allowed.1, by
        obtain ⟨k, i, master, m, rest, found, -⟩ := allowed.2
        exact ⟨k, i, master, m, rest, found, trivial⟩⟩).trans second
    have quiet : w₂.Quiescent conf := by
      intro k below i bound
      exact done k _ (List.getElem?_eq_getElem below) trivial i bound
    refine ⟨w₂, later, (completed_iff reached₂ quiet).mpr fun s req did i bound other => ?_⟩
    have below : s < w.numbers conf := by
      rw [← numbers_kept later]
      exact (numbering reached₂ conf.pbftPrimary).below s req did
    obtain ⟨req₀, did₀⟩ := (numbering reached conf.pbftPrimary).all s below
    rcases hopeful s req₀ did₀ i bound other with inTime | ⟨v, member, unheard⟩
    · have lasting : w₂.InTime i s :=
        inTime.trans (arrivals_suffix reached later i s).sublist
      exact lasting
    · have known : MType.preprepare ∈ w₁.arrivals i s := by
        have below₁ : s < w₁.numbers conf := by rwa [numbers_kept first]
        obtain ⟨req₁, did₁⟩ := (numbering reached₁ conf.pbftPrimary).all s below₁
        obtain ⟨pm, sent, type, seq, -⟩ := numbered_sent reached₁ did₁
        obtain ⟨k, inside, found⟩ := List.getElem_of_mem sent
        have found : w₁.sent[k]? = some pm := List.getElem?_eq_some_iff.mpr ⟨inside, found⟩
        exact (mem_arrivals ..).mpr ⟨k, pm, found, type, seq, prepared k pm found type i bound⟩
      have heard : w₂.Heard i s .commit v := by
        obtain ⟨-, m, sent, type, seq, owner, -⟩ := quiescent_votes reached₂ quiet did member
        obtain ⟨k, inside, found⟩ := List.getElem_of_mem sent
        exact ⟨k, m, List.getElem?_eq_some_iff.mpr ⟨inside, found⟩, type, seq, owner,
          quiet k inside i bound⟩
      rcases heard_in_time reached₁ second known heard with before | inTime
      · exact absurd (heard_before (by decide) reached first before) unheard
      · exact inTime

/-- One Commit has reached replica 1 ahead of the pre-prepare, and the other is on its way. -/
theorem completable_overtaken :
    ∃ w, exec (step sampleCrypto (sampleConfig 2)) (init (sampleConfig 2))
        (latePreprepareRun.take 6) = some w ∧
      w.Heard 1 0 .commit 0 ∧ ¬w.InTime 1 0 ∧
      ∃ w', Reach (step sampleCrypto (sampleConfig 2)) (Delivers (sampleConfig 2) fun _ => True)
        w w' ∧ w'.Completed (sampleConfig 2) := by
  obtain ⟨w, ran, facts⟩ := exec_of_run
    (step sampleCrypto (sampleConfig 2)) (init (sampleConfig 2)) (latePreprepareRun.take 6)
    (p := fun w => decide (w.Heard 1 0 .commit 0 ∧ ¬w.InTime 1 0 ∧ ¬w.Heard 1 0 .commit 1 ∧
      (w.replicas 0).nextProposalSeq = 1)) (by decide +kernel)
  obtain ⟨heard, late, unheard, next⟩ := of_decide_eq_true facts
  have benign : Meets (step sampleCrypto (sampleConfig 2)) (Benign (sampleConfig 2))
      (init (sampleConfig 2)) (latePreprepareRun.take 6) := by decide +kernel
  have agreeable : ∀ a ∈ latePreprepareRun.take 6, Agreeable a := by
    simp [latePreprepareRun, Agreeable, approving]
  have reached := reach_of_exec
    ((meets_and _ _).mpr ⟨benign, meets_of_labels _ agreeable⟩) ran
  refine ⟨w, ran, heard, late, (completable_iff (sampleConfig_keys 2) reached).1.mpr ?_⟩
  intro s req did i bound other
  have only : s < 1 := next ▸ (numbering reached 0).below s req did
  have primary : (sampleConfig 2).pbftPrimary = 0 := rfl
  have two : (sampleConfig 2).n = 2 := rfl
  obtain rfl : s = 0 := by omega
  obtain rfl : i = 1 := by omega
  exact Or.inr ⟨1, by decide, unheard⟩

end Ruccoin.Pbft.World
