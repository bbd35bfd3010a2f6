import Ruccoin.Pbft.FaultFree
import Mathlib.Data.Finset.Card

/-!
# Agreement with faulty replicas

A vote is an id pushed onto a list: `UpdateInfo` neither asks who signed it nor whether the
id is on the list already, and the body of a proposal is the first one that any accepted
message offers. So a single faulty replica can give two replicas different bodies and then
complete both proposals with copies of one Commit. Agreement holds as long as no replica is
given a second body for a number.
-/

namespace Ruccoin.Pbft.World

open Transition PBFTHandler

variable {c : Crypto} {conf : Config} {F : Finset Nat} {w w' : World}

/-! ### Faulty replicas -/

/-- The key of a faulty replica. -/
def Held (conf : Config) (F : Finset Nat) (key : String) : Prop :=
  ∃ i ∈ F, (conf.keys i).addr = key

/-- A message accepted under the key of a non-faulty replica has a signature that this
replica made for its text. -/
def Unforged (c : Crypto) (conf : Config) (F : Finset Nat) (w : World) (m : Message) : Prop :=
  ∀ j < conf.n, j ∉ F → (conf.keys j).addr = m.pubKey → m.checkSignature c = .ok true →
    ∃ sm ∈ w.sent, sm.replicaId = j ∧ sm.signedText = m.signedText

/-- The replicas in `F` send what they like to whom they like, signed with keys they hold;
the others run the handlers, and the network loses, delays, repeats and reorders. -/
def Byzantine (c : Crypto) (conf : Config) (F : Finset Nat) (w : World) : Label → Prop
  | .request i _ => i = conf.pbftPrimary ∧ i ∉ F
  | .deliver _ dst _ => dst ∉ F
  | .inject src dst _ m _ => src ∈ F ∧ dst ∉ F ∧ (Held conf F m.pubKey ∨ Unforged c conf F w m)

instance (conf : Config) (F : Finset Nat) (key : String) : Decidable (Held conf F key) :=
  inferInstanceAs (Decidable (∃ i ∈ F, (conf.keys i).addr = key))

/-- No two non-faulty replicas executed different bodies for one number. -/
def Agreement (F : Finset Nat) (w : World) : Prop :=
  ∀ i j s b b', i ∉ F → j ∉ F → Did w.history i (.commitAction s b) →
    Did w.history j (.commitAction s b') → b = b'

/-- No accepted call gives a non-faulty replica, which has no body for a number, another
body than the non-faulty replicas have that do. -/
def OneBody (c : Crypto) (F : Finset Nat) (w : World) (a : Label) : Prop :=
  ∀ i source call, w.resolve a = some (i, source, call) → call.Accepted c →
    ∀ s b, (w.replicas i).supplies call = (s, b) → b ≠ "" →
      ((w.replicas i).proposal s).body = "" → ∀ j, j ∉ F →
        ((w.replicas j).proposal s).body ≠ "" → ((w.replicas j).proposal s).body = b

/-- Steps are taken by non-faulty replicas. -/
theorem Byzantine.honest {a : Label} (allowed : w.Byzantine c conf F a) {i : Nat}
    {source : Option Nat} {call : Call} (resolved : w.resolve a = some (i, source, call)) :
    i ∉ F := by
  cases a with
  | request j req =>
    cases resolved
    exact allowed.2
  | deliver k dst master =>
    obtain ⟨m, -, resolved⟩ := Option.bind_eq_some_iff.mp resolved
    obtain ⟨endpoint, -, resolved⟩ := Option.map_eq_some_iff.mp resolved
    cases resolved
    exact allowed
  | inject src dst endpoint m master =>
    cases resolved
    exact allowed.2.1

/-! ### One body for each number -/

/-- The non-faulty replicas that hold a body for a number hold the same one. -/
def BodiesAgree (F : Finset Nat) (w : World) : Prop :=
  ∀ i j s, i ∉ F → j ∉ F → ((w.replicas i).proposal s).body ≠ "" →
    ((w.replicas j).proposal s).body ≠ "" →
      ((w.replicas i).proposal s).body = ((w.replicas j).proposal s).body

/-- A step that gives no second body keeps the bodies in agreement. -/
theorem bodies_step {a : Label} (agree : w.BodiesAgree F) (allowed : w.Byzantine c conf F a)
    (oneBody : w.OneBody c F a) (taken : step c conf w a = some w') : w'.BodiesAgree F := by
  obtain ⟨r, source, call, h, effects, resolved, -, ran, rfl⟩ := step_resolve taken
  have honestR := allowed.honest resolved
  -- the replica that took the step against any other one
  have moved : ∀ j s, j ∉ F → j ≠ r → (h.proposal s).body ≠ "" →
      ((w.replicas j).proposal s).body ≠ "" →
      (h.proposal s).body = ((w.replicas j).proposal s).body := by
    intro j s honest other filled filled'
    rcases call_body ran s with kept | ⟨empty, supplied⟩
    · -- it had the body before
      rw [kept] at filled ⊢
      exact agree r j s honestR honest filled filled'
    · -- it took the body that an accepted call offered
      rcases call_accepted ran with accepted | ⟨rfl, -⟩
      · exact (oneBody r source call resolved accepted s _ supplied filled empty j honest
          filled').symm
      · exact absurd empty filled
  intro i j s honest honest' filled filled'
  rw [record_replicas] at filled filled' ⊢
  rw [record_replicas]
  by_cases hereI : i = r
  · by_cases hereJ : j = r
    · rw [hereI, hereJ]
    · rw [if_pos hereI] at filled ⊢
      rw [if_neg hereJ] at filled' ⊢
      exact moved j s honest' hereJ filled filled'
  · rw [if_neg hereI] at filled ⊢
    by_cases hereJ : j = r
    · rw [if_pos hereJ] at filled' ⊢
      exact (moved i s honest hereI filled' filled).symm
    · rw [if_neg hereJ] at filled' ⊢
      exact agree i j s honest honest' filled filled'

/-- While no second body is given, the non-faulty replicas hold one body for each number. -/
theorem bodies_agree
    (reached : Reach (step c conf) (fun w a => Byzantine c conf F w a ∧ OneBody c F w a)
      (init conf) w) : w.BodiesAgree F := by
  apply reached.invariant (P := BodiesAgree F)
  · intro i j s _ _ filled
    exact absurd rfl filled
  · intro w a w' _ agree allowed taken
    exact bodies_step agree allowed.1 allowed.2 taken

/-- A replica executes the body it holds, so while no second body is given they agree. -/
theorem agreement_of_oneBody
    (reached : Reach (step c conf) (fun w a => Byzantine c conf F w a ∧ OneBody c F w a)
      (init conf) w) : Agreement F w := by
  intro i j s b b' honest honest' executed executed'
  obtain ⟨nonempty, body⟩ := executed_body reached executed
  obtain ⟨nonempty', body'⟩ := executed_body reached executed'
  have same := bodies_agree reached i j s honest honest' (by rw [body]; exact nonempty)
    (by rw [body']; exact nonempty')
  rw [← body, ← body']
  exact same

/-- Without faulty replicas the bodies are those of the primary's requests. -/
theorem agreement_of_faultFree (reached : Reach (step c conf) (Byzantine c conf ∅) (init conf) w) :
    Agreement ∅ w := by
  have trusted : Reach (step c conf) (Trusted conf) (init conf) w := by
    refine reached.mono fun w a allowed => ?_
    cases a with
    | request i req => exact ⟨trivial, allowed.1⟩
    | deliver k dst master => exact ⟨trivial, trivial⟩
    | inject src dst endpoint m master => exact absurd allowed.1 (Finset.notMem_empty _)
  intro i j s b b' _ _ executed executed'
  exact one_execution trusted i j s b b' executed executed'

/-! ### What one faulty replica can do -/

/-- A replica signs any message it likes with its own key. -/
theorem signed_message (keys : ∀ i < conf.n, c.KeyPair (conf.keys i).privKey (conf.keys i).addr)
    {src : Nat} (bound : src < conf.n) {t : MType} (known : t.Known) (s : Nat) (body : String) :
    ∃ m : Message, m.mtype = t ∧ m.seq = s ∧ m.body = body ∧
      m.pubKey = (conf.keys src).addr ∧ m.checkSignature c = .ok true := by
  let m : Message :=
    { mtype := t, replicaId := src, clientId := 0, timeStamp := 0,
      pubKey := (conf.keys src).addr, seq := s, viewId := 0, digest := "", body := body }
  obtain ⟨sm, signed, valid⟩ := Message.checkSignature_signate (m := m) (keys src bound) known
  have frame := Message.signate_frame signed
  refine ⟨sm, ?_, ?_, ?_, ?_, valid⟩
  all_goals rw [frame]

/-- What a faulty replica signs with its own key it may send to anyone. -/
theorem sends (endpoint : Endpoint) {src r : Nat} {m : Message} (faulty : src ∈ F) (honest : r ∉ F)
    (bound : r < conf.n) (key : m.pubKey = (conf.keys src).addr) {h : PBFTHandler}
    {effects : List Effect}
    (ran : (w.replicas r).call c (endpoint.call approving m) = .ok (h, effects)) :
    Reach (step c conf) (Byzantine c conf F) w (w.record r none h effects) := by
  have allowed : Byzantine c conf F w (.inject src r endpoint m approving) :=
    ⟨faulty, honest, Or.inl ⟨src, faulty, key.symm⟩⟩
  exact .step .start allowed (step_inject bound ran)

/-- One copy of a Commit: the replica executes its proposal, or has one vote more and still
too few. -/
theorem one_copy {src r : Nat} {m : Message} (faulty : src ∈ F) (honest : r ∉ F)
    (bound : r < conf.n) (type : m.mtype = .commit) (key : m.pubKey = (conf.keys src).addr)
    (valid : m.checkSignature c = .ok true)
    (filled : ((w.replicas r).proposal m.seq).body ≠ "")
    (unset : ((w.replicas r).proposal m.seq).committed = false) :
    ∃ h effects, Reach (step c conf) (Byzantine c conf F) w (w.record r none h effects) ∧
      h.f = (w.replicas r).f ∧
      (.commitAction m.seq ((w.replicas r).proposal m.seq).body ∈ effects ∨
        ((h.proposal m.seq).body = ((w.replicas r).proposal m.seq).body ∧
          (h.proposal m.seq).committed = false ∧
          ((h.proposal m.seq).votesOf .commit m.digest).length =
            (((w.replicas r).proposal m.seq).votesOf .commit m.digest).length + 1 ∧
          ((h.proposal m.seq).votesOf .commit m.digest).length < 2 * (w.replicas r).f + 1)) := by
  obtain ⟨same, replies⟩ := reply_of_valid (h := w.replicas r) valid
  have body : (((w.replicas r).findOrCreate m).updateInfo m).body =
      ((w.replicas r).proposal m.seq).body := by
    rw [Proposal.updateInfo_body]
    exact ((w.replicas r).findOrCreate_body m).resolve_right fun empty => filled empty.1
  have uncommitted : (((w.replicas r).findOrCreate m).updateInfo m).committed = false := by
    simpa using unset
  have votes : (((w.replicas r).findOrCreate m).updateInfo m).votesOf .commit m.digest =
      ((w.replicas r).proposal m.seq).votesOf .commit m.digest ++ [m.replicaId] := by
    rw [Proposal.updateInfo_votesOf, if_pos ⟨type, rfl, Or.inr rfl⟩,
      (findOrCreate_votes _ m).votesOf]
  dsimp only at replies
  split at replies
  next executes =>
    -- the copy was the last one needed
    refine ⟨_, _, sends .reply faulty honest bound key replies, rfl, Or.inl ?_⟩
    rw [body]
    exact List.mem_singleton.mpr rfl
  next waits =>
    refine ⟨_, _, sends .reply faulty honest bound key replies, rfl, Or.inr ?_⟩
    rw [setProposal_proposal, if_pos rfl, votes]
    refine ⟨body, uncommitted, List.length_append, ?_⟩
    -- with enough votes the proposal would have been executed
    by_contra enough
    refine waits ⟨?_, uncommitted, by rw [body]; exact filled⟩
    rw [type, Proposal.checkVotes_commit]
    refine Or.inr ⟨m.digest, ?_⟩
    rw [votes, Proposal.updateInfo_f, findOrCreate_f]
    omega

/-- A replica that executes a body leaves all the others as they were. -/
private theorem executed_alone {r s : Nat} {b : String} {h : PBFTHandler} {effects : List Effect}
    (reached : Reach (step c conf) (Byzantine c conf F) w (w.record r none h effects))
    (executed : .commitAction s b ∈ effects) :
    ∃ w', Reach (step c conf) (Byzantine c conf F) w w' ∧ Did w'.history r (.commitAction s b) ∧
      (∀ j ≠ r, w'.replicas j = w.replicas j) ∧
      ∀ j e, Did w.history j e → Did w'.history j e := by
  refine ⟨_, reached, (did_record ..).mpr (Or.inl ⟨rfl, executed⟩), ?_, ?_⟩
  · intro j other
    exact record_other other.symm
  · intro j e did
    exact (did_record ..).mpr (Or.inr did)

/-- Copies of one Commit complete a proposal: when `missing + 1` votes are enough, that many
are sent. -/
theorem completed_by_copies {src r : Nat} {m : Message} (faulty : src ∈ F) (honest : r ∉ F)
    (bound : r < conf.n) (type : m.mtype = .commit) (key : m.pubKey = (conf.keys src).addr)
    (valid : m.checkSignature c = .ok true) (missing : Nat) (w : World)
    (enough : 2 * (w.replicas r).f + 1 ≤
      (((w.replicas r).proposal m.seq).votesOf .commit m.digest).length + missing + 1)
    (filled : ((w.replicas r).proposal m.seq).body ≠ "")
    (unset : ((w.replicas r).proposal m.seq).committed = false) :
    ∃ w', Reach (step c conf) (Byzantine c conf F) w w' ∧
      Did w'.history r (.commitAction m.seq ((w.replicas r).proposal m.seq).body) ∧
      (∀ j ≠ r, w'.replicas j = w.replicas j) ∧
      ∀ j e, Did w.history j e → Did w'.history j e := by
  induction missing generalizing w with
  | zero =>
    obtain ⟨h, effects, reached, -, executed | ⟨-, -, more, few⟩⟩ :=
      one_copy faulty honest bound type key valid filled unset
    · exact executed_alone reached executed
    · omega
  | succ missing ih =>
    obtain ⟨h, effects, reached, f, executed | ⟨body, uncommitted, more, -⟩⟩ :=
      one_copy faulty honest bound type key valid filled unset
    · exact executed_alone reached executed
    · obtain ⟨w', rest, executed, others, history⟩ :=
        ih (w.record r none h effects) (by rw [record_self]; omega)
          (by rw [record_self, body]; exact filled) (by rw [record_self]; exact uncommitted)
      rw [record_self, body] at executed
      refine ⟨w', reached.trans rest, executed, ?_, ?_⟩
      · intro j other
        rw [others j other, record_other other.symm]
      · intro j e did
        exact history j e ((did_record ..).mpr (Or.inr did))

/-- With one faulty replica, whoever holds a body can be made to execute it, and nobody else
is touched. -/
theorem made_to_execute
    (keys : ∀ i < conf.n, c.KeyPair (conf.keys i).privKey (conf.keys i).addr)
    {src r s : Nat} (faulty : src ∈ F) (configured : src < conf.n) (honest : r ∉ F)
    (bound : r < conf.n) (reached : Reach (step c conf) (Byzantine c conf F) (init conf) w)
    (filled : ((w.replicas r).proposal s).body ≠ "") :
    ∃ w', Reach (step c conf) (Byzantine c conf F) w w' ∧
      Did w'.history r (.commitAction s ((w.replicas r).proposal s).body) ∧
      (∀ j ≠ r, w'.replicas j = w.replicas j) ∧
      ∀ j e, Did w.history j e → Did w'.history j e := by
  cases committed : ((w.replicas r).proposal s).committed with
  | true =>
    -- it has executed the body already
    obtain ⟨b, did⟩ := (flags_reported reached r s).committed.mp committed
    have body := (executed_body reached did).2
    exact ⟨w, .start, by rw [body]; exact did, fun _ _ => rfl, fun _ _ did => did⟩
  | false =>
    -- no vote need have been counted yet, so `2f + 1` copies are enough
    obtain ⟨m, type, rfl, -, key, valid⟩ :=
      signed_message keys configured MType.known_commit s ""
    exact completed_by_copies faulty honest bound type key valid (2 * (w.replicas r).f) w
      (by omega) filled committed

/-- Two replicas with different bodies for a number can be made to execute them. -/
theorem disagreement
    (keys : ∀ i < conf.n, c.KeyPair (conf.keys i).privKey (conf.keys i).addr)
    {src i j s : Nat} (faulty : src ∈ F) (configured : src < conf.n) (honest : i ∉ F)
    (honest' : j ∉ F) (bound : i < conf.n) (bound' : j < conf.n)
    (reached : Reach (step c conf) (Byzantine c conf F) (init conf) w)
    (filled : ((w.replicas i).proposal s).body ≠ "")
    (filled' : ((w.replicas j).proposal s).body ≠ "")
    (differ : ((w.replicas i).proposal s).body ≠ ((w.replicas j).proposal s).body) :
    ∃ w', Reach (step c conf) (Byzantine c conf F) w w' ∧ ¬Agreement F w' := by
  have other : j ≠ i := by
    rintro rfl
    exact differ rfl
  obtain ⟨w₁, reached₁, executed, others, -⟩ :=
    made_to_execute keys faulty configured honest bound reached filled
  -- the second replica has not noticed
  have kept : (w₁.replicas j).proposal s = (w.replicas j).proposal s := by
    rw [others j other]
  obtain ⟨w₂, reached₂, executed', -, history⟩ :=
    made_to_execute (w := w₁) (s := s) keys faulty configured honest' bound'
      (reached.trans reached₁) (by rw [kept]; exact filled')
  rw [kept] at executed'
  refine ⟨w₂, reached₁.trans reached₂, fun agreement => differ ?_⟩
  exact agreement i j s _ _ honest honest' (history _ _ executed) executed'

/-- A faulty replica gives a replica that has no body for a number the body it likes. -/
theorem given_body
    (keys : ∀ i < conf.n, c.KeyPair (conf.keys i).privKey (conf.keys i).addr)
    {src r s : Nat} (faulty : src ∈ F) (configured : src < conf.n) (honest : r ∉ F)
    (bound : r < conf.n) (reached : Reach (step c conf) (Byzantine c conf F) (init conf) w)
    (empty : ((w.replicas r).proposal s).body = "") (b : String) :
    ∃ w', Reach (step c conf) (Byzantine c conf F) w w' ∧
      ((w'.replicas r).proposal s).body = b ∧ ∀ j ≠ r, w'.replicas j = w.replicas j := by
  obtain ⟨m, -, rfl, body, key, valid⟩ :=
    signed_message keys configured MType.known_preprepare s b
  have settings := settings_kept reached r
  have pair : c.KeyPair (w.replicas r).privKey (w.replicas r).pubKey := by
    rw [settings.privKey, settings.pubKey]
    exact keys r bound
  have approves : ∀ p, checkProposal approving p = true := fun _ => rfl
  obtain ⟨same, effects, ran⟩ := prepare_of_valid valid approves pair
  refine ⟨_, sends .prepare faulty honest bound key ran, ?_, ?_⟩
  · rw [record_self, setProposal_proposal, if_pos rfl, storeBody_body, if_pos empty, body]
  · intro j other
    exact record_other other.symm

/-- Agreement holds in every run exactly when no replica is faulty. With faulty replicas it
holds in every run in which no non-faulty replica is given a second body for a number, and
once two of them hold different bodies it can be broken. -/
theorem agreement_iff
    (keys : ∀ i < conf.n, c.KeyPair (conf.keys i).privKey (conf.keys i).addr)
    (configured : ∀ i ∈ F, i < conf.n) (few : F.card ≤ conf.f) :
    ((∀ w, Reach (step c conf) (Byzantine c conf F) (init conf) w → Agreement F w) ↔ F = ∅) ∧
      (∀ w, Reach (step c conf) (fun w a => Byzantine c conf F w a ∧ OneBody c F w a)
        (init conf) w → Agreement F w) ∧
      ∀ w, Reach (step c conf) (Byzantine c conf F) (init conf) w → F ≠ ∅ →
        (∃ i < conf.n, ∃ j < conf.n, ∃ s, i ∉ F ∧ j ∉ F ∧
          ((w.replicas i).proposal s).body ≠ "" ∧ ((w.replicas j).proposal s).body ≠ "" ∧
          ((w.replicas i).proposal s).body ≠ ((w.replicas j).proposal s).body) →
        ∃ w', Reach (step c conf) (Byzantine c conf F) w w' ∧ ¬Agreement F w' := by
  have broken : ∀ w, Reach (step c conf) (Byzantine c conf F) (init conf) w → F ≠ ∅ →
      (∃ i < conf.n, ∃ j < conf.n, ∃ s, i ∉ F ∧ j ∉ F ∧
        ((w.replicas i).proposal s).body ≠ "" ∧ ((w.replicas j).proposal s).body ≠ "" ∧
        ((w.replicas i).proposal s).body ≠ ((w.replicas j).proposal s).body) →
      ∃ w', Reach (step c conf) (Byzantine c conf F) w w' ∧ ¬Agreement F w' := by
    rintro w reached nonempty ⟨i, bound, j, bound', s, honest, honest', filled, filled', differ⟩
    obtain ⟨src, faulty⟩ := Finset.nonempty_iff_ne_empty.mpr nonempty
    exact disagreement keys faulty (configured src faulty) honest honest' bound bound' reached
      filled filled' differ
  refine ⟨⟨?_, ?_⟩, fun w reached => agreement_of_oneBody reached, broken⟩
  · intro agreement
    by_contra nonempty
    obtain ⟨src, faulty⟩ := Finset.nonempty_iff_ne_empty.mpr nonempty
    have bound := configured src faulty
    -- there are two replicas left that are not faulty
    have some_faulty : 0 < F.card := Finset.card_pos.mpr ⟨src, faulty⟩
    have many : 1 < (Finset.range conf.n \ F).card := by
      have split := Finset.le_card_sdiff F (Finset.range conf.n)
      rw [Finset.card_range] at split
      unfold Config.f at few
      omega
    obtain ⟨i, memberI, j, memberJ, differ⟩ := Finset.one_lt_card.mp many
    obtain ⟨belowI, honestI⟩ := Finset.mem_sdiff.mp memberI
    obtain ⟨belowJ, honestJ⟩ := Finset.mem_sdiff.mp memberJ
    have boundI := Finset.mem_range.mp belowI
    have boundJ := Finset.mem_range.mp belowJ
    -- they are told "A" and "B" for the number 0
    obtain ⟨w₁, reached₁, toldI, others₁⟩ :=
      given_body (w := init conf) (s := 0) keys faulty bound honestI boundI .start rfl "A"
    obtain ⟨w₂, reached₂, toldJ, others₂⟩ :=
      given_body (w := w₁) (s := 0) keys faulty bound honestJ boundJ reached₁
        (by rw [others₁ j (Ne.symm differ)]; rfl) "B"
    rw [← others₂ i differ] at toldI
    obtain ⟨w₃, reached₃, broken⟩ := broken w₂ (reached₁.trans reached₂) nonempty
      ⟨i, boundI, j, boundJ, 0, honestI, honestJ, by rw [toldI]; decide, by rw [toldJ]; decide,
        by rw [toldI, toldJ]; decide⟩
    exact broken (agreement w₃ ((reached₁.trans reached₂).trans reached₃))
  · rintro rfl w reached
    exact agreement_of_faultFree reached

/-- Four replicas, of which the last is faulty. -/
theorem agreement_four :
    ¬(∀ w, Reach (step sampleCrypto (sampleConfig 4)) (Byzantine sampleCrypto (sampleConfig 4) {3})
      (init (sampleConfig 4)) w → Agreement {3} w) := by
  intro agreement
  have empty := (agreement_iff (sampleConfig_keys 4) (F := {3}) (by decide) (by decide)).1.mp
    agreement
  exact absurd empty (by decide)

/-- A message of replica 3, signed with its own key. -/
def ownMessage (t : MType) (body : String) : Message :=
  let m : Message :=
    { mtype := t, replicaId := 3, clientId := 0, timeStamp := 0, pubKey := "0418093", seq := 0,
      viewId := 0, digest := "", body := body }
  match m.signate sampleCrypto "18093" with
  | .ok sm => sm
  | .error _ => m

/-- Replica 3 gives replica 1 the body "A" and replica 2 the body "B", and sends each of them
three copies of one Commit. -/
def equivocatingRun : List Label :=
  [.inject 3 1 .prepare (ownMessage .preprepare "A") approving,
    .inject 3 2 .prepare (ownMessage .preprepare "B") approving] ++
    List.replicate 3 (.inject 3 1 .reply (ownMessage .commit "") approving) ++
    List.replicate 3 (.inject 3 2 .reply (ownMessage .commit "") approving)

theorem agreement_broken :
    ∃ w, Reach (step sampleCrypto (sampleConfig 4)) (Byzantine sampleCrypto (sampleConfig 4) {3})
        (init (sampleConfig 4)) w ∧
      Did w.history 1 (.commitAction 0 "A") ∧ Did w.history 2 (.commitAction 0 "B") ∧
      ¬Agreement {3} w := by
  obtain ⟨w, ran, facts⟩ := exec_of_run
    (step sampleCrypto (sampleConfig 4)) (init (sampleConfig 4))
    equivocatingRun
    (p := fun w => decide (Did w.history 1 (.commitAction 0 "A") ∧
      Did w.history 2 (.commitAction 0 "B"))) (by decide +kernel)
  obtain ⟨executedA, executedB⟩ := of_decide_eq_true facts
  have injected : ∀ a ∈ equivocatingRun, ∃ dst endpoint m,
      a = .inject 3 dst endpoint m approving ∧ dst ∉ ({3} : Finset Nat) ∧
        Held (sampleConfig 4) {3} m.pubKey := by
    intro a member
    simp only [equivocatingRun, List.cons_append, List.nil_append, List.mem_cons,
      List.mem_append, List.mem_replicate] at member
    rcases member with rfl | rfl | ⟨-, rfl⟩ | ⟨-, rfl⟩
    all_goals exact ⟨_, _, _, rfl, by decide, by decide +kernel⟩
  have reached := reach_of_exec (meets_of_labels (init (sampleConfig 4)) injected) ran
  refine ⟨w, reached.mono ?_, executedA, executedB, fun agreement => ?_⟩
  · rintro w a ⟨dst, endpoint, m, rfl, honest, held⟩
    exact ⟨Finset.mem_singleton.mpr rfl, honest, Or.inl held⟩
  · have same := agreement 1 2 0 "A" "B" (by decide) (by decide) executedA executedB
    exact absurd same (by decide)

end Ruccoin.Pbft.World
