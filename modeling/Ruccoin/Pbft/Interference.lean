import Ruccoin.Foundation.Unwinding
import Ruccoin.Pbft.Replica
import Ruccoin.Pbft.World

/-!
# Proposals and the messages for others

What a replica makes of a proposal depends on the messages with its number alone, as long as
its process is there. Two handlers with the same settings and the same entry for a number
treat a message for that number alike, and a message for another number touches neither the
entry nor sends anything under the number. But a message whose type `ToInt` does not know
ends the process, whatever number it carries. The rest is unwinding.
-/

namespace Ruccoin.Pbft

/-- The sequence number an effect is about. -/
def Effect.seq : Effect → Nat
  | .numbered s _ => s
  | .checkProposal s _ _ => s
  | .sendMessage m => m.seq
  | .setPrepared s => s
  | .commitAction s _ => s

namespace PBFTHandler

variable {c : Crypto} {master : Master} {h h' g : PBFTHandler} {m : Message}
  {effects : List Effect} {s : Nat}

/-- A message arrives at one of the three procedures. What the procedure raises is caught
nowhere, so it ends the process, as a failed assertion does. -/
abbrev deliver (c : Crypto) (master : Master) (h : PBFTHandler) (d : Endpoint × Message) :
    Except Fault (PBFTHandler × List Effect) :=
  h.call c (d.1.call master d.2)

/-- The messages arrive one after the other, as long as the process is there. -/
abbrev deliverAll (c : Crypto) (master : Master) :
    PBFTHandler → List (Endpoint × Message) →
      Unwinding.Course PBFTHandler Effect Fault :=
  Unwinding.run (deliver c master)

/-! ### Which calls return -/

/-- A message that is accepted makes the call return, unless the handler's own keys are no
pair. -/
theorem call_returns (pair : c.KeyPair h.privKey h.pubKey)
    (accepted : m.checkSignature c = .ok true) (endpoint : Endpoint) :
    ∃ result, h.call c (endpoint.call master m) = .ok result := by
  -- what a handler signs is of a type that `ToInt` knows
  have signs : ∀ (k : PBFTHandler) (t : MType), SameSettings h k → t.Known →
      ∃ sm, k.sign c (k.vote c t m) = .ok sm := by
    intro k t settings known
    have pair' : c.KeyPair k.privKey (k.vote c t m).pubKey := by
      rw [vote, settings.privKey, settings.pubKey]
      exact pair
    obtain ⟨sm, signed, -⟩ := sign_ok pair' known
    exact ⟨sm, signed⟩
  cases endpoint with
  | prepare =>
    rw [Endpoint.call, call, prepare_of_accepted accepted]
    dsimp only
    split
    · obtain ⟨sm, signed⟩ := signs (h.setProposal m.seq (h.storeBody m) (h.storeBody_f m))
        .prepare (setProposal_settings ..) MType.known_prepare
      exact ⟨_, by rw [signed]; rfl⟩
    · exact ⟨_, rfl⟩
  | commit =>
    rw [Endpoint.call, call, commit_of_accepted accepted]
    dsimp only
    split
    · obtain ⟨sm, signed⟩ := signs
        (h.setProposal m.seq { h.counting m with prepared := true } (h.counting_f m))
        .commit (setProposal_settings ..) MType.known_commit
      exact ⟨_, by rw [signed]; rfl⟩
    · exact ⟨_, rfl⟩
  | reply =>
    obtain ⟨same, runs⟩ := reply_of_valid (h := h) accepted
    rw [Endpoint.call, call, runs]
    dsimp only
    split <;> exact ⟨_, rfl⟩

/-- What the three procedures do with a message that they do not accept. -/
theorem call_of_rejected (rejected : m.checkSignature c ≠ .ok true) (endpoint : Endpoint) :
    h.call c (endpoint.call master m) = (m.checkSignature c).map fun _ => (h, []) := by
  cases checked : m.checkSignature c with
  | error e =>
    cases endpoint <;> simp [Endpoint.call, call, prepare, commit, reply, checked, Except.bind,
      Except.map]
  | ok valid =>
    cases valid with
    | true => exact absurd checked rejected
    | false =>
      cases endpoint <;> simp [Endpoint.call, call, prepare, commit, reply, checked, Except.bind,
        Except.map]

theorem checkSignature_ok (known : m.mtype.Known) : ∃ valid, m.checkSignature c = .ok valid := by
  obtain ⟨text, signed⟩ := Message.signedText_of_known known
  exact ⟨_, by rw [Message.checkSignature, signed]; rfl⟩

/-- Under the handler's own key pair a delivery returns when `ToInt` knows the type. -/
theorem deliver_returns (pair : c.KeyPair h.privKey h.pubKey) {d : Endpoint × Message}
    (known : d.2.mtype.Known) :
    ∃ h' effects, deliver c master h d = .ok (h', effects) ∧
      c.KeyPair h'.privKey h'.pubKey := by
  by_cases accepted : d.2.checkSignature c = .ok true
  · obtain ⟨⟨h', effects⟩, ran⟩ : ∃ result, h.call c (d.1.call master d.2) = .ok result :=
      call_returns pair accepted d.1
    have settings := call_settings ran
    refine ⟨h', effects, ran, ?_⟩
    rwa [settings.privKey, settings.pubKey]
  · obtain ⟨valid, checked⟩ := checkSignature_ok (c := c) known
    refine ⟨h, [], ?_, pair⟩
    rw [deliver, call_of_rejected accepted, checked]
    rfl

/-- The check puts the type into the text, so it raises what `ToInt` raises. -/
theorem checkSignature_raises (unknown : ¬m.mtype.Known) :
    ∃ what, m.checkSignature c = .error (.invalidArgument what) := by
  cases type : m.mtype with
  | other code => exact ⟨_, by rw [Message.checkSignature, Message.signedText, type]; rfl⟩
  | preprepare => exact absurd (type ▸ MType.known_preprepare) unknown
  | prepare => exact absurd (type ▸ MType.known_prepare) unknown
  | commit => exact absurd (type ▸ MType.known_commit) unknown

/-- A type that `ToInt` does not know raises its exception, whatever else is in the message. -/
theorem deliver_raises {d : Endpoint × Message} (unknown : ¬d.2.mtype.Known) :
    ∃ what, deliver c master h d = .error (.invalidArgument what) := by
  obtain ⟨what, checked⟩ := checkSignature_raises (c := c) unknown
  refine ⟨what, ?_⟩
  rw [deliver, call_of_rejected (by rw [checked]; exact nofun), checked]
  rfl

/-! ### Two handlers that agree on a number -/

/-- The same settings, and the same entry under the number. -/
structure Agree (s : Nat) (h g : PBFTHandler) : Prop where
  settings : SameSettings h g
  entry : g.proposals s = h.proposals s

/-- The same end of a call, but for what the two handlers do not agree on. -/
def SameEnd (s : Nat) : Except Fault (PBFTHandler × List Effect) →
    Except Fault (PBFTHandler × List Effect) → Prop
  | .ok (h, effects), .ok (g, effects') => Agree s h g ∧ effects' = effects
  | .error e, .error e' => e' = e
  | _, _ => False

theorem SameEnd.map {h g : PBFTHandler} (agree : Agree s h g) {ε : Type}
    (x : Except Fault ε) (report : ε → List Effect) :
    SameEnd s (x.map fun a => (h, report a)) (x.map fun a => (g, report a)) := by
  cases x with
  | error e => rfl
  | ok a => exact ⟨agree, rfl⟩

theorem Agree.storeBody (agree : Agree m.seq h g) : g.storeBody m = h.storeBody m := by
  simp only [PBFTHandler.storeBody, agree.entry, agree.settings.f]

theorem Agree.counting (agree : Agree m.seq h g) : g.counting m = h.counting m := by
  simp only [PBFTHandler.counting, findOrCreate, agree.entry, agree.settings.f]

theorem Agree.sign_vote (agree : Agree s h g) (t : MType) (m : Message) :
    g.sign c (g.vote c t m) = h.sign c (h.vote c t m) := by
  simp only [sign, vote, agree.settings.id, agree.settings.privKey, agree.settings.pubKey]

/-- The same entry is written on both sides. -/
theorem Agree.setProposal (agree : Agree s h g) {p q : Proposal} (written : q = p)
    (same : p.f = h.f) (same' : q.f = g.f) :
    Agree s (h.setProposal s p same) (g.setProposal s q same') := by
  subst written
  obtain ⟨id, currentPrimary, privKey, pubKey, f, nodes⟩ := agree.settings
  refine ⟨⟨id, currentPrimary, privKey, pubKey, f, nodes⟩, ?_⟩
  simp only [PBFTHandler.setProposal, Function.update_self]

/-- A message for the number ends the same way at both. -/
theorem call_agree (agree : Agree m.seq h g) (endpoint : Endpoint) :
    SameEnd m.seq (h.call c (endpoint.call master m)) (g.call c (endpoint.call master m)) := by
  by_cases accepted : m.checkSignature c = .ok true
  · -- the test that each handler makes is on the entry, which is the same
    cases endpoint with
    | prepare =>
      have stored := agree.setProposal agree.storeBody (h.storeBody_f m) (g.storeBody_f m)
      simp only [Endpoint.call, call, prepare_of_accepted accepted, stored.sign_vote]
      simp only [agree.storeBody] at stored ⊢
      split
      · exact .map stored _ _
      · exact ⟨stored, rfl⟩
    | commit =>
      have counted := agree.setProposal agree.counting (h.counting_f m) (g.counting_f m)
      have raised := agree.setProposal (p := { h.counting m with prepared := true })
        (q := { g.counting m with prepared := true }) (by rw [agree.counting])
        (h.counting_f m) (g.counting_f m)
      simp only [Endpoint.call, call, commit_of_accepted accepted, raised.sign_vote]
      simp only [agree.counting] at counted raised ⊢
      split
      · exact .map raised _ _
      · exact ⟨counted, rfl⟩
    | reply =>
      obtain ⟨same, left⟩ := reply_of_valid (h := h) accepted
      obtain ⟨same', right⟩ := reply_of_valid (h := g) accepted
      have counted := agree.setProposal agree.counting same same'
      have raised := agree.setProposal (p := { h.counting m with committed := true })
        (q := { g.counting m with committed := true }) (by rw [agree.counting]) same same'
      have votes : (g.findOrCreate m).updateInfo m = (h.findOrCreate m).updateInfo m :=
        agree.counting
      simp only [Endpoint.call, call, left, right]
      simp only [PBFTHandler.counting, votes] at counted raised ⊢
      split
      · exact ⟨raised, rfl⟩
      · exact ⟨counted, rfl⟩
  · -- the check does not look at the handler
    rw [call_of_rejected accepted, call_of_rejected accepted]
    exact .map agree _ _

/-- A message touches no entry but that of its number, and whatever it causes is about that
number. -/
theorem call_confined {endpoint : Endpoint}
    (ran : h.call c (endpoint.call master m) = .ok (h', effects)) :
    (∀ s, s ≠ m.seq → h'.proposals s = h.proposals s) ∧ ∀ e ∈ effects, e.seq = m.seq := by
  have elsewhere : ∀ (p : Proposal) (same : p.f = h.f) (s : Nat), s ≠ m.seq →
      (h.setProposal m.seq p same).proposals s = h.proposals s :=
    fun p same s other => Function.update_of_ne other _ _
  cases endpoint with
  | prepare =>
    rcases prepare_cases ran with ⟨rfl, rfl, -⟩ | ⟨p, same, rfl, -, -, reported⟩
    · exact ⟨fun s _ => rfl, by simp⟩
    · refine ⟨elsewhere p same, ?_⟩
      rcases reported with ⟨-, rfl⟩ | ⟨-, sig, rfl⟩
      · simp [Effect.seq]
      · simp [Effect.seq, vote]
  | commit =>
    rcases commit_cases ran with
      ⟨rfl, rfl, -⟩ | ⟨p, same, -, ⟨rfl, rfl, -⟩ | ⟨-, -, rfl, sig, rfl⟩⟩
    · exact ⟨fun s _ => rfl, by simp⟩
    · exact ⟨elsewhere p same, by simp⟩
    · exact ⟨elsewhere { p with prepared := true } same, by simp [Effect.seq, vote]⟩
  | reply =>
    rcases reply_cases ran with
      ⟨rfl, rfl, -⟩ | ⟨p, same, -, ⟨rfl, rfl, -⟩ | ⟨-, -, -, rfl, rfl⟩⟩
    · exact ⟨fun s _ => rfl, by simp⟩
    · exact ⟨elsewhere p same, by simp⟩
    · exact ⟨elsewhere { p with committed := true } same, by simp [Effect.seq]⟩

/-! ### Deliveries -/

/-- Two handlers that agree on a number are told apart by nothing about the number. -/
theorem deliver_unwinds (c : Crypto) (master : Master) (s : Nat) :
    Unwinding.Unwinds (deliver c master) (fun d => d.2.seq = s) (fun e => e.seq = s) (Agree s)
    where
  hidden := by
    intro h g d h' effects agree other delivered
    -- a message for another number does not touch the entry
    obtain ⟨entries, about⟩ := call_confined delivered
    refine ⟨⟨(call_settings delivered).symm.trans agree.settings, ?_⟩, fun e member => ?_⟩
    · rw [agree.entry, entries s (Ne.symm other)]
    · rw [about e member]
      exact other
  shown := by
    intro h g d h' effects agree here delivered
    subst here
    refine ⟨?_, (call_confined delivered).2⟩
    have same : SameEnd d.2.seq (deliver c master h d) (deliver c master g d) :=
      call_agree agree d.1
    rw [delivered] at same
    cases other : deliver c master g d with
    | error e =>
      rw [other] at same
      cases same
    | ok result =>
      rw [other] at same
      obtain ⟨agree', rfl⟩ := same
      exact ⟨result.1, rfl, agree'⟩
  fails := by
    intro h g d e agree here failed
    subst here
    have same : SameEnd d.2.seq (deliver c master h d) (deliver c master g d) :=
      call_agree agree d.1
    rw [failed] at same
    cases other : deliver c master g d with
    | error e' =>
      rw [other] at same
      exact congrArg Except.error same
    | ok result =>
      rw [other] at same
      cases same

/-! ### What makes a difference to a proposal -/

/-- The message makes a difference to the proposal of its number: it is accepted, and has the
master asked, is a vote, or comes when there is no entry yet. -/
def Counts (c : Crypto) (present : Prop) (d : Endpoint × Message) : Prop :=
  d.2.checkSignature c = .ok true ∧
    (d.1 = .prepare ∨ d.2.mtype = .prepare ∨ d.2.mtype = .commit ∨ ¬present)

instance (c : Crypto) (present : Prop) [Decidable present] (d : Endpoint × Message) :
    Decidable (Counts c present d) :=
  inferInstanceAs (Decidable (_ ∧ _))

/-- An accepted message writes the entry of its number, and another one does nothing. -/
theorem deliver_cases {d : Endpoint × Message}
    (delivered : deliver c master h d = .ok (h', effects)) :
    (d.2.checkSignature c ≠ .ok true ∧ h' = h ∧ effects = []) ∨
      (d.2.checkSignature c = .ok true ∧ ∃ p same, h' = h.setProposal d.2.seq p same) := by
  obtain ⟨endpoint, m⟩ := d
  by_cases accepted : m.checkSignature c = .ok true
  · refine Or.inr ⟨accepted, ?_⟩
    have checked : ¬m.checkSignature c = .ok false := by
      rw [accepted]
      exact nofun
    cases endpoint with
    | prepare =>
      rcases prepare_cases delivered with ⟨-, -, rejected⟩ | ⟨p, same, rfl, -⟩
      · exact absurd rejected checked
      · exact ⟨p, same, rfl⟩
    | commit =>
      rcases commit_cases delivered with
        ⟨-, -, rejected⟩ | ⟨p, same, -, ⟨rfl, -⟩ | ⟨-, -, rfl, -⟩⟩
      · exact absurd rejected checked
      · exact ⟨p, same, rfl⟩
      · exact ⟨{ p with prepared := true }, same, rfl⟩
    | reply =>
      rcases reply_cases delivered with
        ⟨-, -, rejected⟩ | ⟨p, same, -, ⟨rfl, -⟩ | ⟨-, -, -, rfl, -⟩⟩
      · exact absurd rejected checked
      · exact ⟨p, same, rfl⟩
      · exact ⟨{ p with committed := true }, same, rfl⟩
  · have ran : h.call c (endpoint.call master m) = .ok (h', effects) := delivered
    rw [call_of_rejected accepted] at ran
    obtain ⟨valid, -, nothing⟩ := Result.map_ok.mp ran
    obtain ⟨rfl, rfl⟩ := Prod.mk.inj nothing
    exact Or.inl ⟨accepted, rfl, rfl⟩

/-- There is an entry after a call when there was one before, or the call accepts a message
for the number. -/
theorem deliver_present {d : Endpoint × Message}
    (delivered : deliver c master h d = .ok (h', effects)) (s : Nat) :
    h'.proposals s ≠ none ↔
      h.proposals s ≠ none ∨ d.2.seq = s ∧ d.2.checkSignature c = .ok true := by
  rcases deliver_cases delivered with ⟨rejected, rfl, -⟩ | ⟨accepted, p, same, rfl⟩
  · simp [rejected]
  · unfold setProposal
    by_cases here : s = d.2.seq
    · simp [here, accepted]
    · simp [Function.update_of_ne here, Ne.symm here]

/-- Without a vote, `Commit` and `Reply` find the entry as it is, and no quorum in it. -/
theorem counting_of_silent {p : Proposal} (entry : h.proposals m.seq = some p)
    (silent : ¬(m.mtype = .prepare ∨ m.mtype = .commit)) :
    h.counting m = p ∧ ¬(h.counting m).checkVotes m.mtype = true := by
  refine ⟨?_, fun enough => silent (Proposal.votes_of_checkVotes enough)⟩
  rw [not_or] at silent
  unfold counting findOrCreate Proposal.updateInfo
  rw [entry, Option.getD_some]
  split
  next type => exact absurd type silent.1
  next type => exact absurd type silent.2
  next => rfl

/-- A message that does not count leaves the entry as it is, and nothing is done for it. -/
theorem deliver_idle {d : Endpoint × Message}
    (idle : ¬Counts c (h.proposals d.2.seq ≠ none) d)
    (delivered : deliver c master h d = .ok (h', effects)) :
    h'.proposals d.2.seq = h.proposals d.2.seq ∧ effects = [] := by
  rcases deliver_cases delivered with ⟨-, rfl, rfl⟩ | ⟨accepted, -⟩
  · exact ⟨rfl, rfl⟩
  obtain ⟨endpoint, m⟩ := d
  obtain ⟨called, silent, present⟩ : endpoint ≠ .prepare ∧
      ¬(m.mtype = .prepare ∨ m.mtype = .commit) ∧ h.proposals m.seq ≠ none := by
    simpa [Counts, accepted, and_assoc] using idle
  obtain ⟨p, entry⟩ := Option.ne_none_iff_exists'.mp present
  obtain ⟨same, short⟩ := counting_of_silent entry silent
  -- what is written is the entry itself
  have kept : ∀ (q : Proposal) (uniform : q.f = h.f), q = h.counting m →
      (h.setProposal m.seq q uniform).proposals m.seq = h.proposals m.seq := by
    rintro q uniform rfl
    rw [entry, ← same]
    exact Function.update_self ..
  cases endpoint with
  | prepare => exact absurd rfl called
  | commit =>
    rcases commit_cases delivered with
      ⟨rfl, rfl, -⟩ | ⟨q, uniform, found, ⟨rfl, rfl, -⟩ | ⟨enough, -⟩⟩
    · exact ⟨rfl, rfl⟩
    · exact ⟨kept q uniform found, rfl⟩
    · rw [found] at enough
      exact absurd enough short
  | reply =>
    rcases reply_cases delivered with
      ⟨rfl, rfl, -⟩ | ⟨q, uniform, found, ⟨rfl, rfl, -⟩ | ⟨enough, -⟩⟩
    · exact ⟨rfl, rfl⟩
    · exact ⟨kept q uniform found, rfl⟩
    · rw [found] at enough
      exact absurd enough short

/-- What deliveries can only add to: the entry of a number, and the votes in it. -/
structure Grown (s : Nat) (h h' : PBFTHandler) : Prop where
  present : h.proposals s ≠ none → h'.proposals s ≠ none
  votes : ∀ t digest, (h.proposal s).votesOf t digest <+: (h'.proposal s).votesOf t digest

theorem Grown.refl (s : Nat) (h : PBFTHandler) : Grown s h h :=
  ⟨fun present => present, fun _ _ => List.prefix_rfl⟩

theorem Grown.trans {h₁ h₂ h₃ : PBFTHandler} (first : Grown s h₁ h₂) (second : Grown s h₂ h₃) :
    Grown s h₁ h₃ :=
  ⟨second.present ∘ first.present, fun t digest =>
    (first.votes t digest).trans (second.votes t digest)⟩

theorem deliverAll_grown (s : Nat) (h : PBFTHandler) (ds : List (Endpoint × Message)) :
    Grown s h (deliverAll c master h ds).state :=
  Unwinding.state_of_kept (P := Grown s h) (fun _ _ _ _ before delivered =>
    before.trans ⟨fun present => call_keeps delivered present, fun t digest =>
      (call_votes delivered s t digest).initial⟩) (.refl s h)

theorem deliverAll_settings (h : PBFTHandler) (ds : List (Endpoint × Message)) :
    SameSettings h (deliverAll c master h ds).state :=
  Unwinding.state_of_kept (P := SameSettings h) (fun _ _ _ _ before delivered =>
    before.trans (call_settings delivered)) (.refl h)

/-- A message that counts has something done for it, makes an entry or adds a vote, and
nothing takes that back. -/
theorem ne_of_counts {d : Endpoint × Message} (counts : Counts c (h.proposals d.2.seq ≠ none) d)
    (delivered : deliver c master h d = .ok (h', [])) {k : PBFTHandler}
    (later : Grown d.2.seq h' k) : k.proposals d.2.seq ≠ h.proposals d.2.seq := by
  obtain ⟨endpoint, m⟩ := d
  obtain ⟨accepted, kind⟩ := counts
  intro unchanged
  have ballot : (endpoint.call master m).ballot = some m := by
    cases endpoint with
    | commit => rfl
    | reply => rfl
    | prepare =>
      -- the master has been asked
      rcases prepare_cases delivered with ⟨-, -, rejected⟩ | ⟨p, same, -, -, -, ⟨-, asked⟩ |
        ⟨-, sig, asked⟩⟩
      · exact absurd (accepted.symm.trans rejected) (by simp)
      · cases asked
      · cases asked
  -- there is an entry from here on, so there was one before, and the message is a vote
  have stays : k.proposals m.seq ≠ none :=
    later.present ((deliver_present delivered m.seq).mpr (Or.inr ⟨rfl, accepted⟩))
  obtain ⟨p, entry⟩ := Option.ne_none_iff_exists'.mp stays
  have entry' : h.proposals m.seq = some p := unchanged.symm.trans entry
  have voting : m.mtype = .prepare ∨ m.mtype = .commit := by
    rcases kind with called | prepare | commit | absent
    · cases endpoint <;> cases ballot <;> cases called
    · exact Or.inl prepare
    · exact Or.inr commit
    · exact absurd (by rw [entry']; exact nofun) absent
  have counted := call_countedVotes delivered ballot accepted m.seq m.mtype m.digest
  rw [if_pos ⟨rfl, rfl, rfl, voting⟩] at counted
  have grown := (later.votes m.mtype m.digest).length_le
  have same : k.proposal m.seq = h.proposal m.seq := by
    rw [proposal, proposal, entry, entry']
    rfl
  rw [counted, same, List.length_append, List.length_singleton] at grown
  omega

/-! ### Which messages are missed -/

/-- Messages for one number alone change nothing and have nothing done exactly when none of
those counts that come before the first one of an unknown type. -/
theorem idle_iff (pair : c.KeyPair h.privKey h.pubKey) {ms : List (Endpoint × Message)}
    (own : ∀ d ∈ ms, d.2.seq = s) :
    ((deliverAll c master h ms).state.proposals s = h.proposals s ∧
        (deliverAll c master h ms).outputs = []) ↔
      ∀ d ∈ ms.takeWhile (·.2.mtype.Known), ¬Counts c (h.proposals s ≠ none) d := by
  induction ms generalizing h with
  | nil => simp [deliverAll, Unwinding.run]
  | cons d ms ih =>
    have here := own d List.mem_cons_self
    subst here
    have rest : ∀ u ∈ ms, u.2.seq = d.2.seq := fun u member => own u (List.mem_cons_of_mem d member)
    by_cases known : d.2.mtype.Known
    · obtain ⟨h', effects, delivered, pair'⟩ :
          ∃ h' effects, deliver c master h d = .ok (h', effects) ∧ _ := deliver_returns pair known
      rw [deliverAll, Unwinding.run_ok delivered, List.takeWhile_cons_of_pos (by simpa using known),
        List.forall_mem_cons]
      by_cases counts : Counts c (h.proposals d.2.seq ≠ none) d
      · -- what has been done, or has come into the entry, stays
        refine iff_of_false ?_ fun idle => idle.1 counts
        rintro ⟨unchanged, nothing⟩
        obtain ⟨rfl, -⟩ := List.append_eq_nil_iff.mp nothing
        exact ne_of_counts counts delivered (deliverAll_grown d.2.seq h' ms) unchanged
      · -- the entry is as before, and so is what counts
        obtain ⟨entry, rfl⟩ := deliver_idle counts delivered
        have later := ih pair' rest
        rw [entry] at later
        rw [and_iff_right counts, ← later]
        exact Iff.rfl
    · -- the process ends here
      obtain ⟨what, failed⟩ : ∃ what, deliver c master h d = .error (.invalidArgument what) :=
        deliver_raises known
      rw [deliverAll, Unwinding.run_error failed,
        List.takeWhile_cons_of_neg (by simpa using known)]
      simp

/-- The messages for `s` behind one of an unknown type for another number. -/
abbrev lost (c : Crypto) (master : Master) (h : PBFTHandler) (ds : List (Endpoint × Message))
    (s : Nat) : List (Endpoint × Message) :=
  Unwinding.lost (deliver c master) (fun d => d.2.seq = s) h ds

/-- The first message of an unknown type is itself for `s`, or no message for `s` counts that
comes behind it and ahead of the next one for `s` of an unknown type. Whether there is an entry
for `s` at the beginning is `present`. -/
def Unsilenced (c : Crypto) (s : Nat) : Prop → List (Endpoint × Message) → Prop
  | _, [] => True
  | present, d :: ds =>
    if d.2.mtype.Known then
      Unsilenced c s (present ∨ d.2.seq = s ∧ d.2.checkSignature c = .ok true) ds
    else d.2.seq = s ∨
      ∀ d' ∈ (ds.filter (·.2.seq = s)).takeWhile (·.2.mtype.Known), ¬Counts c present d'

instance decidableUnsilenced (c : Crypto) (s : Nat) : ∀ (present : Prop) [Decidable present] ds,
    Decidable (Unsilenced c s present ds)
  | _, _, [] => inferInstanceAs (Decidable True)
  | present, _, d :: ds =>
    have := decidableUnsilenced c s (present ∨ d.2.seq = s ∧ d.2.checkSignature c = .ok true) ds
    inferInstanceAs (Decidable (if d.2.mtype.Known then
        Unsilenced c s (present ∨ d.2.seq = s ∧ d.2.checkSignature c = .ok true) ds
      else d.2.seq = s ∨
        ∀ d' ∈ (ds.filter (·.2.seq = s)).takeWhile (·.2.mtype.Known), ¬Counts c present d'))

theorem unsilenced_iff (pair : c.KeyPair h.privKey h.pubKey) (ds : List (Endpoint × Message)) :
    Unsilenced c s (h.proposals s ≠ none) ds ↔
      ∀ d ∈ (lost c master h ds s).takeWhile (·.2.mtype.Known),
        ¬Counts c ((deliverAll c master h ds).state.proposals s ≠ none) d := by
  induction ds generalizing h with
  | nil => exact iff_of_true trivial fun _ member => nomatch member
  | cons d ds ih =>
    unfold Unsilenced
    by_cases known : d.2.mtype.Known
    · obtain ⟨h', effects, delivered, pair'⟩ :
          ∃ h' effects, deliver c master h d = .ok (h', effects) ∧ _ := deliver_returns pair known
      rw [if_pos known, ← deliver_present delivered s, lost, Unwinding.lost_ok delivered, deliverAll,
        Unwinding.run_ok delivered]
      exact ih pair'
    · obtain ⟨what, failed⟩ : ∃ what, deliver c master h d = .error (.invalidArgument what) :=
        deliver_raises known
      rw [if_neg known, lost, Unwinding.lost_error failed, deliverAll,
        Unwinding.run_error failed]
      split
      next here => exact iff_of_true (Or.inl here) fun _ member => nomatch member
      next other => exact or_iff_right other

/-- What becomes of the proposal `s` is the same without the deliveries for other numbers: its
entry, and what is done for it. -/
structure Independent (c : Crypto) (master : Master) (h : PBFTHandler)
    (ds : List (Endpoint × Message)) (s : Nat) : Prop where
  proposal : (deliverAll c master h (ds.filter (·.2.seq = s))).state.proposals s =
    (deliverAll c master h ds).state.proposals s
  effects : (deliverAll c master h (ds.filter (·.2.seq = s))).outputs =
    (deliverAll c master h ds).outputs.filter (·.seq = s)

/-- Leaving out every delivery with another number than `s` makes no difference to `s` when
the process takes all deliveries, and under the replica's own key pair exactly when no message
of an unknown type has kept it from one for `s` that counts. -/
theorem deliveries_independent_iff (c : Crypto) (master : Master) (h : PBFTHandler)
    (ds : List (Endpoint × Message)) (s : Nat) :
    ((deliverAll c master h ds).failure = none → Independent c master h ds s) ∧
      (c.KeyPair h.privKey h.pubKey →
        (Independent c master h ds s ↔ Unsilenced c s (h.proposals s ≠ none) ds)) := by
  have itself : Agree s h h := ⟨.refl h, rfl⟩
  obtain ⟨g, agree, state, outputs⟩ := (deliver_unwinds c master s).resumes itself
  -- without the other messages the process goes on with those that it misses
  have missed : Independent c master h ds s ↔
      (deliverAll c master g (lost c master h ds s)).state.proposals s = g.proposals s ∧
        (deliverAll c master g (lost c master h ds s)).outputs = [] := by
    constructor
    · rintro ⟨proposal, effects⟩
      rw [state, ← agree.entry] at proposal
      rw [outputs] at effects
      exact ⟨proposal, List.append_right_eq_self.mp effects⟩
    · rintro ⟨proposal, nothing⟩
      refine ⟨?_, ?_⟩
      · rw [state, ← agree.entry]
        exact proposal
      · rw [outputs, nothing, List.append_nil]
  constructor
  · intro returned
    rw [missed, lost, Unwinding.lost_of_returned returned]
    exact ⟨rfl, rfl⟩
  · intro pair
    have pair' : c.KeyPair g.privKey g.pubKey := by
      have settings := (deliverAll_settings h ds).trans agree.settings
      rw [settings.privKey, settings.pubKey]
      exact pair
    have own : ∀ d ∈ lost c master h ds s, d.2.seq = s := Unwinding.visible_of_lost
    rw [missed, idle_iff pair' own, agree.entry]
    exact (unsilenced_iff pair ds).symm

/-- One proposal in good order. -/
def orderlyDeliveries : List (Endpoint × Message) :=
  (.prepare, sampleMessage .preprepare 0 "d" "A") ::
    [0, 1, 2].map (fun id => (.commit, sampleMessage .prepare id "d" "")) ++
    [0, 1, 2].map (fun id => (.reply, sampleMessage .commit id "d" ""))

/-- The same with a message for another number before each of its own, and at the end one of
no known type for a third. -/
def floodedDeliveries : List (Endpoint × Message) :=
  orderlyDeliveries.flatMap (fun d => [(d.1, sampleMessage .prepare 3 "x" "B" 7), d]) ++
    [(.reply, sampleMessage (.other 9) 3 "x" "" 8)]

theorem deliveries_independent_flooded :
    Independent sampleCrypto World.approving (init (sampleConfig 4) 0) floodedDeliveries 0 ∧
      .commitAction 0 "A" ∈ (deliverAll sampleCrypto World.approving (init (sampleConfig 4) 0)
        (floodedDeliveries.filter (·.2.seq = 0))).outputs := by
  have pair : sampleCrypto.KeyPair (init (sampleConfig 4) 0).privKey
      (init (sampleConfig 4) 0).pubKey := World.sampleConfig_keys 4 0 (by decide)
  refine ⟨?_, by decide +kernel⟩
  exact ((deliveries_independent_iff sampleCrypto World.approving (init (sampleConfig 4) 0)
    floodedDeliveries 0).2 pair).mpr (by decide +kernel)

/-- The message of no known type comes first, and nothing is done for the proposal any more. -/
theorem deliveries_silenced :
    let ds := (.reply, sampleMessage (.other 9) 3 "x" "" 8) :: orderlyDeliveries
    let h := init (sampleConfig 4) 0
    (deliverAll sampleCrypto World.approving h ds).outputs = [] ∧
      .commitAction 0 "A" ∈
        (deliverAll sampleCrypto World.approving h (ds.filter (·.2.seq = 0))).outputs ∧
      ¬Independent sampleCrypto World.approving h ds 0 := by
  intro ds h
  have silent : (deliverAll sampleCrypto World.approving h ds).outputs = [] := by decide +kernel
  have executed : .commitAction 0 "A" ∈
      (deliverAll sampleCrypto World.approving h (ds.filter (·.2.seq = 0))).outputs := by
    decide +kernel
  refine ⟨silent, executed, fun same => ?_⟩
  rw [same.effects, silent] at executed
  cases executed

end PBFTHandler

end Ruccoin.Pbft
