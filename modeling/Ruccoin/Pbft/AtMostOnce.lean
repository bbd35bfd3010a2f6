import Ruccoin.Pbft.Replica
import Ruccoin.Pbft.Threads

/-!
# At most once

Seen from one sequence number a call goes through a few stages: it may create the entry, fill
in its body, raise one of its flags, announce the proposal or have it executed. What a thread
may rely on at each stage, what stays true of the number, and what is true of it while its
mutex is free, together make a proof outline for the whole process.
-/

namespace Ruccoin.Pbft

/-- One number: its entry, and what the process has done for it. -/
structure Slot where
  present : Bool
  body : String
  prepared : Bool
  committed : Bool
  /-- Commit messages broadcast. -/
  announced : Nat
  /-- Bodies handed to `CommitAction`. -/
  executed : List String

inductive Stage where
  /-- Nothing has been looked up yet, or nothing of this number. -/
  | outside
  | creating (body : String)
  | found
  | announcing
  /-- Under the mutex of the entry, before anything has been decided. -/
  | holding
  | filling (body : String)
  | preparing
  | executing
  | committing

namespace Slot

/-- An insertion, unless the entry is there. -/
def create (v : Slot) (body : String) : Slot :=
  if v.present then v else { v with present := true, body := body }

/-- What is true of every number at all times. -/
structure Sound (v : Slot) : Prop where
  missing : v.present = false → v.body = ""
  announcedOnce : v.announced ≤ 1
  announcedPrepared : 0 < v.announced → v.prepared = true
  executedOnce : v.executed.length ≤ 1
  executedBody : ∀ b ∈ v.executed, b = v.body ∧ b ≠ ""

/-- What is true while the mutex of the entry is free. -/
def Settled (v : Slot) : Prop := v.committed = false → v.executed = []

/-- Flags stay up and a body stays as it is. -/
structure Kept (v v' : Slot) : Prop where
  prepared : v.prepared = true → v'.prepared = true
  committed : v.committed = true → v'.committed = true
  body : v.body ≠ "" → v'.body = v.body

theorem Kept.refl (v : Slot) : Kept v v := ⟨id, id, fun _ => rfl⟩

theorem Kept.trans {v₁ v₂ v₃ : Slot} (first : Kept v₁ v₂) (second : Kept v₂ v₃) :
    Kept v₁ v₃ where
  prepared := second.prepared ∘ first.prepared
  committed := second.committed ∘ first.committed
  body filled := by
    have same := first.body filled
    rw [second.body (same ▸ filled), same]

theorem create_cases (v : Slot) (body : String) :
    v.create body = v ∨
      (v.present = false ∧ v.create body = { v with present := true, body := body }) := by
  unfold create
  cases v.present with
  | true => exact Or.inl rfl
  | false => exact Or.inr ⟨rfl, rfl⟩

theorem create_makes (v : Slot) (body : String) : (v.create body).present = true := by
  unfold create
  split
  next present => exact present
  next => rfl

/-- An entry that is there is not created again. -/
theorem create_present {v : Slot} {body : String} (present : v.present = true) :
    v.create body = v :=
  if_pos present

/-- Without a body nothing was executed. -/
theorem Sound.unexecuted {v : Slot} (sound : v.Sound) (empty : v.body = "") :
    v.executed = [] := by
  rw [List.eq_nil_iff_forall_not_mem]
  intro b member
  obtain ⟨same, filled⟩ := sound.executedBody b member
  exact filled (same.trans empty)

end Slot

namespace Stage

def change : Stage → Slot → Slot
  | creating body, v => v.create body
  | filling body, v => { v with body }
  | preparing, v => { v with prepared := true }
  | announcing, v => { v with announced := v.announced + 1 }
  | executing, v => { v with executed := v.executed ++ [v.body] }
  | committing, v => { v with committed := true }
  | _, v => v

/-- What a thread knows at each stage. -/
def Asserts : Stage → Slot → Prop
  | outside, _ => True
  | creating _, _ => True
  | found, v => v.present = true
  | announcing, v => v.present = true ∧ v.prepared = true ∧ v.announced = 0
  | holding, v => v.present = true ∧ v.Settled
  | filling _, v => v.present = true ∧ v.Settled ∧ v.body = ""
  | preparing, v => v.present = true ∧ v.Settled ∧ v.prepared = false
  | executing, v => v.present = true ∧ v.committed = false ∧ v.body ≠ "" ∧ v.executed = []
  | committing, v => v.present = true ∧ v.committed = false ∧ v.executed ≠ []

/-- The stages under the mutex of the entry. -/
def locked : Stage → Bool
  | holding => true
  | filling _ => true
  | preparing => true
  | executing => true
  | committing => true
  | _ => false

variable {a b : Stage} {v : Slot}

/-- What is always true stays true. -/
theorem change_sound (asserts : a.Asserts v) (sound : v.Sound) : (a.change v).Sound := by
  cases a with
  | creating body =>
    rcases v.create_cases body with same | ⟨missing, created⟩
    · rw [change, same]
      exact sound
    · -- a number without an entry has not been executed
      have none := sound.unexecuted (sound.missing missing)
      rw [change, created]
      exact { sound with
        missing := nofun
        executedBody := by simp [none] }
  | filling body =>
    obtain ⟨present, -, empty⟩ := asserts
    have none := sound.unexecuted empty
    exact { sound with
      missing := fun absent => by
        rw [show v.present = false from absent] at present
        cases present
      executedBody := by simp [change, none] }
  | preparing => exact { sound with announcedPrepared := fun _ => rfl }
  | announcing =>
    obtain ⟨-, prepared, none⟩ := asserts
    exact { sound with
      announcedOnce := by simp [change, none]
      announcedPrepared := fun _ => prepared }
  | executing =>
    -- the thread has seen under the mutex that nothing was executed
    obtain ⟨-, -, filled, none⟩ := asserts
    exact { sound with
      executedOnce := by simp [change, none]
      executedBody := by simpa [change, none] using filled }
  | committing => exact { sound with }
  | outside | found | holding => exact sound

/-- Flags and bodies are kept. -/
theorem change_kept (asserts : a.Asserts v) (sound : v.Sound) : Slot.Kept v (a.change v) := by
  cases a with
  | creating body =>
    rcases v.create_cases body with same | ⟨missing, created⟩
    · rw [change, same]
      exact .refl v
    · rw [change, created]
      exact ⟨id, id, fun filled => absurd (sound.missing missing) filled⟩
  | filling body => exact ⟨id, id, fun filled => absurd asserts.2.2 filled⟩
  | preparing => exact ⟨fun _ => rfl, id, fun _ => rfl⟩
  | committing => exact ⟨id, fun _ => rfl, fun _ => rfl⟩
  | announcing | executing => exact ⟨id, id, fun _ => rfl⟩
  | outside | found | holding => exact .refl v

theorem change_present (present : v.present = true) : (a.change v).present = true := by
  cases a with
  | creating body =>
    rw [change, Slot.create_present present]
    exact present
  | _ => exact present

/-- From the lookup on there is an entry. -/
theorem change_finds (known : a ≠ outside) (asserts : a.Asserts v) :
    (a.change v).present = true := by
  cases a with
  | outside => exact absurd rfl known
  | creating body => exact v.create_makes body
  | found => exact asserts
  | announcing | holding | filling | preparing | executing | committing =>
    exact asserts.1

theorem change_announced (other : a ≠ announcing) : (a.change v).announced = v.announced := by
  cases a with
  | creating body => rcases v.create_cases body with same | ⟨-, created⟩ <;> simp [change, *]
  | announcing => exact absurd rfl other
  | _ => rfl

/-- Outside the mutex a thread at an existing entry only counts its announcements. -/
theorem change_unlocked (free : a.locked = false) (present : v.present = true) :
    ∃ n, a.change v = { v with announced := n } := by
  cases a with
  | creating body => exact ⟨v.announced, Slot.create_present present⟩
  | announcing => exact ⟨_, rfl⟩
  | outside | found => exact ⟨v.announced, rfl⟩
  | filling | preparing | holding | executing | committing => cases free

/-- What another thread knows it still knows: two threads are not under the mutex at once,
and not both about to announce the proposal. -/
theorem change_undisturbed (sound : v.Sound) (mine : a.Asserts v) (theirs : b.Asserts v)
    (mutex : a.locked = true → b.locked = false)
    (apart : a = announcing → b ≠ announcing) : b.Asserts (a.change v) := by
  have unlocked : b.locked = true → a.locked = false := by
    intro locked
    cases free : a.locked with
    | false => rfl
    | true =>
      rw [mutex free] at locked
      cases locked
  cases b with
  | outside | creating => trivial
  | found => exact change_present theirs
  | announcing =>
    obtain ⟨present, prepared, none⟩ := theirs
    refine ⟨change_present present, (change_kept mine sound).prepared prepared, ?_⟩
    rw [change_announced fun same => apart same rfl, none]
  | filling | preparing | holding | executing | committing =>
    obtain ⟨n, same⟩ := change_unlocked (unlocked rfl) theirs.1
    rw [same]
    exact theirs

/-- Only a stage under the mutex touches what is settled while it is free. -/
theorem change_settled (free : a.locked = false) (settled : v.Settled) :
    (a.change v).Settled := by
  cases a with
  | creating body =>
    rcases v.create_cases body with same | ⟨-, created⟩
    · rw [change, same]
      exact settled
    · rw [change, created]
      exact settled
  | outside | found | announcing => exact settled
  | filling | preparing | holding | executing | committing => cases free

end Stage

/-! ### The slots of the process -/

theorem Proposal.mapVotes_quiet (p : Proposal) (t : MType) (change : VoteTable → VoteTable) :
    (p.mapVotes t change).body = p.body ∧ (p.mapVotes t change).prepared = p.prepared ∧
      (p.mapVotes t change).committed = p.committed := by
  cases t <;> exact ⟨rfl, rfl, rfl⟩

namespace Effect

/-- A Commit message for the number. -/
def announces (s : Nat) : Effect → Bool
  | .sendMessage m => decide (m.mtype = .commit ∧ m.seq = s)
  | _ => false

/-- The body that is executed for the number. -/
def executes (s : Nat) : Effect → Option String
  | .commitAction seq body => if seq = s then some body else none
  | _ => none

end Effect

namespace PBFTHandler

variable {h : PBFTHandler} {seq : Nat}

theorem insertProposal_cases (h : PBFTHandler) (seq : Nat) (p : Proposal) (same : p.f = h.f) :
    (h.proposals seq ≠ none ∧ h.insertProposal seq p same = h) ∨
      (h.proposals seq = none ∧ h.insertProposal seq p same = h.setProposal seq p same) := by
  unfold insertProposal
  cases h.proposals seq with
  | none => exact Or.inr ⟨rfl, rfl⟩
  | some q => exact Or.inl ⟨nofun, rfl⟩

theorem edit_cases (h : PBFTHandler) (seq : Nat) (change : Proposal → Proposal)
    (keeps : ∀ p, (change p).f = p.f) :
    (h.proposals seq = none ∧ h.edit seq change keeps = h) ∨
      ∃ p same, h.proposals seq = some p ∧
        h.edit seq change keeps = h.setProposal seq (change p) same := by
  unfold edit
  split
  next missing => exact Or.inl ⟨missing, rfl⟩
  next p found =>
    exact Or.inr ⟨p, (keeps p).trans (h.uniform seq p found), found, rfl⟩

end PBFTHandler

namespace Shared

def slot (σ : Shared) (s : Nat) : Slot where
  present := (σ.handler.proposals s).isSome
  body := (σ.handler.proposal s).body
  prepared := (σ.handler.proposal s).prepared
  committed := (σ.handler.proposal s).committed
  announced := σ.log.countP (Effect.announces s)
  executed := σ.log.filterMap (Effect.executes s)

variable {σ : Shared} {seq s : Nat}

theorem report_slot (effect : Effect) :
    (σ.report effect).slot s =
      { σ.slot s with
        announced := (σ.slot s).announced + if effect.announces s then 1 else 0
        executed := (σ.slot s).executed ++ (effect.executes s).toList } := by
  simp only [report, slot, List.countP_append, List.countP_singleton, List.filterMap_append,
    List.filterMap_cons, List.filterMap_nil]
  cases effect.executes s <;> rfl

/-- An effect that is neither a Commit message nor an execution shows in no slot. -/
theorem report_quiet {effect : Effect} (unannounced : effect.announces s = false)
    (unexecuted : effect.executes s = none) : (σ.report effect).slot s = σ.slot s := by
  rw [report_slot, unannounced, unexecuted]
  simp

/-- Writing an entry changes the slot of its number. -/
theorem setProposal_slot {p : Proposal} (same : p.f = σ.handler.f) :
    ({ σ with handler := σ.handler.setProposal seq p same } : Shared).slot s =
      if s = seq then
        { σ.slot s with
          present := true, body := p.body, prepared := p.prepared, committed := p.committed }
      else σ.slot s := by
  by_cases here : s = seq
  · subst here
    simp [slot, PBFTHandler.proposal, PBFTHandler.setProposal]
  · simp [slot, PBFTHandler.proposal, PBFTHandler.setProposal, here]

theorem insert_slot (timeStamp clientId : Nat) (body : String) :
    (σ.insert seq (Proposal.new timeStamp clientId seq body σ.handler.f) rfl).slot s =
      if s = seq then (σ.slot s).create body else σ.slot s := by
  unfold insert
  rcases σ.handler.insertProposal_cases seq _ (Proposal.new_f timeStamp clientId seq body _) with
    ⟨present, kept⟩ | ⟨missing, created⟩
  · rw [kept]
    split
    next here =>
      subst here
      rw [Slot.create_present]
      simpa [slot, Option.isSome_iff_ne_none] using present
    next => rfl
  · rw [created, setProposal_slot]
    split
    next here =>
      subst here
      have empty : σ.handler.proposal s = Proposal.new 0 0 s "" σ.handler.f := by
        rw [PBFTHandler.proposal, missing]
        rfl
      simp [slot, Slot.create, missing, empty, Proposal.new]
    next => rfl

/-- A change to an entry that is there. -/
theorem edit_slot {change : Proposal → Proposal} {keeps : ∀ p, (change p).f = p.f}
    (present : (σ.slot seq).present = true) :
    (σ.edit seq change keeps).slot s =
      if s = seq then
        { σ.slot s with
          body := (change (σ.handler.proposal s)).body
          prepared := (change (σ.handler.proposal s)).prepared
          committed := (change (σ.handler.proposal s)).committed }
      else σ.slot s := by
  unfold edit
  rcases σ.handler.edit_cases seq change keeps with ⟨missing, -⟩ | ⟨p, same, found, edited⟩
  · simp [slot, missing] at present
  · rw [edited, setProposal_slot]
    split
    next here =>
      subst here
      simp [slot, PBFTHandler.proposal, found]
    next => rfl

/-- A change to the votes. -/
theorem edit_quiet {change : Proposal → Proposal} {keeps : ∀ p, (change p).f = p.f}
    (quiet : ∀ p, (change p).body = p.body ∧ (change p).prepared = p.prepared ∧
      (change p).committed = p.committed) :
    (σ.edit seq change keeps).slot s = σ.slot s := by
  unfold edit
  rcases σ.handler.edit_cases seq change keeps with ⟨-, kept⟩ | ⟨p, same, found, edited⟩
  · rw [kept]
  · rw [edited, setProposal_slot]
    split
    next here =>
      subst here
      simp [slot, PBFTHandler.proposal, found, quiet]
    next => rfl

end Shared

/-! ### The stages of the program -/

namespace Point

variable {c : Crypto} {σ : Shared} {p q n : Point} {d : Step}

/-- The number a thread works for, once it has one. -/
def seq : Point → Option Nat
  | .takeNumber _ => none
  | .findRequest seq _ => some seq
  | .insertRequest seq _ => some seq
  | .sendPreprepare seq _ => some seq
  | .lockWait seq => some seq
  | .testWait seq => some seq
  | .lockTable _ m => some m.seq
  | .findPrepare _ m => some m.seq
  | .insertPrepare _ m => some m.seq
  | .lockBody _ m => some m.seq
  | .testBody _ m => some m.seq
  | .fillBody _ m => some m.seq
  | .unlockTable _ m => some m.seq
  | .askMaster _ m => some m.seq
  | .sendPrepare m => some m.seq
  | .findEntry _ m => some m.seq
  | .insertEntry _ m => some m.seq
  | .findDigest _ m => some m.seq
  | .insertDigest _ m => some m.seq
  | .pushVote _ m => some m.seq
  | .lockVotes _ m => some m.seq
  | .testVotes _ m => some m.seq
  | .lockFlag _ m => some m.seq
  | .testFlag _ m => some m.seq
  | .setPrepared m => some m.seq
  | .sendCommit m => some m.seq
  | .callMaster m => some m.seq
  | .setCommitted m => some m.seq

def stage : Point → Stage
  | .takeNumber _ => .outside
  | .findRequest .. => .outside
  | .insertRequest _ req => .creating req.body
  | .lockTable .. => .outside
  | .findPrepare .. => .outside
  | .insertPrepare _ m => .creating m.body
  | .fillBody _ m => .filling m.body
  | .findEntry .. => .outside
  | .insertEntry _ m => .creating m.body
  | .testWait _ => .holding
  | .testBody .. => .holding
  | .testVotes .. => .holding
  | .testFlag .. => .holding
  | .setPrepared _ => .preparing
  | .sendCommit _ => .announcing
  | .callMaster _ => .executing
  | .setCommitted _ => .committing
  -- everywhere else the entry is known to be there
  | _ => .found

@[simp] theorem counting_seq (phase : Phase) (m : Message) :
    (counting phase m).seq = some m.seq := by
  unfold counting
  split <;> rfl

@[simp] theorem counting_stage (phase : Phase) (m : Message) :
    (counting phase m).stage = .found := by
  unfold counting
  split <;> rfl

/-- The stages under a mutex are under that of the number. -/
theorem held_of_locked {s : Nat} (locked : p.stage.locked = true) (mine : p.seq = some s) :
    p.Holds (.ins s) := by
  cases p with
  | testWait | testBody | fillBody | testVotes | testFlag | setPrepared | callMaster
  | setCommitted =>
    cases mine
    simp [Holds, held]
  | _ => cases locked

/-- The message that `send` logs is of the type it was given. -/
theorem send_slot {m : Message} {next : Option Point} (sent : send c σ m next = some d) (s : Nat) :
    d.shared.slot s =
      if m.mtype = .commit ∧ m.seq = s then
        { σ.slot s with announced := (σ.slot s).announced + 1 }
      else σ.slot s := by
  obtain ⟨sm, signed, rfl⟩ := send_eq.mp sent
  have frame := PBFTHandler.sign_frame signed
  have type : sm.mtype = m.mtype := by rw [frame]
  have number : sm.seq = m.seq := by rw [frame]
  rw [Shared.report_slot]
  simp only [Effect.announces, Effect.executes, type, number]
  by_cases counts : m.mtype = .commit ∧ m.seq = s
  · simp [counts]
  · simp [counts]

/-- A step changes the slot of the thread's number as its stage says, and no other. -/
theorem act_slot (acts : p.act c σ = some d)
    (asserts : ∀ s, p.seq = some s → p.stage.Asserts (σ.slot s)) (s : Nat) :
    d.shared.slot s = if p.seq = some s then p.stage.change (σ.slot s) else σ.slot s := by
  have flip : ∀ k : Nat, (some k = some s) ↔ s = k := fun k => by
    rw [Option.some.injEq, eq_comm]
  cases p with
  | takeNumber req =>
    cases acts
    exact Shared.report_quiet rfl rfl
  | insertRequest | insertPrepare | insertEntry =>
    cases acts
    simp only [Point.seq, flip]
    exact Shared.insert_slot ..
  | fillBody | setCommitted =>
    cases acts
    simp only [Point.seq, flip]
    exact Shared.edit_slot (asserts _ rfl).1
  | setPrepared m =>
    cases acts
    rw [Shared.report_quiet rfl rfl]
    simp only [Point.seq, flip]
    exact Shared.edit_slot (asserts m.seq rfl).1
  | sendPreprepare seq req =>
    -- of what is sent only a Commit is in the slot
    rw [send_slot acts]
    simp [PBFTHandler.announcement, stage, Stage.change]
  | sendPrepare m =>
    rw [send_slot acts]
    simp [PBFTHandler.vote, stage, Stage.change]
  | sendCommit m =>
    rw [send_slot acts]
    simp [PBFTHandler.vote, Point.seq, stage, Stage.change]
  | callMaster m =>
    cases acts
    simp only [Shared.report_slot, Effect.announces, Effect.executes, Point.seq, flip]
    by_cases here : s = m.seq
    · subst here
      simp [stage, Stage.change, Shared.slot]
    · simp [here, Ne.symm here]
  | askMaster master m =>
    cases acts
    rw [Shared.report_quiet rfl rfl]
    simp [stage, Stage.change]
  | insertDigest | pushVote =>
    cases acts
    rw [Shared.edit_quiet fun p => p.mapVotes_quiet ..]
    simp [stage, Stage.change]
  | testBody =>
    rcases testBody_cases acts with ⟨-, rfl⟩ | rfl <;> simp [stage, Stage.change]
  | testFlag =>
    rcases testFlag_cases acts with rfl | ⟨-, rfl⟩ | ⟨-, -, rfl⟩ <;> simp [stage, Stage.change]
  | _ =>
    cases acts
    simp [stage, Stage.change]

theorem act_slot_own (acts : p.act c σ = some d)
    (asserts : ∀ s, p.seq = some s → p.stage.Asserts (σ.slot s)) {s : Nat}
    (here : p.seq = some s) : d.shared.slot s = p.stage.change (σ.slot s) := by
  rw [act_slot acts asserts s, if_pos here]

/-- A lookup that found the entry. -/
theorem present_of_found {s : Nat} (found : ¬(σ.handler.proposals s).isNone = true) :
    (σ.slot s).present = true := by
  simpa [Shared.slot, Option.isSome_iff_ne_none] using found

/-- What the next point asserts is true after the step. -/
theorem act_next {s : Nat} (acts : p.act c σ = some d) (next : d.next = some n)
    (sound : (σ.slot s).Sound) (asserts : ∀ s, p.seq = some s → p.stage.Asserts (σ.slot s))
    (acquired : d.lock = .acquire (.ins s) → (σ.slot s).Settled) (mine : n.seq = some s) :
    n.stage.Asserts (d.shared.slot s) := by
  have present (here : p.seq = some s) (known : p.stage ≠ .outside) :
      (d.shared.slot s).present = true := by
    rw [act_slot_own acts asserts here]
    exact Stage.change_finds known (asserts s here)
  cases p with
  | takeNumber | lockTable =>
    cases acts
    cases next
    trivial
  | findRequest | findPrepare =>
    cases acts
    obtain rfl := Option.some.inj next
    split
    next => trivial
    next found =>
      rw [if_neg found] at mine
      cases mine
      exact present_of_found found
  | findEntry phase m =>
    cases acts
    obtain rfl := Option.some.inj next
    split
    next => trivial
    next found =>
      rw [if_neg found, counting_seq] at mine
      cases mine
      rw [counting_stage]
      exact present_of_found found
  | insertRequest | insertPrepare | fillBody | unlockTable | insertDigest | pushVote =>
    cases acts
    cases next
    cases mine
    exact present rfl nofun
  | insertEntry phase m =>
    cases acts
    cases next
    rw [counting_seq] at mine
    cases mine
    rw [counting_stage]
    exact present rfl nofun
  | lockWait | lockBody | lockVotes | lockFlag =>
    -- taking the mutex of the entry
    cases acts
    cases next
    cases mine
    exact ⟨asserts _ rfl, acquired rfl⟩
  | sendPreprepare =>
    obtain ⟨sm, -, rfl⟩ := send_eq.mp acts
    cases next
    cases mine
    exact present rfl nofun
  | sendPrepare | sendCommit =>
    obtain ⟨sm, -, rfl⟩ := send_eq.mp acts
    cases next
  | testWait | testVotes =>
    cases acts
    dsimp only at next
    split at next
    all_goals
      cases next
      try cases mine
      try exact present rfl nofun
  | testBody master m =>
    rcases testBody_cases acts with ⟨empty, rfl⟩ | rfl
    · cases next
      cases mine
      obtain ⟨found, settled⟩ := asserts _ rfl
      exact ⟨found, settled, empty⟩
    · cases next
      cases mine
      exact present rfl nofun
  | askMaster master m =>
    cases acts
    dsimp only at next
    split at next
    · cases next
      cases mine
      exact present rfl nofun
    · cases next
  | findDigest phase m =>
    cases acts
    obtain rfl := Option.some.inj next
    split
    next found =>
      rw [if_pos found] at mine
      cases mine
      exact present rfl nofun
    next missing =>
      rw [if_neg missing] at mine
      cases mine
      exact present rfl nofun
  | testFlag phase m =>
    obtain ⟨found, settled⟩ := asserts _ rfl
    rcases testFlag_cases acts with rfl | ⟨unset, rfl⟩ | ⟨uncommitted, filled, rfl⟩
    · cases next
    · cases next
      cases mine
      exact ⟨found, settled, unset⟩
    · cases next
      cases mine
      exact ⟨found, uncommitted, filled, settled uncommitted⟩
  | setPrepared m =>
    have changed := act_slot_own acts asserts rfl
    cases acts
    cases next
    cases mine
    obtain ⟨found, -, unset⟩ := asserts _ rfl
    rw [changed]
    refine ⟨found, rfl, ?_⟩
    -- a proposal that is not prepared has not been announced
    by_contra announced
    have prepared := sound.announcedPrepared (Nat.pos_of_ne_zero announced)
    rw [unset] at prepared
    cases prepared
  | callMaster m =>
    have changed := act_slot_own acts asserts rfl
    cases acts
    cases next
    cases mine
    obtain ⟨found, uncommitted, -, -⟩ := asserts _ rfl
    rw [changed]
    exact ⟨found, uncommitted, by simp [stage, Stage.change]⟩
  | setCommitted =>
    cases acts
    cases next

/-- A proposal is announced by the thread that has just raised its flag. -/
theorem act_announcing (acts : p.act c σ = some d) (next : d.next = some n)
    (announces : n.stage = .announcing) : p.stage = .preparing ∧ p.seq = n.seq := by
  cases p with
  | setPrepared m =>
    cases acts
    cases next
    exact ⟨rfl, rfl⟩
  | findEntry phase m =>
    cases acts
    obtain rfl := Option.some.inj next
    split at announces
    · cases announces
    · rw [counting_stage] at announces
      cases announces
  | insertEntry phase m =>
    cases acts
    obtain rfl := Option.some.inj next
    rw [counting_stage] at announces
    cases announces
  | findRequest | findPrepare | findDigest =>
    cases acts
    obtain rfl := Option.some.inj next
    split at announces <;> cases announces
  | testWait | testVotes | askMaster =>
    cases acts
    dsimp only at next
    split at next <;> cases next
    cases announces
  | testBody =>
    rcases testBody_cases acts with ⟨-, rfl⟩ | rfl <;> cases next <;> cases announces
  | testFlag =>
    rcases testFlag_cases acts with rfl | ⟨-, rfl⟩ | ⟨-, -, rfl⟩ <;> cases next <;>
      cases announces
  | sendPreprepare | sendPrepare | sendCommit =>
    obtain ⟨sm, -, rfl⟩ := send_eq.mp acts
    cases next <;> cases announces
  | _ =>
    cases acts
    cases next <;> cases announces

/-- When the mutex is given back the number is settled again. -/
theorem act_released {s : Nat} (acts : p.act c σ = some d)
    (asserts : ∀ s, p.seq = some s → p.stage.Asserts (σ.slot s))
    (releases : d.lock = .release (.ins s)) : (d.shared.slot s).Settled := by
  cases p with
  | testWait | testVotes =>
    cases acts
    cases releases
    exact (asserts _ rfl).2
  | fillBody | setPrepared =>
    have changed := act_slot_own acts asserts rfl
    cases acts
    cases releases
    rw [changed]
    exact (asserts _ rfl).2.1
  | setCommitted =>
    have changed := act_slot_own acts asserts rfl
    cases acts
    cases releases
    rw [changed]
    exact nofun
  | testBody =>
    rcases testBody_cases acts with ⟨-, rfl⟩ | rfl
    · cases releases
    · cases releases
      exact (asserts _ rfl).2
  | testFlag =>
    -- the flag is left as it is, or nothing is given back yet
    rcases testFlag_cases acts with rfl | ⟨-, rfl⟩ | ⟨-, -, rfl⟩
    · cases releases
      exact (asserts _ rfl).2
    · cases releases
    · cases releases
  | sendPreprepare | sendPrepare | sendCommit =>
    obtain ⟨sm, -, rfl⟩ := send_eq.mp acts
    cases releases
  | _ =>
    cases acts
    cases releases

end Point

/-! ### The outline -/

def outline : Threads.Outline Lock Shared Point where
  always σ := ∀ s, (σ.slot s).Sound
  at_ σ p := ∀ s, p.seq = some s → p.stage.Asserts (σ.slot s)
  free
    | .proposals, _ => True
    | .ins s, σ => (σ.slot s).Settled
  apart p q := ∀ s, p.seq = some s → q.seq = some s → p.stage = .announcing →
    q.stage ≠ .announcing

theorem outline_valid (c : Crypto) :
    outline.Valid (program c) Point.Holds where
  symm apart s mine theirs announcing' announcing := apart s theirs mine announcing announcing'
  enter := by
    intro a p σ entered
    have outside : p.stage = .outside := by
      cases a with
      | getRequest =>
        cases entered
        rfl
      | prepare | commit | reply =>
        obtain ⟨-, same⟩ := Option.ite_none_right_eq_some.mp entered
        cases same
        rfl
    refine ⟨fun s _ => ?_, fun q s _ _ announcing => ?_⟩
    · rw [outside]
      trivial
    · rw [outside] at announcing
      cases announcing
  own := by
    intro σ p d acts always asserts free
    refine ⟨fun s => ?_, fun n next s mine => ?_, fun k releases => ?_⟩
    · rw [Point.act_slot acts asserts]
      split
      next here => exact Stage.change_sound (asserts s here) (always s)
      next => exact always s
    · exact Point.act_next acts next (always s) asserts (free (.ins s)) mine
    · cases k with
      | proposals => trivial
      | ins s => exact Point.act_released acts asserts releases
  others := by
    intro σ p d q acts always mine theirs apart disjoint
    refine ⟨fun s there => ?_, fun n next s here there announcing announcing' => ?_⟩
    · rw [Point.act_slot acts mine]
      split
      -- under the same number the mutex keeps what the other thread relies on
      next here =>
        refine Stage.change_undisturbed (always s) (mine s here) (theirs s there) (fun locked => ?_)
          (apart s here there)
        have held := Point.held_of_locked locked here
        by_contra both
        exact disjoint _ held (Point.held_of_locked (by simpa using both) there)
      next => exact theirs s there
    · -- the flag had not been raised, so that nobody else announces the proposal
      obtain ⟨preparing, same⟩ := Point.act_announcing acts next announcing
      have unset : (σ.slot s).prepared = false := by
        have asserted := mine s (same.trans here)
        rw [preparing] at asserted
        exact asserted.2.2
      have prepared : (σ.slot s).prepared = true := by
        have asserted := theirs s there
        rw [announcing'] at asserted
        exact asserted.2.1
      rw [unset] at prepared
      cases prepared
  locks := by
    intro σ p d l acts always asserts settled free
    cases l with
    | proposals => trivial
    | ins s =>
      change (d.shared.slot s).Settled
      rw [Point.act_slot acts asserts]
      split
      next here =>
        -- what leaves a number unsettled is done under its mutex
        refine Stage.change_settled ?_ settled
        by_contra locked
        exact free (Point.held_of_locked (by simpa using locked) here)
      next => exact settled

/-! ### Runs -/

abbrev Process := Threads.State Lock Shared Point

namespace Process

open Transition

variable {c : Crypto} {h : PBFTHandler} {p p' : Process}

/-- The process before its first call. -/
def start (h : PBFTHandler) : Process := Threads.idle ⟨h, []⟩

abbrev step (c : Crypto) : Process → Threads.Move Call → Option Process :=
  Threads.step (program c)

/-- Calls come in and threads go on as they like. -/
abbrev Freely : Process → Threads.Move Call → Prop := fun _ _ => True

theorem outline_reached (reached : Reach (step c) Freely (start h) p) :
    outline.Holds p := by
  refine ((outline_valid c).reach (program_disciplined c) (fun s => ?_) (fun l => ?_) reached).1
  · have missing : (({ handler := h, log := [] } : Shared).slot s).present = false →
        (({ handler := h, log := [] } : Shared).slot s).body = "" := by
      intro absent
      have none : h.proposals s = none := by simpa [Shared.slot] using absent
      simp [Shared.slot, PBFTHandler.proposal, none]
    exact ⟨missing, Nat.zero_le 1, fun some => absurd some (Nat.lt_irrefl 0), Nat.zero_le 1,
      fun b member => absurd member List.not_mem_nil⟩
  · cases l with
    | proposals => trivial
    | ins s => exact fun _ => rfl

/-- One step keeps flags and bodies. -/
theorem kept_step {m : Threads.Move Call} (holds : outline.Holds p)
    (taken : step c p m = some p') (s : Nat) :
    Slot.Kept (p.shared.slot s) (p'.shared.slot s) := by
  cases m with
  | enter t a =>
    obtain ⟨-, rfl⟩ := Threads.step_enter taken
    exact .refl _
  | advance t =>
    obtain ⟨point, d, owner, here, acts, -, rfl⟩ := Threads.step_advance.mp taken
    have asserts := holds.at_ t point here
    change Slot.Kept (p.shared.slot s) (d.shared.slot s)
    rw [Point.act_slot acts asserts]
    split
    next mine => exact Stage.change_kept (asserts s mine) (holds.always s)
    next => exact .refl _

theorem kept_reach (reached : Reach (step c) Freely (start h) p)
    (later : Reach (step c) Freely p p') (s : Nat) :
    Slot.Kept (p.shared.slot s) (p'.shared.slot s) := by
  apply later.invariant (P := fun p' => Slot.Kept (p.shared.slot s) (p'.shared.slot s))
  · exact .refl _
  · intro p₁ m p₂ between kept _ taken
    exact kept.trans (kept_step (outline_reached (reached.trans between)) taken s)

/-- However the calls interleave, a number is executed at most once and at most one Commit is
broadcast for it; what was executed is the body of the proposal; and flags and bodies stay. -/
theorem at_most_once (reached : Reach (step c) Freely (start h) p) :
    (∀ s, (p.shared.log.filterMap (Effect.executes s)).length ≤ 1) ∧
    (∀ s, p.shared.log.countP (Effect.announces s) ≤ 1) ∧
    (∀ s b, .commitAction s b ∈ p.shared.log → (p.shared.handler.proposal s).body = b) ∧
    ∀ p', Reach (step c) Freely p p' → ∀ s,
      let before := p.shared.handler.proposal s
      let after := p'.shared.handler.proposal s
      (before.prepared = true → after.prepared = true) ∧
        (before.committed = true → after.committed = true) ∧
        (before.body ≠ "" → after.body = before.body) := by
  have sound := (outline_reached reached).always
  refine ⟨fun s => (sound s).executedOnce, fun s => (sound s).announcedOnce, ?_, ?_⟩
  · intro s b member
    have executed : b ∈ (p.shared.slot s).executed :=
      List.mem_filterMap.mpr ⟨_, member, by simp [Effect.executes]⟩
    exact ((sound s).executedBody b executed).1.symm
  · intro p' later s
    have kept := kept_reach reached later s
    exact ⟨kept.prepared, kept.committed, kept.body⟩

/-- Three Commit calls and three Reply calls of one proposal that all see their quorum
complete. -/
def crowdedMoves : List (Threads.Move Call) :=
  let enter (a : Call × Nat) : Threads.Move Call := .enter a.2 a.1
  let phase (a b c : Nat) : List Nat :=
    [a, a, a, a, b, b, b, c, c, c, a, a, b, b, c, c]
  (orderlyCalls "d" "A").zipIdx.map enter ++
    (List.replicate 6 0 ++ phase 1 2 3 ++ [2, 2, 2, 2, 1, 1, 3, 3] ++
      phase 4 5 6 ++ [5, 5, 5, 5, 4, 4, 6, 6]).map (.advance ·)

theorem at_most_once_crowded :
    ∃ p, exec (step sampleCrypto) (start (PBFTHandler.init (sampleConfig 4) 0)) crowdedMoves =
        some p ∧
      p.shared.log.filterMap (Effect.executes 0) = ["A"] ∧
      (∀ s, (p.shared.log.filterMap (Effect.executes s)).length ≤ 1) ∧
      ∀ s, p.shared.log.countP (Effect.announces s) ≤ 1 := by
  obtain ⟨p, ran, executed⟩ := exec_of_run (step sampleCrypto)
    (start (PBFTHandler.init (sampleConfig 4) 0)) crowdedMoves
    (p := fun p => decide (p.shared.log.filterMap (Effect.executes 0) = ["A"]))
    (by decide +kernel)
  obtain ⟨once, announced, -⟩ := at_most_once (reach_of_exec (meets_true ..) ran)
  exact ⟨p, ran, of_decide_eq_true executed, once, announced⟩

end Process

end Ruccoin.Pbft
