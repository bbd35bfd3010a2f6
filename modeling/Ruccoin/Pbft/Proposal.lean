import Ruccoin.Pbft.Message
import Mathlib.Data.List.AList

/-!
# Proposals and their votes

`Proposal` of `bft_node.h`: the body, the two flags and, for each phase, the vote table
`std::map<std::string, std::vector<uint32_t>>` from a digest to the ids that voted for it.
-/

namespace Ruccoin.Pbft

inductive PStat where
  | prePrepared
  | prepared
  | committed
deriving DecidableEq, Repr

abbrev VoteTable := AList (fun _ : String => List Nat)

namespace VoteTable

/-- The ids recorded under a digest. -/
def votes (table : VoteTable) (digest : String) : List Nat := (table.lookup digest).getD []

/-- One branch of `UpdateInfo`: make the entry when it is missing, then `push_back`. -/
def pushVote (table : VoteTable) (digest : String) (replicaId : Nat) : VoteTable :=
  let table := if digest ∈ table then table else table.insert digest []
  -- an id that is on the list already is appended again
  table.insert digest (table.votes digest ++ [replicaId])

/-- The `std::any_of` of `CheckVotes`. -/
def anyQuorum (table : VoteTable) (f : Nat) : Bool :=
  table.entries.any fun entry => decide (2 * f + 1 ≤ entry.2.length)

@[simp] theorem votes_empty (digest : String) : votes ∅ digest = [] := rfl

theorem votes_pushVote (table : VoteTable) (digest d : String) (replicaId : Nat) :
    (table.pushVote digest replicaId).votes d =
      if d = digest then table.votes d ++ [replicaId] else table.votes d := by
  unfold pushVote votes
  split
  next present =>
    -- only the list under the digest is written
    by_cases same : d = digest
    · subst same; simp
    · simp [AList.lookup_insert_ne same, same]
  next missing =>
    have none : table.lookup digest = none := AList.lookup_eq_none.mpr missing
    by_cases same : d = digest
    · subst same; simp [none]
    · simp [AList.lookup_insert_ne same, same]

/-- A quorum test succeeds exactly when some digest has `2f + 1` entries. -/
theorem anyQuorum_iff (table : VoteTable) (f : Nat) :
    table.anyQuorum f = true ↔ ∃ digest, 2 * f + 1 ≤ (table.votes digest).length := by
  simp only [anyQuorum, List.any_eq_true, decide_eq_true_eq]
  constructor
  · -- an entry of the table is found under its digest
    rintro ⟨⟨digest, ids⟩, member, large⟩
    have found : table.lookup digest = some ids := AList.mem_lookup_iff.mpr member
    exact ⟨digest, by simpa [votes, found] using large⟩
  · rintro ⟨digest, large⟩
    cases found : table.lookup digest with
    | none =>
      -- a digest without an entry has no votes
      simp [votes, found] at large
    | some ids =>
      refine ⟨⟨digest, ids⟩, AList.mem_lookup_iff.mp found, ?_⟩
      simpa [votes, found] using large

end VoteTable

structure Proposal where
  clientId : Nat
  stat : PStat
  seq : Nat
  timeStamp : Nat
  body : String
  f : Nat
  prepared : Bool
  committed : Bool
  prepareVotes : VoteTable
  commitVotes : VoteTable

namespace Proposal

/-- The constructor. Its `time_stamp` parameter has 32 bits, its callers pass 64. -/
def new (timeStamp clientId seq : Nat) (body : String) (f : Nat) : Proposal where
  clientId := clientId
  stat := .prePrepared
  seq := seq
  timeStamp := timeStamp % 2 ^ 32
  body := body
  f := f
  prepared := false
  committed := false
  prepareVotes := ∅
  commitVotes := ∅

@[simp] theorem new_f (timeStamp clientId seq : Nat) (body : String) (f : Nat) :
    (new timeStamp clientId seq body f).f = f := rfl

@[simp] theorem new_body (timeStamp clientId seq : Nat) (body : String) (f : Nat) :
    (new timeStamp clientId seq body f).body = body := rfl

/-- `UpdateInfo` chooses the table by the type the message claims. -/
def updateInfo (p : Proposal) (m : Message) : Proposal :=
  match m.mtype with
  | .prepare => { p with prepareVotes := p.prepareVotes.pushVote m.digest m.replicaId }
  | .commit => { p with commitVotes := p.commitVotes.pushVote m.digest m.replicaId }
  | _ => p

def checkVotes (p : Proposal) (mtype : MType) : Bool :=
  match mtype with
  -- a raised flag counts as a quorum
  | .prepare => p.prepared || p.prepareVotes.anyQuorum p.f
  | .commit => p.committed || p.commitVotes.anyQuorum p.f
  | _ => false

/-- The ids counted for a type of vote under a digest. -/
def votesOf (p : Proposal) (t : MType) (digest : String) : List Nat :=
  match t with
  | .prepare => p.prepareVotes.votes digest
  | .commit => p.commitVotes.votes digest
  | _ => []

@[simp] theorem new_votesOf (timeStamp clientId seq : Nat) (body : String) (f : Nat)
    (t : MType) (digest : String) : (new timeStamp clientId seq body f).votesOf t digest = [] := by
  cases t <;> rfl

/-- The flags are no part of the votes. -/
@[simp] theorem votesOf_prepared (p : Proposal) (flag : Bool) (t : MType) (digest : String) :
    ({ p with prepared := flag } : Proposal).votesOf t digest = p.votesOf t digest := by
  cases t <;> rfl

@[simp] theorem votesOf_committed (p : Proposal) (flag : Bool) (t : MType) (digest : String) :
    ({ p with committed := flag } : Proposal).votesOf t digest = p.votesOf t digest := by
  cases t <;> rfl

/-- Some digest has `2f + 1` votes of the type. -/
def Quorum (p : Proposal) (t : MType) : Prop :=
  ∃ digest, 2 * p.f + 1 ≤ (p.votesOf t digest).length

@[simp] theorem quorum_prepared (p : Proposal) (flag : Bool) (t : MType) :
    ({ p with prepared := flag } : Proposal).Quorum t ↔ p.Quorum t := by
  simp only [Quorum, votesOf_prepared]

@[simp] theorem quorum_committed (p : Proposal) (flag : Bool) (t : MType) :
    ({ p with committed := flag } : Proposal).Quorum t ↔ p.Quorum t := by
  simp only [Quorum, votesOf_committed]

theorem checkVotes_prepare (p : Proposal) :
    p.checkVotes .prepare = true ↔ p.prepared = true ∨ p.Quorum .prepare := by
  simp only [checkVotes, Bool.or_eq_true, VoteTable.anyQuorum_iff, Quorum, votesOf]

theorem checkVotes_commit (p : Proposal) :
    p.checkVotes .commit = true ↔ p.committed = true ∨ p.Quorum .commit := by
  simp only [checkVotes, Bool.or_eq_true, VoteTable.anyQuorum_iff, Quorum, votesOf]

/-- Only the two types that vote have a quorum. -/
theorem votes_of_checkVotes {p : Proposal} {t : MType} (enough : p.checkVotes t = true) :
    t = .prepare ∨ t = .commit := by
  cases t with
  | preprepare => cases enough
  | prepare => exact Or.inl rfl
  | commit => exact Or.inr rfl
  | other code => cases enough

section UpdateInfo

variable (p : Proposal) (m : Message)

@[simp] theorem updateInfo_body : (p.updateInfo m).body = p.body := by
  unfold updateInfo; split <;> rfl

@[simp] theorem updateInfo_f : (p.updateInfo m).f = p.f := by
  unfold updateInfo; split <;> rfl

@[simp] theorem updateInfo_prepared : (p.updateInfo m).prepared = p.prepared := by
  unfold updateInfo; split <;> rfl

@[simp] theorem updateInfo_committed : (p.updateInfo m).committed = p.committed := by
  unfold updateInfo; split <;> rfl

/-- A vote is appended under its own type and digest, and nowhere else. -/
theorem updateInfo_votesOf (t : MType) (digest : String) :
    (p.updateInfo m).votesOf t digest =
      if m.mtype = t ∧ m.digest = digest ∧ (t = .prepare ∨ t = .commit) then
        p.votesOf t digest ++ [m.replicaId]
      else p.votesOf t digest := by
  have flip : (digest = m.digest) ↔ (m.digest = digest) := eq_comm
  unfold updateInfo votesOf
  cases type : m.mtype <;> cases t <;> simp [VoteTable.votes_pushVote, flip]

end UpdateInfo

end Proposal

end Ruccoin.Pbft
