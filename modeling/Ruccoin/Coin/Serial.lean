import Ruccoin.Coin.Concurrency
import Ruccoin.Foundation.Progress
import Ruccoin.Foundation.Serializable

/-!
# Blocks that are committed at the same time

Nothing in `UpdateBlance` keeps two `CommitProposal` calls apart: each reads both balances of
a transaction before it writes either, and the other may write in between. The accounts that
a block names are its footprint. Where blocks that are committed at the same time have no
account in common, the balances are those of the same calls made one after the other.
-/

namespace Ruccoin.Coin

open Threads

/-! ### The accounts of a list of transactions -/

def accounts (txs : List TX) : List String := txs.flatMap fun tx => [tx.fromAddr, tx.toAddr]

theorem mem_accounts_cons {a : String} {tx : TX} {txs : List TX} :
    a ∈ accounts (tx :: txs) ↔ a = tx.fromAddr ∨ a = tx.toAddr ∨ a ∈ accounts txs := by
  simp [accounts]

/-- The two stores are the same on these accounts. -/
def Agree (on : String → Prop) (s s' : Store) : Prop := ∀ a, on a → s.lookup a = s'.lookup a

section Local

variable {t : AmountText} {on : String → Prop} {s s' : Store} {tx : TX} {txs : List TX}

theorem Agree.insert (agree : Agree on s s') (a text : String) :
    Agree on (s.insert a text) (s'.insert a text) := by
  intro b held
  by_cases here : b = a
  · rw [here, AList.lookup_insert, AList.lookup_insert]
  · rw [AList.lookup_insert_ne here, AList.lookup_insert_ne here]
    exact agree b held

/-- The rest of `UpdateBlance` from where it credits the recipient. -/
def creditRest (t : AmountText) (tx : TX) (txs : List TX) (toBalance : String) (s : Store) :
    Store :=
  match t.stod toBalance with
  | some value =>
    (updateBlance t (s.insert tx.toAddr (t.toString (value + tx.value))) txs).state
  | none => s

/-- And from where it debits the sender. -/
def debitRest (t : AmountText) (tx : TX) (txs : List TX) (fromBalance toBalance : String)
    (s : Store) : Store :=
  match t.stod fromBalance with
  | some value =>
    creditRest t tx txs toBalance (s.insert tx.fromAddr (t.toString (value - tx.value)))
  | none => s

theorem updateBlance_cons_state (t : AmountText) (s : Store) (tx : TX) (txs : List TX) :
    (updateBlance t s (tx :: txs)).state =
      match s.lookup tx.fromAddr, s.lookup tx.toAddr with
      | some fromBalance, some toBalance => debitRest t tx txs fromBalance toBalance s
      | _, _ => s := by
  rw [updateBlance_cons, updateTx]
  cases s.lookup tx.fromAddr with
  | none => exact congrArg _ (Outcome.andThen_of_some rfl)
  | some fromBalance =>
    cases s.lookup tx.toAddr with
    | none => exact congrArg _ (Outcome.andThen_of_some rfl)
    | some toBalance =>
      dsimp only
      unfold debitRest
      cases t.stod fromBalance with
      | none => exact congrArg _ (Outcome.andThen_of_some rfl)
      | some fromValue =>
        dsimp only
        unfold creditRest
        cases t.stod toBalance with
        | none => exact congrArg _ (Outcome.andThen_of_some rfl)
        | some toValue => exact congrArg _ (Outcome.andThen_of_none rfl)

/-- Accounts that are not named keep their texts. -/
theorem updateBlance_frame {a : String} (s : Store) (other : a ∉ accounts txs) :
    (updateBlance t s txs).state.lookup a = s.lookup a := by
  induction txs generalizing s with
  | nil => rfl
  | cons tx txs ih =>
    rw [mem_accounts_cons, not_or, not_or] at other
    obtain ⟨notFrom, notTo, others⟩ := other
    rw [updateBlance_cons_state]
    split
    · unfold debitRest creditRest
      split
      · split
        · rw [ih _ others, AList.lookup_insert_ne notTo, AList.lookup_insert_ne notFrom]
        · rw [AList.lookup_insert_ne notFrom]
      · rfl
    · rfl

theorem creditRest_frame {a toBalance : String} (s : Store) (notTo : a ≠ tx.toAddr)
    (others : a ∉ accounts txs) : (creditRest t tx txs toBalance s).lookup a = s.lookup a := by
  unfold creditRest
  split
  · rw [updateBlance_frame _ others, AList.lookup_insert_ne notTo]
  · rfl

theorem debitRest_frame {a fromBalance toBalance : String} (s : Store)
    (other : a ∉ accounts (tx :: txs)) :
    (debitRest t tx txs fromBalance toBalance s).lookup a = s.lookup a := by
  rw [mem_accounts_cons, not_or, not_or] at other
  obtain ⟨notFrom, notTo, others⟩ := other
  unfold debitRest
  split
  · rw [creditRest_frame _ notTo others, AList.lookup_insert_ne notFrom]
  · rfl

/-- What is read and written depends on the named accounts only. -/
theorem updateBlance_agree (agree : Agree on s s') (named : ∀ a ∈ accounts txs, on a) :
    Agree on (updateBlance t s txs).state (updateBlance t s' txs).state := by
  induction txs generalizing s s' with
  | nil => exact agree
  | cons tx txs ih =>
    have here := agree tx.fromAddr (named _ (mem_accounts_cons.mpr (Or.inl rfl)))
    have there := agree tx.toAddr (named _ (mem_accounts_cons.mpr (Or.inr (Or.inl rfl))))
    have rest : ∀ a ∈ accounts txs, on a :=
      fun a member => named a (mem_accounts_cons.mpr (Or.inr (Or.inr member)))
    rw [updateBlance_cons_state, updateBlance_cons_state, here, there]
    split
    · unfold debitRest creditRest
      split
      · split
        · exact ih ((agree.insert _ _).insert _ _) rest
        · exact agree.insert _ _
      · exact agree
    · exact agree

theorem creditRest_agree {toBalance : String} (agree : Agree on s s')
    (named : ∀ a ∈ accounts txs, on a) :
    Agree on (creditRest t tx txs toBalance s) (creditRest t tx txs toBalance s') := by
  unfold creditRest
  split
  · exact updateBlance_agree (agree.insert _ _) named
  · exact agree

theorem debitRest_agree {fromBalance toBalance : String} (agree : Agree on s s')
    (named : ∀ a ∈ accounts txs, on a) :
    Agree on (debitRest t tx txs fromBalance toBalance s)
      (debitRest t tx txs fromBalance toBalance s') := by
  unfold debitRest
  split
  · exact creditRest_agree (agree.insert _ _) named
  · exact agree

end Local

/-! ### The footprint of a call -/

namespace PoolPoint

variable (env : Env)

/-- The accounts that the rest of the call is about. -/
def accounts : PoolPoint → List String
  | .parse p => match env.parseBlock p with
    | .ok block => Coin.accounts block.transxList
    | .error _ => []
  | .getFrom _ tx txs | .getTo _ tx txs _ | .putFrom _ tx txs _ _ => Coin.accounts (tx :: txs)
  | .putTo _ tx txs _ => tx.toAddr :: Coin.accounts txs
  | .insert _ | .pushHash _ | .removeTxFromPool _ | .writeBlock _ => []

/-- The balances when the rest of the call has been made. -/
def finish : PoolPoint → Store → Store
  | .parse p, s => match env.parseBlock p with
    | .ok block => (updateBlance env.amounts s block.transxList).state
    | .error _ => s
  | .getFrom _ tx txs, s => (updateBlance env.amounts s (tx :: txs)).state
  | .getTo _ tx txs fromBalance, s => match s.lookup tx.toAddr with
    | some toBalance => debitRest env.amounts tx txs fromBalance toBalance s
    | none => s
  | .putFrom _ tx txs fromBalance toBalance, s =>
    debitRest env.amounts tx txs fromBalance toBalance s
  | .putTo _ tx txs toBalance, s => creditRest env.amounts tx txs toBalance s
  | .insert _, s | .pushHash _, s | .removeTxFromPool _, s | .writeBlock _, s => s

variable {env} {σ : SharedNode} {p : PoolPoint} {d : Step}

theorem accounts_updating (block : Block) (txs : List TX) :
    (updating block txs).accounts env = Coin.accounts txs := by
  cases txs with
  | nil => rfl
  | cons tx txs => rfl

theorem finish_updating (block : Block) (txs : List TX) (s : Store) :
    (updating block txs).finish env s = (updateBlance env.amounts s txs).state := by
  cases txs with
  | nil => rfl
  | cons tx txs => rfl

theorem raise_balances (σ : SharedNode) (e : Fault) :
    (σ.raise e).node.balances = σ.node.balances := rfl

/-- What a step does to the balances: what it leaves to do is what it has not done itself, on
accounts that were still to come. -/
structure Accesses (env : Env) (σ : SharedNode) (p : PoolPoint) (d : Step) : Prop where
  rest : d.next.elim id (finish env) d.shared.node.balances = p.finish env σ.node.balances
  shrinks : ∀ n, d.next = some n → ∀ a ∈ n.accounts env, a ∈ p.accounts env
  frame : ∀ a, a ∉ p.accounts env →
    d.shared.node.balances.lookup a = σ.node.balances.lookup a

/-- A step that goes on without having written. -/
theorem accesses_go {next : PoolPoint}
    (rest : next.finish env σ.node.balances = p.finish env σ.node.balances)
    (shrinks : ∀ a ∈ next.accounts env, a ∈ p.accounts env) :
    Accesses env σ p ⟨.keep, σ, some next⟩ where
  rest := rest
  shrinks := by
    rintro n ⟨⟩
    exact shrinks
  frame _ _ := rfl

/-- A step that returns without having written. -/
theorem accesses_leave {σ' : SharedNode} (same : σ'.node.balances = σ.node.balances)
    (rest : p.finish env σ.node.balances = σ.node.balances) :
    Accesses env σ p ⟨.keep, σ', none⟩ where
  rest := same.trans rest.symm
  shrinks := nofun
  frame a _ := by rw [same]

theorem accesses_act (acts : p.act env σ = some d) : Accesses env σ p d := by
  cases p with
  | insert tx =>
    cases acts
    exact accesses_leave rfl rfl
  | parse p =>
    simp only [act] at acts
    split at acts
    next block parsed =>
      -- the accounts of the block are those of the call from the start
      cases acts
      refine accesses_go ?_ fun a member => ?_
      · rw [finish_updating, finish]
        simp only [parsed]
      · rw [accounts_updating] at member
        simpa only [accounts, parsed] using member
    next e unparsed =>
      cases acts
      exact accesses_leave (raise_balances ..) (by simp only [finish, unparsed])
  | getFrom block tx txs =>
    simp only [act] at acts
    split at acts
    next fromBalance found =>
      cases acts
      refine accesses_go ?_ fun a member => member
      simp only [finish, updateBlance_cons_state, found]
      cases σ.node.balances.lookup tx.toAddr <;> rfl
    next missing =>
      cases acts
      exact accesses_leave (raise_balances ..)
        (by simp only [finish, updateBlance_cons_state, missing])
  | getTo block tx txs fromBalance =>
    simp only [act] at acts
    split at acts
    next toBalance found =>
      cases acts
      exact accesses_go (by simp only [finish, found]) fun a member => member
    next missing =>
      cases acts
      exact accesses_leave (raise_balances ..) (by simp only [finish, missing])
  | putFrom block tx txs fromBalance toBalance =>
    simp only [act] at acts
    split at acts
    next value read =>
      cases acts
      -- the text is written under an account of the block, and others keep theirs
      refine ⟨by simp only [finish, debitRest, read]; rfl, ?_, fun a other => ?_⟩
      · rintro n ⟨⟩ a member
        exact List.mem_cons_of_mem _ member
      · exact AList.lookup_insert_ne fun same => other (same ▸ List.mem_cons_self)
    next unread =>
      cases acts
      exact accesses_leave (raise_balances ..) (by simp only [finish, debitRest, unread])
  | putTo block tx txs toBalance =>
    simp only [act] at acts
    split at acts
    next value read =>
      cases acts
      refine ⟨?_, ?_, fun a other => ?_⟩
      · rw [Option.elim_some, finish_updating]
        simp only [finish, creditRest, read]
        rfl
      · rintro n ⟨⟩ a member
        rw [accounts_updating] at member
        exact List.mem_cons_of_mem _ member
      · exact AList.lookup_insert_ne fun same => other (same ▸ List.mem_cons_self)
    next unread =>
      cases acts
      exact accesses_leave (raise_balances ..) (by simp only [finish, creditRest, unread])
  | pushHash block =>
    cases acts
    exact ⟨rfl, by rintro n ⟨⟩ a ⟨⟩, fun _ _ => rfl⟩
  | removeTxFromPool block =>
    cases acts
    exact ⟨rfl, by rintro n ⟨⟩ a ⟨⟩, fun _ _ => rfl⟩
  | writeBlock block =>
    cases acts
    exact accesses_leave rfl rfl

theorem finish_frame {a : String} (p : PoolPoint) (s : Store) (other : a ∉ p.accounts env) :
    (p.finish env s).lookup a = s.lookup a := by
  cases p with
  | parse p =>
    cases parsed : env.parseBlock p with
    | error e => simp only [finish, parsed]
    | ok block =>
      simp only [accounts, parsed] at other
      simp only [finish, parsed]
      exact updateBlance_frame s other
  | getFrom block tx txs => exact updateBlance_frame s other
  | getTo block tx txs fromBalance =>
    simp only [finish]
    cases s.lookup tx.toAddr with
    | none => rfl
    | some toBalance => exact debitRest_frame s other
  | putFrom block tx txs fromBalance toBalance => exact debitRest_frame s other
  | putTo block tx txs toBalance =>
    -- of this transaction only the recipient is still to be written
    obtain ⟨notTo, others⟩ := not_or.mp (mt List.mem_cons.mpr other)
    exact creditRest_frame s notTo others
  | insert tx => rfl
  | pushHash block => rfl
  | removeTxFromPool block => rfl
  | writeBlock block => rfl

theorem finish_agree {s s' : Store} (p : PoolPoint) (agree : Agree (· ∈ p.accounts env) s s') :
    Agree (· ∈ p.accounts env) (p.finish env s) (p.finish env s') := by
  have rest : ∀ {tx : TX} {txs : List TX}, ∀ a ∈ Coin.accounts txs,
      a ∈ Coin.accounts (tx :: txs) := fun a member => mem_accounts_cons.mpr (by simp [member])
  cases p with
  | parse p =>
    cases parsed : env.parseBlock p with
    | error e =>
      simp only [finish, parsed]
      exact agree
    | ok block =>
      simp only [finish, parsed]
      exact updateBlance_agree agree fun a member => by simpa only [accounts, parsed] using member
  | getFrom block tx txs => exact updateBlance_agree agree fun a member => member
  | getTo block tx txs fromBalance =>
    have there := agree tx.toAddr (mem_accounts_cons.mpr (Or.inr (Or.inl rfl)))
    simp only [finish, there]
    cases s'.lookup tx.toAddr with
    | none => exact agree
    | some toBalance => exact debitRest_agree agree rest
  | putFrom block tx txs fromBalance toBalance => exact debitRest_agree agree rest
  | putTo block tx txs toBalance =>
    exact creditRest_agree agree fun a member => List.mem_cons_of_mem _ member
  | insert tx => exact agree
  | pushHash block => exact agree
  | removeTxFromPool block => exact agree
  | writeBlock block => exact agree

/-- What the calls do to the texts of the database. -/
def footprints (env : Env) :
    Footprints (poolProgram env) (fun σ => σ.node.balances) (fun s a => s.lookup a) where
  foot p a := a ∈ p.accounts env
  finish := finish env
  step acts := (accesses_act acts).rest
  shrinks := by
    rintro σ p d a acts ⟨n, next, member⟩
    exact (accesses_act acts).shrinks n next a member
  frame acts other := (accesses_act acts).frame _ other
  finish_frame s other := finish_frame _ s other
  finish_local agree := finish_agree _ agree

end PoolPoint

/-! ### Runs of the process -/

namespace NodeProcess

open Transition

variable {env : Env} {st st' : NodeProcess} {run : List Label} {node : ProposingNode}

/-- A call comes in on one of the threads of the server, and its block names no account that a
call still has to read or write. -/
def Apart (env : Env) (workers : Nat) (st : NodeProcess) : Label → Prop
  | .call (.enter t call) => t < workers ∧ ∀ u < workers, ∀ q ∈ st.calls.threads u,
      ∀ p ∈ PoolPoint.enter env call, ∀ a ∈ p.accounts env, a ∉ q.accounts env
  | .call (.advance ..) | .run _ => True

instance (workers : Nat) (st : NodeProcess) : ∀ a, Decidable (Apart env workers st a)
  | .call (.enter t call) => inferInstanceAs (Decidable (t < workers ∧
      ∀ u < workers, ∀ q ∈ st.calls.threads u, ∀ p ∈ PoolPoint.enter env call,
        ∀ a ∈ p.accounts env, a ∉ q.accounts env))
  | .call (.advance ..) | .run _ => inferInstanceAs (Decidable True)

/-- The proposals that are committed in a run, in the order of the calls. -/
def Label.proposal : Label → Option String
  | .call (.enter _ (.commitProposal p)) => some p
  | _ => none

def proposals (run : List Label) : List String := run.filterMap Label.proposal

theorem proposals_concat (run : List Label) (a : Label) :
    proposals (run ++ [a]) = proposals run ++ a.proposal.toList := by
  unfold proposals
  rw [List.filterMap_append]
  cases proposed : a.proposal with
  | none =>
    rw [List.filterMap_cons_none proposed]
    rfl
  | some p =>
    rw [List.filterMap_cons_some proposed]
    rfl

/-- The node when the calls are made one after the other. A call that stops leaves behind
what it had written. -/
def committed (env : Env) (node : CoinNode) (ps : List String) : CoinNode :=
  ps.foldl (fun node p => (node.commitProposal env p).state) node

theorem commitProposal_balances (node : CoinNode) (p : String) :
    (node.commitProposal env p).state.balances =
      (PoolPoint.footprints env).whole (.commitProposal p) node.balances := by
  cases parsed : env.parseBlock p with
  | error e =>
    rw [CoinNode.commitProposal_of_error node parsed]
    simp [Footprints.whole, poolProgram, PoolPoint.enter, PoolPoint.footprints,
      PoolPoint.finish, parsed]
  | ok block =>
    rw [(CoinNode.commitProposal_of_parsed node parsed).2.1]
    simp [Footprints.whole, poolProgram, PoolPoint.enter, PoolPoint.footprints,
      PoolPoint.finish, parsed]

theorem addTransx_whole (env : Env) (tx : TX) (s : Store) :
    (PoolPoint.footprints env).whole (.addTransx tx) s = s := by
  unfold Footprints.whole poolProgram PoolPoint.enter
  dsimp only
  split <;> rfl

variable (env) in
theorem runStep_balances (draw : Draw) (st : NodeProcess) :
    (runStep env draw st).shared.node.balances = st.shared.node.balances := by
  unfold runStep
  dsimp only
  cases st.run with
  | test =>
    dsimp only
    split <;> rfl
  | pack seen =>
    dsimp only
    split
    · dsimp only [withRun, shared]
      rw [PackingNode.packBlock_frame]
    · rfl
  | propose =>
    dsimp only
    split <;> rfl

variable (env) in
theorem runStep_threads (draw : Draw) (st : NodeProcess) :
    ∃ σ, (runStep env draw st).calls = { st.calls with shared := σ } := by
  unfold runStep
  dsimp only
  cases st.run with
  | test =>
    dsimp only
    split <;> exact ⟨_, rfl⟩
  | pack seen =>
    dsimp only
    split <;> exact ⟨_, rfl⟩
  | propose => exact ⟨_, rfl⟩

/-- The balances are on the way to those of the calls made one after the other. -/
structure Tracks (env : Env) (workers : Nat) (st : NodeProcess) (s : Store) : Prop where
  below : Below workers st.calls
  serial : (PoolPoint.footprints env).Serial st.calls s

theorem tracks_step {workers : Nat} {s : CoinNode} {a : Label}
    (tracks : Tracks env workers st s.balances)
    (apart : Apart env workers st a) (taken : step env st a = some st') :
    Tracks env workers st' (committed env s a.proposal.toList).balances := by
  cases a with
  | run draw =>
    -- the loop of `Run` writes no balance
    obtain ⟨-, rfl⟩ := step_run taken
    have balances := runStep_balances env draw st
    obtain ⟨σ, calls⟩ := runStep_threads env draw st
    unfold shared at balances
    constructor
    · rw [calls]
      exact tracks.below
    · rw [calls] at balances ⊢
      exact tracks.serial.withShared balances
  | call move =>
    unfold step at taken
    split at taken
    · cases taken
    · obtain ⟨calls, moved, rfl⟩ := Option.map_eq_some_iff.mp taken
      cases move with
      | advance t =>
        exact ⟨below_advance tracks.below moved, tracks.serial.advance moved⟩
      | enter t call =>
        refine ⟨below_step (m := .enter t call) tracks.below apart.1 moved, ?_⟩
        have clear : (PoolPoint.footprints env).Clear st.calls call := by
          rintro u q a there ⟨p, entered, member⟩ both
          exact apart.2 u (tracks.below.lt there) q there p entered a member both
        have after := tracks.serial.enter clear moved
        cases call with
        | addTransx tx =>
          rw [addTransx_whole] at after
          exact after
        | commitProposal p =>
          rw [← commitProposal_balances] at after
          exact after

theorem tracks_run {workers : Nat} (ran : exec (step env) (start node) run = some st)
    (apart : Meets (step env) (Apart env workers) (start node) run) :
    Tracks env workers st (committed env node.toCoinNode (proposals run)).balances := by
  induction run using List.reverseRecOn generalizing st with
  | nil =>
    cases ran
    exact ⟨fun _ _ => rfl, Footprints.serial_idle _⟩
  | append_singleton run a ih =>
    obtain ⟨st₁, before, taken⟩ := exec_concat.mp ran
    obtain ⟨earlier, last⟩ := (meets_append ..).mp apart
    have further := tracks_step (ih before earlier) (last st₁ before).1 taken
    unfold committed at further ⊢
    rw [proposals_concat, List.foldl_append]
    exact further

/-- However the steps of the calls and of `Run` interleave: when blocks that are committed at
the same time have no account in common and all calls have returned, every balance is that
of the same `CommitProposal` calls made one after the other. -/
theorem commits_serial {workers : Nat} (ran : exec (step env) (start node) run = some st)
    (apart : Meets (step env) (Apart env workers) (start node) run)
    (returned : ∀ t, st.calls.threads t = none) (a : String) :
    st.shared.node.balances.lookup a =
      (committed env node.toCoinNode (proposals run)).balances.lookup a :=
  (tracks_run ran apart).serial.returned returned a

/-! ### Two blocks at once -/

/-- A node with four accounts. -/
def busyNode : ProposingNode :=
  { packer with
    balances := readUserData (some "a,04a,20\nb,04b,0\nc,04c,20\nd,04d,0\n") ∅ }

def blockOf (timeStamp : UInt64) (key toAddr : String) : Block :=
  sampleBlock 1 "genesis" ("h" ++ key) [samplePayment timeStamp key toAddr]

/-- The second block is committed from beginning to end while the first has read both of its
balances and written neither. -/
def nested (env : Env) (first second : Block) : List Label :=
  [.call (.enter 0 (.commitProposal (env.json.dump first.toJson)))] ++
    List.replicate 3 (.call (.advance 0)) ++
    [.call (.enter 1 (.commitProposal (env.json.dump second.toJson)))] ++
    List.replicate 8 (.call (.advance 1)) ++ List.replicate 5 (.call (.advance 0))

def apartEnv : Env := sampleEnv [blockOf 1 "a" "04b", blockOf 1 "c" "04d"]

def sharedEnv : Env := sampleEnv [blockOf 1 "a" "04b", blockOf 2 "a" "04b"]

theorem commits_serial_apart :
    ∃ st, exec (step apartEnv) (start busyNode)
        (nested apartEnv (blockOf 1 "a" "04b") (blockOf 1 "c" "04d")) = some st ∧
      st.shared.node.balances.lookup "04a" = some "10.000000" ∧
      st.shared.node.balances.lookup "04c" = some "10.000000" := by
  obtain ⟨st, ran, idle⟩ := exec_of_run (step apartEnv) (start busyNode)
    (nested apartEnv (blockOf 1 "a" "04b") (blockOf 1 "c" "04d"))
    (p := fun st => (List.range 8).all fun t => (st.calls.threads t).isNone)
    (by decide +kernel)
  have apart : Meets (step apartEnv) (Apart apartEnv 8) (start busyNode)
      (nested apartEnv (blockOf 1 "a" "04b") (blockOf 1 "c" "04d")) := by decide +kernel
  have returned : ∀ t, st.calls.threads t = none := by
    intro t
    by_cases served : t < 8
    · exact Option.isNone_iff_eq_none.mp
        (List.all_eq_true.mp idle t (List.mem_range.mpr served))
    · exact (tracks_run ran apart).below t (not_lt.mp served)
  refine ⟨st, ran, ?_, ?_⟩
  · rw [commits_serial ran apart returned]
    decide +kernel
  · rw [commits_serial ran apart returned]
    decide +kernel

/-- Two blocks that debit the same account: one of the two payments is lost. -/
theorem commits_lost :
    ∃ st, exec (step sharedEnv) (start busyNode)
        (nested sharedEnv (blockOf 1 "a" "04b") (blockOf 2 "a" "04b")) = some st ∧
      st.shared.node.balances.lookup "04a" = some "10.000000" ∧
      (committed sharedEnv busyNode.toCoinNode
        (proposals (nested sharedEnv (blockOf 1 "a" "04b") (blockOf 2 "a" "04b")))).balances.lookup
          "04a" = some "0.000000" := by
  obtain ⟨st, ran, lost⟩ := exec_of_run (step sharedEnv) (start busyNode)
    (nested sharedEnv (blockOf 1 "a" "04b") (blockOf 2 "a" "04b"))
    (p := fun st => st.shared.node.balances.lookup "04a" == some "10.000000") (by decide +kernel)
  exact ⟨st, ran, eq_of_beq lost, by decide +kernel⟩

end NodeProcess

end Ruccoin.Coin
