import Ruccoin.Coin.Serial
import Mathlib.Tactic.Abel

/-!
# Lost updates

A put writes the balance that was read some steps before, plus or minus the value. When the
balance has changed in the meantime the change is lost. A book is kept beside the process of
all that the puts add to the accounts: it tells the balances exactly as long as every put
still finds the balance that it was computed from.
-/

namespace Ruccoin.Coin

open Threads Transition

/-! ### What a call owes -/

/-- The two entries of a transaction, also of one to oneself. -/
def TX.transfer (tx : TX) : List (String × Amount) :=
  [(tx.fromAddr, -tx.value), (tx.toAddr, tx.value)]

namespace PoolPoint

variable (env : Env)

/-- The entries that are still to be made. -/
def owes : PoolPoint → List (String × Amount)
  | .parse p => match env.parseBlock p with
    | .ok block => block.transxList.flatMap TX.transfer
    | .error _ => []
  | .getFrom _ tx txs | .getTo _ tx txs _ | .putFrom _ tx txs _ _ =>
    (tx :: txs).flatMap TX.transfer
  | .putTo _ tx txs _ => (tx.toAddr, tx.value) :: txs.flatMap TX.transfer
  | .insert _ | .pushHash _ | .removeTxFromPool _ | .writeBlock _ => []

/-- The entry that the next step makes. -/
def posts : PoolPoint → List (String × Amount)
  | .putFrom _ tx _ fromBalance _ =>
    if (env.amounts.stod fromBalance).isSome then [(tx.fromAddr, -tx.value)] else []
  | .putTo _ tx _ toBalance =>
    if (env.amounts.stod toBalance).isSome then [(tx.toAddr, tx.value)] else []
  | _ => []

/-- The next step finds the balance that it has read. -/
def Fresh (s : Store) : PoolPoint → Prop
  | .putFrom _ tx _ fromBalance _ => ∀ value ∈ env.amounts.stod fromBalance,
      balance env.amounts s tx.fromAddr = some value
  | .putTo _ tx _ toBalance => ∀ value ∈ env.amounts.stod toBalance,
      balance env.amounts s tx.toAddr = some value
  | _ => True

instance (s : Store) : ∀ p, Decidable (Fresh env s p)
  | .putFrom _ tx _ fromBalance _ => inferInstanceAs (Decidable
      (∀ value ∈ env.amounts.stod fromBalance, balance env.amounts s tx.fromAddr = some value))
  | .putTo _ tx _ toBalance => inferInstanceAs (Decidable
      (∀ value ∈ env.amounts.stod toBalance, balance env.amounts s tx.toAddr = some value))
  | .insert _ | .parse _ | .getFrom .. | .getTo .. | .pushHash _ | .removeTxFromPool _
  | .writeBlock _ => inferInstanceAs (Decidable True)

/-- A call that returns at its next step owes nothing: it has not been stopped. -/
def Settles (σ : SharedNode) (p : PoolPoint) : Prop :=
  ∀ d ∈ p.act env σ, d.next = none → p.owes env = []

instance (σ : SharedNode) (p : PoolPoint) : Decidable (Settles env σ p) :=
  inferInstanceAs (Decidable (∀ d ∈ p.act env σ, d.next = none → p.owes env = []))

variable {env} {σ : SharedNode} {p : PoolPoint} {d : Step}

theorem owes_updating (block : Block) (txs : List TX) :
    (updating block txs).owes env = txs.flatMap TX.transfer := by
  cases txs with
  | nil => rfl
  | cons tx txs => rfl

/-- What a step enters in the book it no longer owes. -/
theorem owes_act (acts : p.act env σ = some d) (settles : p.Settles env σ) :
    p.owes env = p.posts env ++ (d.next.elim [] (owes env)) := by
  -- a call that is stopped would leave what it owes undone
  have stopped : d.next = none → p.owes env = [] := settles d acts
  cases p with
  | insert tx =>
    cases acts
    rfl
  | parse p =>
    simp only [act] at acts
    split at acts <;> cases acts
    next block parsed =>
      simp only [owes, posts, parsed, Option.elim_some]
      exact (owes_updating ..).symm
    next unparsed => exact stopped rfl
  | getFrom block tx txs =>
    simp only [act] at acts
    split at acts <;> cases acts
    · rfl
    · exact stopped rfl
  | getTo block tx txs fromBalance =>
    simp only [act] at acts
    split at acts <;> cases acts
    · rfl
    · exact stopped rfl
  | putFrom block tx txs fromBalance toBalance =>
    simp only [act] at acts
    split at acts <;> cases acts
    next read =>
      simp only [posts, read, Option.isSome_some, if_true]
      rfl
    next => exact absurd (stopped rfl) (List.cons_ne_nil _ _)
  | putTo block tx txs toBalance =>
    simp only [act] at acts
    split at acts <;> cases acts
    next read =>
      simp only [posts, read, Option.isSome_some, if_true, Option.elim_some, owes_updating]
      rfl
    next => exact absurd (stopped rfl) (List.cons_ne_nil _ _)
  | pushHash block =>
    cases acts
    rfl
  | removeTxFromPool block =>
    cases acts
    rfl
  | writeBlock block =>
    cases acts
    rfl

/-- The balance of an account after a put, in terms of what the put had read. -/
theorem balance_put (env : Env) (s : Store) (a b : String) (value d : Amount) :
    balance env.amounts (s.insert a (env.amounts.toString (value + d))) b =
      if b = a then some (value + d) else balance env.amounts s b := by
  unfold balance
  by_cases here : b = a
  · rw [if_pos here, here, AList.lookup_insert]
    exact env.amounts.lossless _
  · rw [if_neg here, AList.lookup_insert_ne here]

/-- A put adds its entry to the balance exactly when it finds what it has read. -/
theorem put_posts_iff (env : Env) (s : Store) (a : String) (value d : Amount) :
    (∀ b, balance env.amounts (s.insert a (env.amounts.toString (value + d))) b =
        (balance env.amounts s b).map (· + Ledger.moved [(a, d)] b)) ↔
      balance env.amounts s a = some value := by
  simp only [balance_put]
  constructor
  · intro exactly
    have here := exactly a
    rw [if_pos rfl, Ledger.moved_cons, if_pos rfl, Ledger.moved_nil, add_zero] at here
    obtain ⟨before, read, same⟩ := Option.map_eq_some_iff.mp here.symm
    rw [read, add_right_cancel same]
  · intro read b
    rw [Ledger.moved_cons, Ledger.moved_nil, add_zero]
    by_cases here : b = a
    · rw [if_pos here, here, read, if_pos rfl]
      rfl
    · rw [if_neg here, if_neg fun same => here same.symm]
      simp

/-- A step changes the balances by its entry exactly when it is fresh. -/
theorem act_posts_iff (acts : p.act env σ = some d) :
    (∀ a, balance env.amounts d.shared.node.balances a =
        (balance env.amounts σ.node.balances a).map (· + Ledger.moved (p.posts env) a)) ↔
      p.Fresh env σ.node.balances := by
  -- a step that writes nothing enters nothing
  have nothing : ∀ {s : Store}, s = σ.node.balances →
      ∀ a, balance env.amounts s a =
        (balance env.amounts σ.node.balances a).map (· + Ledger.moved [] a) := by
    rintro s rfl a
    simp
  cases p with
  | putFrom block tx txs fromBalance toBalance =>
    simp only [act] at acts
    split at acts <;> cases acts
    next value read =>
      simp only [posts, Fresh, read, Option.isSome_some, if_true, Option.mem_some_iff,
        forall_eq']
      have put := put_posts_iff env σ.node.balances tx.fromAddr value (-tx.value)
      rw [← sub_eq_add_neg] at put
      exact put
    next unread =>
      simp only [posts, Fresh, unread, Option.isSome_none, Bool.false_eq_true, if_false]
      exact iff_of_true (nothing (raise_balances ..)) (by simp)
  | putTo block tx txs toBalance =>
    simp only [act] at acts
    split at acts <;> cases acts
    next value read =>
      simp only [posts, Fresh, read, Option.isSome_some, if_true, Option.mem_some_iff,
        forall_eq']
      exact put_posts_iff env σ.node.balances tx.toAddr value tx.value
    next unread =>
      simp only [posts, Fresh, unread, Option.isSome_none, Bool.false_eq_true, if_false]
      exact iff_of_true (nothing (raise_balances ..)) (by simp)
  | insert tx =>
    cases acts
    exact iff_of_true (nothing rfl) trivial
  | parse p =>
    simp only [act] at acts
    split at acts <;> cases acts
    · exact iff_of_true (nothing rfl) trivial
    · exact iff_of_true (nothing (raise_balances ..)) trivial
  | getFrom block tx txs =>
    simp only [act] at acts
    split at acts <;> cases acts
    · exact iff_of_true (nothing rfl) trivial
    · exact iff_of_true (nothing (raise_balances ..)) trivial
  | getTo block tx txs fromBalance =>
    simp only [act] at acts
    split at acts <;> cases acts
    · exact iff_of_true (nothing rfl) trivial
    · exact iff_of_true (nothing (raise_balances ..)) trivial
  | pushHash block =>
    cases acts
    exact iff_of_true (nothing rfl) trivial
  | removeTxFromPool block =>
    cases acts
    exact iff_of_true (nothing rfl) trivial
  | writeBlock block =>
    cases acts
    exact iff_of_true (nothing rfl) trivial

end PoolPoint

/-! ### The book -/

namespace NodeProcess

/-- The process, and beside it the entries that its puts have made. -/
structure Booked where
  process : NodeProcess
  book : List (String × Amount)

def Label.posts (env : Env) (st : NodeProcess) : Label → List (String × Amount)
  | .call (.advance t) => (st.calls.threads t).elim [] (PoolPoint.posts env)
  | .call (.enter ..) | .run _ => []

def bookStep (env : Env) (b : Booked) (a : Label) : Option Booked :=
  (step env b.process a).map fun process => ⟨process, b.book ++ a.posts env b.process⟩

def opened (node : ProposingNode) : Booked := ⟨start node, []⟩

/-- The balances are those of the beginning with what is in the book. -/
def Exact (env : Env) (node : ProposingNode) (b : Booked) : Prop :=
  ∀ a, balance env.amounts b.process.shared.node.balances a =
    (balance env.amounts node.balances a).map (· + Ledger.moved b.book a)

/-- A put finds the balance that it was computed from. -/
def Fresh (env : Env) (b : Booked) : Label → Prop
  | .call (.advance t) => ∀ p ∈ b.process.calls.threads t,
      p.Fresh env b.process.shared.node.balances
  | .call (.enter ..) | .run _ => True

instance (env : Env) (b : Booked) : ∀ a, Decidable (Fresh env b a)
  | .call (.advance t) => inferInstanceAs (Decidable
      (∀ p ∈ b.process.calls.threads t, p.Fresh env b.process.shared.node.balances))
  | .call (.enter ..) | .run _ => inferInstanceAs (Decidable True)

/-- Calls come in on the threads of the server, and no call is stopped by a failed assertion
or an exception before it has made all its puts. -/
def Unstopped (env : Env) (workers : Nat) (b : Booked) : Label → Prop
  | .call (.enter t _) => t < workers
  | .call (.advance t) => ∀ p ∈ b.process.calls.threads t, p.Settles env b.process.shared
  | .run _ => True

instance (env : Env) (workers : Nat) (b : Booked) : ∀ a, Decidable (Unstopped env workers b a)
  | .call (.enter t _) => inferInstanceAs (Decidable (t < workers))
  | .call (.advance t) => inferInstanceAs (Decidable
      (∀ p ∈ b.process.calls.threads t, p.Settles env b.process.shared))
  | .run _ => inferInstanceAs (Decidable True)

variable {env : Env} {node : ProposingNode} {b b' : Booked} {a : Label} {run : List Label}

theorem bookStep_cases (taken : bookStep env b a = some b') :
    step env b.process a = some b'.process ∧ b'.book = b.book ++ a.posts env b.process := by
  obtain ⟨process, moved, rfl⟩ := Option.map_eq_some_iff.mp taken
  exact ⟨moved, rfl⟩

/-- A step of a call, with its point. -/
theorem advance_cases {st st' : NodeProcess} {t : Nat}
    (taken : step env st (.call (.advance t)) = some st') :
    ∃ p d, st.calls.threads t = some p ∧ p.act env st.shared = some d ∧
      st'.shared = d.shared ∧ st'.calls.threads = Function.update st.calls.threads t d.next := by
  unfold step at taken
  split at taken
  · cases taken
  · obtain ⟨calls, moved, rfl⟩ := Option.map_eq_some_iff.mp taken
    obtain ⟨p, d, owner, here, acts, -, rfl⟩ := step_advance.mp moved
    exact ⟨p, d, here, acts, rfl, rfl⟩

theorem enter_cases {st st' : NodeProcess} {t : Nat} {call : PoolCall}
    (taken : step env st (.call (.enter t call)) = some st') :
    st.calls.threads t = none ∧ st'.shared = st.shared ∧
      st'.calls.threads = Function.update st.calls.threads t (PoolPoint.enter env call) := by
  unfold step at taken
  split at taken
  · cases taken
  · obtain ⟨calls, moved, rfl⟩ := Option.map_eq_some_iff.mp taken
    obtain ⟨free, rfl⟩ := step_enter moved
    exact ⟨free, rfl, rfl⟩

theorem exact_step_iff (exactly : Exact env node b) (taken : bookStep env b a = some b') :
    Exact env node b' ↔ Fresh env b a := by
  obtain ⟨moved, book⟩ := bookStep_cases taken
  -- with nothing written and nothing entered the book is still right
  have still : a.posts env b.process = [] →
      b'.process.shared.node.balances = b.process.shared.node.balances → Exact env node b' := by
    intro nothing same account
    rw [same, book, nothing, List.append_nil]
    exact exactly account
  cases a with
  | run draw =>
    refine iff_of_true (still rfl ?_) trivial
    rw [(step_run moved).2]
    exact runStep_balances env draw b.process
  | call move =>
    cases move with
    | enter t call =>
      refine iff_of_true (still rfl ?_) trivial
      rw [(enter_cases moved).2.1]
    | advance t =>
      obtain ⟨p, d, here, acts, shared, -⟩ := advance_cases moved
      have posted : b'.book = b.book ++ p.posts env := by
        rw [book, Label.posts, here]
        rfl
      have fresh : Fresh env b (.call (.advance t)) ↔
          p.Fresh env b.process.shared.node.balances := by
        simp only [Fresh, here, Option.mem_some_iff, forall_eq']
      rw [fresh, ← PoolPoint.act_posts_iff acts]
      refine forall_congr' fun account => ?_
      rw [shared, posted, exactly account, Option.map_map]
      simp only [Function.comp_def, Ledger.moved_append, add_assoc]

/-! ### When all calls have returned -/

/-- The entries that a thread still has to make. -/
def owed (env : Env) (p : Option PoolPoint) : List (String × Amount) :=
  p.elim [] (PoolPoint.owes env)

/-- The entries of the blocks that are committed. -/
def transfers (env : Env) (ps : List String) : List (String × Amount) :=
  ps.flatMap fun p => PoolPoint.owes env (.parse p)

/-- What is in the book and what is still owed is together what the blocks transfer. -/
structure Complete (env : Env) (workers : Nat) (b : Booked) (ps : List String) : Prop where
  below : Below workers b.process.calls
  whole : ∀ a, Ledger.moved b.book a +
    ∑ t ∈ Finset.range workers, Ledger.moved (owed env (b.process.calls.threads t)) a =
      Ledger.moved (transfers env ps) a

variable (env) in
/-- A thread that goes on changes its own part of the sum. -/
theorem sum_owed_update {workers t : Nat} (works : t < workers)
    (threads : Nat → Option PoolPoint) (next : Option PoolPoint) (a : String) :
    ∑ u ∈ Finset.range workers, Ledger.moved (owed env (Function.update threads t next u)) a +
        Ledger.moved (owed env (threads t)) a =
      ∑ u ∈ Finset.range workers, Ledger.moved (owed env (threads u)) a +
        Ledger.moved (owed env next) a := by
  have member : t ∈ Finset.range workers := Finset.mem_range.mpr works
  have others : ∑ u ∈ (Finset.range workers).erase t,
      Ledger.moved (owed env (Function.update threads t next u)) a =
        ∑ u ∈ (Finset.range workers).erase t, Ledger.moved (owed env (threads u)) a := by
    refine Finset.sum_congr rfl fun u listed => ?_
    rw [Function.update_of_ne (Finset.ne_of_mem_erase listed)]
  rw [← Finset.add_sum_erase _ _ member, ← Finset.add_sum_erase _ _ member, others,
    Function.update_self]
  abel

theorem complete_step {workers : Nat} {ps : List String} (complete : Complete env workers b ps)
    (unstopped : Unstopped env workers b a) (taken : bookStep env b a = some b') :
    Complete env workers b' (ps ++ a.proposal.toList) := by
  obtain ⟨moved, book⟩ := bookStep_cases taken
  cases a with
  | run draw =>
    -- the thread of `Run` enters nothing in the book and owes nothing
    obtain ⟨-, process⟩ := step_run moved
    obtain ⟨σ, calls⟩ := runStep_threads env draw b.process
    rw [← process] at calls
    have nothing : ps ++ (Label.run draw).proposal.toList = ps := List.append_nil ps
    refine ⟨by rw [calls]; exact complete.below, fun account => ?_⟩
    rw [nothing, book, calls, Label.posts, List.append_nil]
    exact complete.whole account
  | call move =>
    cases move with
    | enter t call =>
      obtain ⟨free, -, threads⟩ := enter_cases moved
      -- with the call its transfers come in, and the thread owes them
      have entered : ∀ account,
          Ledger.moved (transfers env (ps ++ (Label.call (.enter t call)).proposal.toList))
              account =
            Ledger.moved (transfers env ps) account +
              Ledger.moved (owed env (PoolPoint.enter env call)) account := by
        intro account
        unfold transfers
        rw [List.flatMap_append, Ledger.moved_append]
        congr 1
        cases call with
        | commitProposal p => exact congrArg (Ledger.moved · account) (List.append_nil _)
        | addTransx tx =>
          unfold PoolPoint.enter
          dsimp only
          split <;> rfl
      refine ⟨fun u above => ?_, fun account => ?_⟩
      · rw [threads, Function.update_of_ne (Nat.lt_of_lt_of_le unstopped above).ne']
        exact complete.below u above
      · have sum := sum_owed_update env unstopped b.process.calls.threads
          (PoolPoint.enter env call) account
        have idle : Ledger.moved (owed env (b.process.calls.threads t)) account = 0 := by
          rw [free]
          rfl
        rw [idle, add_zero] at sum
        rw [entered, ← complete.whole account, book, Label.posts, List.append_nil, threads, sum]
        abel
    | advance t =>
      obtain ⟨p, d, here, acts, -, threads⟩ := advance_cases moved
      have works := complete.below.lt here
      have nothing : ps ++ (Label.call (.advance t)).proposal.toList = ps := List.append_nil ps
      -- what the step enters in the book the thread no longer owes
      have left := PoolPoint.owes_act acts (unstopped p here)
      refine ⟨fun u above => ?_, fun account => ?_⟩
      · rw [threads, Function.update_of_ne (Nat.lt_of_lt_of_le works above).ne']
        exact complete.below u above
      · have sum := sum_owed_update env works b.process.calls.threads d.next account
        have mine : Ledger.moved (owed env (b.process.calls.threads t)) account =
            Ledger.moved (p.posts env) account + Ledger.moved (owed env d.next) account := by
          rw [here, ← Ledger.moved_append]
          exact congrArg (Ledger.moved · account) left
        have posted : Label.posts env b.process (.call (.advance t)) = p.posts env := by
          rw [Label.posts, here]
          rfl
        rw [mine, add_left_comm, ← add_assoc] at sum
        rw [nothing, ← complete.whole account, book, posted, Ledger.moved_append, threads,
          ← add_right_cancel sum]
        abel

theorem complete_run {workers : Nat} (ran : exec (bookStep env) (opened node) run = some b)
    (unstopped : Meets (bookStep env) (Unstopped env workers) (opened node) run) :
    Complete env workers b (proposals run) := by
  induction run using List.reverseRecOn generalizing b with
  | nil =>
    cases ran
    exact ⟨fun _ _ => rfl, fun account => by simp [opened, start, idle, owed, proposals, transfers]⟩
  | append_singleton run a ih =>
    obtain ⟨b₁, before, taken⟩ := exec_concat.mp ran
    obtain ⟨earlier, last⟩ := (meets_append ..).mp unstopped
    rw [proposals_concat]
    exact complete_step (ih before earlier) (last b₁ before).1 taken

/-- In every run of the process the book tells the balances all along exactly when every put
finds the balance that it was computed from. When that is so, no call has been stopped and
all have returned, the balances are those of the beginning with all transactions of the
blocks that were committed, whatever the order of the steps. -/
theorem updates_kept_iff (ran : exec (bookStep env) (opened node) run = some b) :
    (Always (bookStep env) (Exact env node) (opened node) run ↔
        Meets (bookStep env) (Fresh env) (opened node) run) ∧
      (Meets (bookStep env) (Fresh env) (opened node) run → ∀ workers,
        Meets (bookStep env) (Unstopped env workers) (opened node) run →
        (∀ t, b.process.calls.threads t = none) →
        ∀ a, balance env.amounts b.process.shared.node.balances a =
          (balance env.amounts node.balances a).map
            (· + Ledger.moved (transfers env (proposals run)) a)) := by
  have start : Exact env node (opened node) := by
    intro a
    simp [opened, NodeProcess.start, shared, idle]
  have always_iff : Always (bookStep env) (Exact env node) (opened node) run ↔
      Meets (bookStep env) (Fresh env) (opened node) run := by
    have free : Meets (bookStep env) (fun _ _ => True) (opened node) run := meets_true _ run
    exact always_iff_meets start
      (fun _ _ _ _ exactly _ taken => exact_step_iff exactly taken) free ran
  refine ⟨always_iff, fun fresh workers unstopped returned a => ?_⟩
  have exactly : Exact env node b := (always_iff.mpr fresh).last ran
  -- nobody owes anything, so the book holds all transfers
  have whole := (complete_run ran unstopped).whole a
  have nothing : ∑ t ∈ Finset.range workers,
      Ledger.moved (owed env (b.process.calls.threads t)) a = 0 := by
    refine Finset.sum_eq_zero fun t _ => ?_
    rw [returned t]
    rfl
  rw [nothing, add_zero] at whole
  rw [exactly a, whole]

/-- The second block is committed between the puts of the first and the write of its hash. -/
def relay (env : Env) (first second : Block) : List Label :=
  [.call (.enter 0 (.commitProposal (env.json.dump first.toJson)))] ++
    List.replicate 5 (.call (.advance 0)) ++
    [.call (.enter 1 (.commitProposal (env.json.dump second.toJson)))] ++
    List.replicate 8 (.call (.advance 1)) ++ List.replicate 3 (.call (.advance 0))

/-- Two blocks that debit the same account. With the second between the puts of the first and
the end of its call nothing is lost, and with the second before the puts the book is wrong. -/
theorem updates_kept_relay :
    let first := blockOf 1 "a" "04b"
    let second := blockOf 2 "a" "04b"
    (∃ b, exec (bookStep sharedEnv) (opened busyNode) (relay sharedEnv first second) = some b ∧
      Always (bookStep sharedEnv) (Exact sharedEnv busyNode) (opened busyNode)
        (relay sharedEnv first second) ∧
      balance sharedEnv.amounts b.process.shared.node.balances "04a" = some 0) ∧
    ¬Always (bookStep sharedEnv) (Exact sharedEnv busyNode) (opened busyNode)
      (nested sharedEnv first second) := by
  intro first second
  obtain ⟨b, ran, idle⟩ := exec_of_run (bookStep sharedEnv) (opened busyNode)
    (relay sharedEnv first second)
    (p := fun b => (List.range 8).all fun t => (b.process.calls.threads t).isNone)
    (by decide +kernel)
  have fresh : Meets (bookStep sharedEnv) (Fresh sharedEnv) (opened busyNode)
      (relay sharedEnv first second) := by decide +kernel
  have unstopped : Meets (bookStep sharedEnv) (Unstopped sharedEnv 8) (opened busyNode)
      (relay sharedEnv first second) := by decide +kernel
  have returned : ∀ t, b.process.calls.threads t = none := by
    intro t
    by_cases served : t < 8
    · exact Option.isNone_iff_eq_none.mp
        (List.all_eq_true.mp idle t (List.mem_range.mpr served))
    · exact (complete_run ran unstopped).below t (not_lt.mp served)
  obtain ⟨kept, whole⟩ := updates_kept_iff ran
  refine ⟨⟨b, ran, kept.mpr fresh, ?_⟩, fun always => ?_⟩
  · rw [whole fresh 8 unstopped returned]
    decide +kernel
  · obtain ⟨b', ran', -⟩ := exec_of_run (bookStep sharedEnv) (opened busyNode)
      (nested sharedEnv first second) (p := fun _ => true) (by decide +kernel)
    have stale : ¬Meets (bookStep sharedEnv) (Fresh sharedEnv) (opened busyNode)
        (nested sharedEnv first second) := by decide +kernel
    exact stale ((updates_kept_iff ran').1.mp always)

end NodeProcess

end Ruccoin.Coin
