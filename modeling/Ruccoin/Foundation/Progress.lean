import Mathlib.Algebra.Order.BigOperators.Group.Finset
import Mathlib.Data.Prod.Lex
import Ruccoin.Foundation.Threads

/-!
# Threads that make progress

A thread that cannot go on wants a lock that another thread holds. When all threads take
their locks in one order, the one furthest along in it can go on. When besides every step
uses up some of a thread's work, the threads can be run until none is left but those that
wait for something to happen, and hold no lock while they do.
-/

namespace Threads

variable {L S P A : Type*} [DecidableEq L] {program : Program L S P A}
  {holds : P → L → Prop} {st st' : State L S P}

/-! ### Locks and their owners -/

/-- The owner of a lock is at a point where it holds it. -/
def Held (holds : P → L → Prop) (st : State L S P) : Prop :=
  ∀ l t, st.owner l = some t → ∃ p, st.threads t = some p ∧ holds p l

/-- A lock that is owned after an operation is held by the thread that went on, or was
another's before. -/
theorem LockOp.owner_cases {op : LockOp L} {owner owner' : L → Option Nat} {t u : Nat}
    {before after : L → Prop} {l : L} (performed : op.perform owner t = some owner')
    (moves : op.Moves before after) (mine : owner l = some t → before l)
    (owned : owner' l = some u) : (u = t ∧ after l) ∨ (u ≠ t ∧ owner l = some u) := by
  have old : (before l → after l) → owner l = some u →
      (u = t ∧ after l) ∨ (u ≠ t ∧ owner l = some u) := by
    intro kept was
    by_cases same : u = t
    · subst same
      exact Or.inl ⟨rfl, kept (mine was)⟩
    · exact Or.inr ⟨same, was⟩
  cases op with
  | keep =>
    obtain rfl := Option.some.inj performed
    exact old (moves l).mpr owned
  | acquire k =>
    obtain ⟨-, rfl⟩ := perform_acquire performed
    by_cases same : l = k
    · rw [same, Function.update_self] at owned
      exact Or.inl ⟨(Option.some.inj owned).symm, (moves.2 l).mpr (Or.inr same)⟩
    · rw [Function.update_of_ne same] at owned
      exact old (fun held => (moves.2 l).mpr (Or.inl held)) owned
  | release k =>
    obtain rfl := Option.some.inj performed
    by_cases same : l = k
    · -- given back
      rw [same, Function.update_self] at owned
      cases owned
    · rw [Function.update_of_ne same] at owned
      exact old (fun held => (moves.2 l).mpr ⟨held, same⟩) owned

theorem held_step (disciplined : Disciplined program holds) {m : Move A}
    (held : Held holds st) (taken : step program st m = some st') : Held holds st' := by
  cases m with
  | enter t a =>
    obtain ⟨free, rfl⟩ := step_enter taken
    intro l u owned
    obtain ⟨p, there, holding⟩ := held l u owned
    have other : u ≠ t := by
      rintro rfl
      rw [free] at there
      cases there
    exact ⟨p, (Function.update_of_ne other _ _).trans there, holding⟩
  | advance t =>
    obtain ⟨p, d, owner, here, acts, locks, rfl⟩ := step_advance.mp taken
    intro l u owned
    have mine : st.owner l = some t → holds p l := by
      intro owned
      obtain ⟨q, there, holding⟩ := held l t owned
      rw [here] at there
      exact Option.some.inj there ▸ holding
    rcases LockOp.owner_cases locks (disciplined.act acts) mine owned with
      ⟨rfl, n, next, holding⟩ | ⟨other, was⟩
    · exact ⟨n, (Function.update_self ..).trans next, holding⟩
    · obtain ⟨q, there, holding⟩ := held l u was
      exact ⟨q, (Function.update_of_ne other _ _).trans there, holding⟩

theorem held_reach (disciplined : Disciplined program holds)
    {guard : State L S P → Move A → Prop} {s : S}
    (reached : Transition.Reach (step program) guard (idle s) st) : Held holds st := by
  apply reached.invariant
  · rintro l t ⟨⟩
  · intro st m st' _ held _ taken
    exact held_step disciplined held taken

/-! ### Somebody can move -/

/-- The locks that a thread holds come before the one that it takes. -/
def Ordered (program : Program L S P A) (holds : P → L → Prop) (before : L → L → Prop) : Prop :=
  ∀ {s p d k}, program.act s p = some d → d.lock = .acquire k → ∀ l, holds p l → before l k

/-- A step that takes no lock, or a free one, can be taken. -/
theorem step_of_free {t : Nat} {p : P} {d : Action L S P}
    (here : st.threads t = some p) (acts : program.act st.shared p = some d)
    (free : ∀ k, d.lock = .acquire k → st.owner k = none) :
    ∃ st', step program st (.advance t) = some st' := by
  obtain ⟨owner, performed⟩ : ∃ owner, d.lock.perform st.owner t = some owner := by
    cases op : d.lock with
    | keep => exact ⟨_, rfl⟩
    | release k => exact ⟨_, rfl⟩
    | acquire k => exact ⟨_, if_pos (free k op)⟩
  exact ⟨_, step_advance.mpr ⟨p, d, owner, here, acts, performed, rfl⟩⟩

/-- A thread can move, or one that holds a lock can: of the threads that wait for one another
the last wants nothing that is taken. -/
theorem exists_mover {before : L → L → Prop} (founded : WellFounded (flip before))
    (ordered : Ordered program holds before)
    (defined : ∀ p, ∃ d, program.act st.shared p = some d) (held : Held holds st) {t : Nat}
    {p : P} (here : st.threads t = some p) :
    ∃ u q, st.threads u = some q ∧ (u = t ∨ ∃ l, holds q l) ∧
      ∃ st', step program st (.advance u) = some st' := by
  -- whoever holds a lock is followed up to somebody who can move
  have holder : ∀ l u q, st.threads u = some q → holds q l →
      ∃ v r, st.threads v = some r ∧ (∃ l, holds r l) ∧
        ∃ st', step program st (.advance v) = some st' := by
    intro l
    induction l using founded.induction with
    | _ l ih =>
      intro u q there holding
      obtain ⟨d, acts⟩ := defined q
      by_cases free : ∀ k, d.lock = .acquire k → st.owner k = none
      · exact ⟨u, q, there, ⟨l, holding⟩, step_of_free there acts free⟩
      · push Not at free
        obtain ⟨k, wanted, taken⟩ := free
        obtain ⟨v, owned⟩ := Option.ne_none_iff_exists'.mp taken
        obtain ⟨r, further, holding'⟩ := held k v owned
        exact ih k (ordered acts wanted l holding) v r further holding'
  obtain ⟨d, acts⟩ := defined p
  by_cases free : ∀ k, d.lock = .acquire k → st.owner k = none
  · exact ⟨t, p, here, Or.inl rfl, step_of_free here acts free⟩
  · push Not at free
    obtain ⟨k, wanted, taken⟩ := free
    obtain ⟨v, owned⟩ := Option.ne_none_iff_exists'.mp taken
    obtain ⟨r, further, holding⟩ := held k v owned
    obtain ⟨w, q, there, holds', moves⟩ := holder k v r further holding
    exact ⟨w, q, there, Or.inr holds', moves⟩

/-! ### Running to rest -/

/-- Threads that are running go on, and no call comes in. -/
def Advances (_ : State L S P) : Move A → Prop
  | .enter .. => False
  | .advance _ => True

/-- Calls come in on the first `n` threads only. -/
def Workers (n : Nat) (_ : State L S P) : Move A → Prop
  | .enter t _ => t < n
  | .advance .. => True

instance (n : Nat) (st : State L S P) : ∀ m : Move A, Decidable (Workers n st m)
  | .enter t _ => inferInstanceAs (Decidable (t < n))
  | .advance .. => inferInstanceAs (Decidable True)

/-- The threads from `n` on are not running. -/
def Below (n : Nat) (st : State L S P) : Prop := ∀ t, n ≤ t → st.threads t = none

omit [DecidableEq L] in
theorem Below.lt {n t : Nat} {p : P} (below : Below n st) (here : st.threads t = some p) :
    t < n := by
  by_contra above
  rw [below t (by omega)] at here
  cases here

theorem below_step {n : Nat} {m : Move A} (below : Below n st) (works : Workers n st m)
    (taken : step program st m = some st') : Below n st' := by
  cases m with
  | enter t a =>
    obtain ⟨-, rfl⟩ := step_enter taken
    intro u above
    have other : u ≠ t := (Nat.lt_of_lt_of_le works above).ne'
    exact (Function.update_of_ne other _ _).trans (below u above)
  | advance t =>
    obtain ⟨p, d, owner, here, -, -, rfl⟩ := step_advance.mp taken
    intro u above
    have other : u ≠ t := (Nat.lt_of_lt_of_le (below.lt here) above).ne'
    exact (Function.update_of_ne other _ _).trans (below u above)

theorem below_advance {n t : Nat} (below : Below n st)
    (taken : step program st (.advance t) = some st') : Below n st' :=
  below_step (m := .advance t) below trivial taken

theorem below_workers {n : Nat} {s : S}
    (reached : Transition.Reach (step program) (Workers n) (idle s) st) : Below n st := by
  apply reached.invariant
  · exact fun _ _ => rfl
  · exact fun _ _ _ _ below works taken => below_step below works taken

/-- Only finitely many threads have been started. -/
theorem below_reach {guard : State L S P → Move A → Prop} {s : S}
    (reached : Transition.Reach (step program) guard (idle s) st) : ∃ n, Below n st := by
  apply reached.invariant (P := fun st => ∃ n, Below n st)
  · exact ⟨0, fun _ _ => rfl⟩
  · rintro st m st' - ⟨n, below⟩ - taken
    cases m with
    | enter t a =>
      have wider : Below (max n (t + 1)) st := fun u above => below u (by omega)
      have works : Workers (max n (t + 1)) st (Move.enter t a : Move A) :=
        Nat.lt_of_succ_le (Nat.le_max_right ..)
      exact ⟨_, below_step wider works taken⟩
    | advance t => exact ⟨n, below_advance below taken⟩

/-- What is left for a thread, nothing when it has returned. -/
def left (effort : P → Nat) (next : Option P) : Nat := next.elim 0 effort

@[simp] theorem left_none (effort : P → Nat) : left effort none = 0 := rfl

@[simp] theorem left_some (effort : P → Nat) (p : P) : left effort (some p) = effort p := rfl

/-- What is left for the first `n` threads. -/
def totalLeft (effort : P → Nat) (n : Nat) (threads : Nat → Option P) : Nat :=
  ∑ t ∈ Finset.range n, left effort (threads t)

omit [DecidableEq L] in
/-- The part of one thread, taken out. -/
theorem totalLeft_split (effort : P → Nat) {n t : Nat} (threads : Nat → Option P) (bound : t < n) :
    totalLeft effort n threads =
      left effort (threads t) + totalLeft effort n (Function.update threads t none) := by
  have member : t ∈ Finset.range n := Finset.mem_range.mpr bound
  have others : ∑ u ∈ (Finset.range n).erase t, left effort (Function.update threads t none u) =
      ∑ u ∈ (Finset.range n).erase t, left effort (threads u) := by
    apply Finset.sum_congr rfl
    intro u other
    rw [Function.update_of_ne (Finset.ne_of_mem_erase other)]
  unfold totalLeft
  rw [← Finset.add_sum_erase _ _ member, ← Finset.add_sum_erase _ _ member, others,
    Function.update_self, left_none, Nat.zero_add]

omit [DecidableEq L] in
/-- Where one thread has gone on. -/
theorem totalLeft_update (effort : P → Nat) {n t : Nat} (threads : Nat → Option P)
    (next : Option P) (bound : t < n) :
    totalLeft effort n (Function.update threads t next) =
      left effort next + totalLeft effort n (Function.update threads t none) := by
  rw [totalLeft_split effort _ bound, Function.update_self, Function.update_idem]

omit [DecidableEq L] in
theorem totalLeft_mono {effort effort' : P → Nat} (le : ∀ q, effort' q ≤ effort q) (n : Nat)
    (threads : Nat → Option P) : totalLeft effort' n threads ≤ totalLeft effort n threads := by
  apply Finset.sum_le_sum
  intro u _
  cases threads u with
  | none => exact le_rfl
  | some q => exact le q

/-- How the threads of a program come to an end: what work is left at each point, and how far
a thread that waits is from being parked. A step of a thread that is not parked does some of
its work, or brings it closer to being parked and none away from it. -/
structure Drains (program : Program L S P A) (holds : P → L → Prop) (good : S → Prop)
    (parked : S → P → Prop) (work : P → Nat) (wait : S → P → Nat) : Prop where
  defined : ∀ {s}, good s → ∀ p, ∃ d, program.act s p = some d
  kept : ∀ {s p d}, good s → program.act s p = some d → good d.shared
  unparked : ∀ {s p l}, holds p l → ¬parked s p
  less : ∀ {s p d}, program.act s p = some d → ¬parked s p →
    left work d.next < work p ∨ (left work d.next = work p ∧
      left (wait d.shared) d.next < wait s p ∧ ∀ q, wait d.shared q ≤ wait s q)

/-- A step of a thread that is not parked. -/
def Busy (program : Program L S P A) (parked : S → P → Prop) (st st' : State L S P) : Prop :=
  ∃ t p, st.threads t = some p ∧ ¬parked st.shared p ∧
    step program st (.advance t) = some st'

/-- The work that is left, and then the way to being parked. -/
def leftOver (work : P → Nat) (wait : S → P → Nat) (n : Nat) (st : State L S P) : Nat × Nat :=
  (totalLeft work n st.threads, totalLeft (wait st.shared) n st.threads)

namespace Drains

variable {good : S → Prop} {parked : S → P → Prop} {work : P → Nat} {wait : S → P → Nat}
  (drains : Drains program holds good parked work wait)

include drains

theorem shrinks {n : Nat} (below : Below n st) (busy : Busy program parked st st') :
    Prod.Lex (· < ·) (· < ·) (leftOver work wait n st') (leftOver work wait n st) := by
  obtain ⟨t, p, here, unparked, taken⟩ := busy
  have bound := below.lt here
  obtain ⟨p', d, owner, here', acts, -, rfl⟩ := step_advance.mp taken
  rw [here] at here'
  obtain rfl := Option.some.inj here'
  rw [Prod.lex_def]
  unfold leftOver
  dsimp only
  rw [totalLeft_update work _ _ bound, totalLeft_update (wait d.shared) _ _ bound,
    totalLeft_split work st.threads bound, totalLeft_split (wait st.shared) st.threads bound, here,
    left_some, left_some]
  rcases drains.less acts unparked with less | ⟨same, closer, others⟩
  · exact Or.inl (Nat.add_lt_add_right less _)
  · -- the other threads are no further from being parked than before
    have nearer := totalLeft_mono others n (Function.update st.threads t none)
    exact Or.inr ⟨by rw [same], Nat.add_lt_add_of_lt_of_le closer nearer⟩

/-- Only so many steps can be taken before all threads have returned or are parked. -/
theorem terminates {n : Nat} (below : Below n st) :
    Acc (flip (Busy program parked)) st := by
  induction order : leftOver work wait n st using
    (WellFounded.prod_lex Nat.lt_wfRel.wf Nat.lt_wfRel.wf).induction generalizing st with
  | _ size ih =>
    subst order
    refine ⟨st, fun st' busy => ?_⟩
    have below' : Below n st' := by
      obtain ⟨t, p, -, -, taken⟩ := busy
      exact below_advance below taken
    exact ih _ (drains.shrinks below busy) below' rfl

/-- No run goes on for ever. -/
theorem not_endless {n : Nat} (below : Below n st) :
    ¬∃ run : Nat → State L S P, run 0 = st ∧ ∀ k, Busy program parked (run k) (run (k + 1)) := by
  induction drains.terminates below with
  | intro st _ ih =>
    rintro ⟨run, rfl, busy⟩
    have below' : Below n (run 1) := by
      obtain ⟨t, p, -, -, taken⟩ := busy 0
      exact below_advance below taken
    exact ih (run 1) (busy 0) below' ⟨fun k => run (k + 1), rfl, fun k => busy (k + 1)⟩

/-- The threads can be run until all that are left are parked, whatever the choice. -/
theorem run (disciplined : Disciplined program holds) {before : L → L → Prop}
    (founded : WellFounded (flip before)) (ordered : Ordered program holds before) {n : Nat}
    (below : Below n st) (held : Held holds st) (fine : good st.shared) :
    ∃ st', Transition.Reach (step program) (Advances) st st' ∧ Held holds st' ∧
      ∀ t p, st'.threads t = some p → parked st'.shared p := by
  induction drains.terminates below with
  | intro st _ ih =>
    by_cases rest : ∀ t p, st.threads t = some p → parked st.shared p
    · exact ⟨st, .start, held, rest⟩
    · push Not at rest
      obtain ⟨t, p, here, unparked⟩ := rest
      obtain ⟨u, q, there, who, st₁, taken⟩ :=
        exists_mover founded ordered (drains.defined fine) held here
      have unparked' : ¬parked st.shared q := by
        rcases who with rfl | ⟨l, holding⟩
        · rw [here] at there
          exact Option.some.inj there ▸ unparked
        · exact drains.unparked holding
      have fine₁ : good st₁.shared := by
        obtain ⟨q', d, owner, -, acts, -, rfl⟩ := step_advance.mp taken
        exact drains.kept fine acts
      obtain ⟨st', later, rest⟩ := ih st₁ ⟨u, q, there, unparked', taken⟩
        (below_advance below taken) (held_step disciplined held taken) fine₁
      have first : Transition.Reach (step program) (Advances) st st₁ :=
        .step .start (a := .advance u) trivial taken
      exact ⟨st', first.trans later, rest⟩

end Drains

end Threads
