import Ruccoin.Foundation.Transition
import Mathlib.Logic.Function.Basic
import Mathlib.Logic.Relation

/-!
# Threads and locks

Threads run one program over a shared state and take their steps in any order. A step changes
the shared state and takes or gives back at most one lock; a lock that is taken stops the
threads that want it. A proof outline for such a program asserts something at every point of
it, of the shared state whenever a lock is free, and of any two threads.
-/

namespace Threads

variable {L S P A : Type*}

inductive LockOp (L : Type*) where
  | keep
  | acquire (l : L)
  | release (l : L)

/-- What a thread does in one step, and where it goes; with no next point it has returned. -/
structure Action (L S P : Type*) where
  lock : LockOp L
  shared : S
  next : Option P

/-- Where a call starts, unless it returns at once, and what is done at each point. A call
that is fatal ends the process. -/
structure Program (L S P A : Type*) where
  fatal : A → Bool := fun _ => false
  enter : A → Option P
  act : S → P → Option (Action L S P)

structure State (L S P : Type*) where
  shared : S
  owner : L → Option Nat
  threads : Nat → Option P

inductive Move (A : Type*) where
  | enter (t : Nat) (a : A)
  | advance (t : Nat)

/-- Nothing is running. -/
def idle (s : S) : State L S P := ⟨s, fun _ => none, fun _ => none⟩

section Step

variable [DecidableEq L]

/-- The locks after a thread's operation on them, if it can go on. -/
def LockOp.perform (owner : L → Option Nat) (t : Nat) : LockOp L → Option (L → Option Nat)
  | .keep => some owner
  | .acquire l => if owner l = none then some (Function.update owner l (some t)) else none
  | .release l => some (Function.update owner l none)

def step (program : Program L S P A) (st : State L S P) :
    Move A → Option (State L S P)
  | .enter t a => match st.threads t with
    | some _ => none
    | none =>
      if program.fatal a then none
      else some { st with threads := Function.update st.threads t (program.enter a) }
  | .advance t =>
    (st.threads t).bind fun p => (program.act st.shared p).bind fun d =>
      (d.lock.perform st.owner t).map fun owner =>
        ⟨d.shared, owner, Function.update st.threads t d.next⟩

variable {program : Program L S P A} {st st' : State L S P} {t : Nat}

theorem step_enter {a : A} (taken : step program st (.enter t a) = some st') :
    st.threads t = none ∧
      st' = { st with threads := Function.update st.threads t (program.enter a) } := by
  simp only [step] at taken
  cases before : st.threads t with
  | some p =>
    -- the thread is busy
    rw [before] at taken
    cases taken
  | none =>
    rw [before] at taken
    exact ⟨rfl, (Option.some.inj (Option.ite_none_left_eq_some.mp taken).2).symm⟩

theorem step_advance :
    step program st (.advance t) = some st' ↔
      ∃ p d owner, st.threads t = some p ∧ program.act st.shared p = some d ∧
        d.lock.perform st.owner t = some owner ∧
        st' = ⟨d.shared, owner, Function.update st.threads t d.next⟩ := by
  simp only [step, Option.bind_eq_some_iff, Option.map_eq_some_iff]
  constructor
  · rintro ⟨p, here, d, acts, owner, locks, rfl⟩
    exact ⟨p, d, owner, here, acts, locks, rfl⟩
  · rintro ⟨p, d, owner, here, acts, locks, rfl⟩
    exact ⟨p, here, d, acts, owner, locks, rfl⟩

end Step

/-! ### Locks -/

/-- The locks held before and after an operation. -/
def LockOp.Moves (before after : L → Prop) : LockOp L → Prop
  | .keep => ∀ l, after l ↔ before l
  | .acquire k => ¬before k ∧ ∀ l, after l ↔ before l ∨ l = k
  | .release k => before k ∧ ∀ l, after l ↔ before l ∧ l ≠ k

/-- The locks held at the point a step leads to. -/
def HeldAt (holds : P → L → Prop) (next : Option P) (l : L) : Prop :=
  ∃ p, next = some p ∧ holds p l

/-- Every point of the program has a fixed set of locks, and the steps take and give back the
locks by which the sets differ. -/
structure Disciplined (program : Program L S P A) (holds : P → L → Prop) : Prop where
  enter : ∀ {a p l}, program.enter a = some p → ¬holds p l
  act : ∀ {s p d}, program.act s p = some d → d.lock.Moves (holds p) (HeldAt holds d.next)

/-- A lock that a thread holds belongs to it. -/
def Owned (holds : P → L → Prop) (st : State L S P) : Prop :=
  ∀ t p l, st.threads t = some p → holds p l → st.owner l = some t

/-- No lock is held by two threads. -/
theorem Owned.exclusive {holds : P → L → Prop} {st : State L S P} (owned : Owned holds st)
    {t u : Nat} {p q : P} (other : t ≠ u) (here : st.threads t = some p)
    (there : st.threads u = some q) {l : L} (held : holds p l) : ¬holds q l := by
  intro both
  have mine := owned t p l here held
  rw [owned u q l there both] at mine
  exact other (Option.some.inj mine).symm

/-- After a step a thread is where it was, or it is the one that moved. -/
theorem thread_cases {st : State L S P} {t u : Nat} {next : Option P} {q : P}
    (here : Function.update st.threads t next u = some q) :
    (u = t ∧ next = some q) ∨ (u ≠ t ∧ st.threads u = some q) := by
  by_cases same : u = t
  · rw [same, Function.update_self] at here
    exact Or.inl ⟨same, here⟩
  · rw [Function.update_of_ne same] at here
    exact Or.inr ⟨same, here⟩

variable [DecidableEq L]

namespace LockOp

variable {op : LockOp L} {owner owner' : L → Option Nat} {t : Nat} {before after : L → Prop}
  {l : L}

theorem perform_acquire {k : L} (performed : (acquire k).perform owner t = some owner') :
    owner k = none ∧ owner' = Function.update owner k (some t) := by
  simp only [perform] at performed
  split at performed
  next free => exact ⟨free, (Option.some.inj performed).symm⟩
  next => cases performed

/-- The locks held afterwards belong to the thread. -/
theorem perform_self (performed : op.perform owner t = some owner')
    (moves : op.Moves before after) (mine : ∀ l, before l → owner l = some t)
    (held : after l) : owner' l = some t := by
  cases op with
  | keep =>
    obtain rfl := Option.some.inj performed
    exact mine l ((moves l).mp held)
  | acquire k =>
    obtain ⟨free, rfl⟩ := perform_acquire performed
    by_cases same : l = k
    · rw [same, Function.update_self]
    · rw [Function.update_of_ne same]
      exact mine l (((moves.2 l).mp held).resolve_right same)
  | release k =>
    obtain rfl := Option.some.inj performed
    obtain ⟨kept, different⟩ := (moves.2 l).mp held
    rw [Function.update_of_ne different]
    exact mine l kept

/-- The locks of other threads are not touched. -/
theorem perform_other (performed : op.perform owner t = some owner')
    (moves : op.Moves before after) (mine : ∀ l, before l → owner l = some t) {u : Nat}
    (other : u ≠ t) (theirs : owner l = some u) : owner' l = some u := by
  cases op with
  | keep =>
    obtain rfl := Option.some.inj performed
    exact theirs
  | acquire k =>
    obtain ⟨free, rfl⟩ := perform_acquire performed
    have different : l ≠ k := by
      rintro rfl
      rw [free] at theirs
      cases theirs
    rwa [Function.update_of_ne different]
  | release k =>
    obtain rfl := Option.some.inj performed
    have different : l ≠ k := by
      rintro rfl
      rw [mine l moves.1] at theirs
      exact other (Option.some.inj theirs).symm
    rwa [Function.update_of_ne different]

/-- A lock is free after an operation when it was so before or has just been given back. -/
theorem perform_free (performed : op.perform owner t = some owner') (free : owner' l = none) :
    owner l = none ∨ op = .release l := by
  cases op with
  | keep =>
    obtain rfl := Option.some.inj performed
    exact Or.inl free
  | acquire k =>
    obtain ⟨-, rfl⟩ := perform_acquire performed
    by_cases same : l = k
    · rw [same, Function.update_self] at free
      cases free
    · rw [Function.update_of_ne same] at free
      exact Or.inl free
  | release k =>
    obtain rfl := Option.some.inj performed
    by_cases same : l = k
    · exact Or.inr (by rw [same])
    · rw [Function.update_of_ne same] at free
      exact Or.inl free

end LockOp

variable {program : Program L S P A} {holds : P → L → Prop} {st st' : State L S P}

theorem owned_step (disciplined : Disciplined program holds) {m : Move A}
    (owned : Owned holds st) (taken : step program st m = some st') : Owned holds st' := by
  cases m with
  | enter t a =>
    obtain ⟨-, rfl⟩ := step_enter taken
    intro u q l there held
    rcases thread_cases there with ⟨-, entered⟩ | ⟨-, there⟩
    · exact absurd held (disciplined.enter entered)
    · exact owned u q l there held
  | advance t =>
    obtain ⟨p, d, owner, here, acts, locks, rfl⟩ := step_advance.mp taken
    have moves := disciplined.act acts
    have mine : ∀ l, holds p l → st.owner l = some t := fun l => owned t p l here
    intro u q l there held
    rcases thread_cases there with ⟨rfl, next⟩ | ⟨other, there⟩
    · exact LockOp.perform_self locks moves mine ⟨q, next, held⟩
    · exact LockOp.perform_other locks moves mine other (owned u q l there held)

/-! ### Proof outlines -/

/-- What is claimed of the shared state always, at each point of the program and while a lock
is free, and of the points of two different threads. -/
structure Outline (L S P : Type*) where
  always : S → Prop
  at_ : S → P → Prop
  free : L → S → Prop
  apart : P → P → Prop

/-- The outline is checked step by step: what a step promises for its own thread and for the
lock it gives back, and that it spoils no other thread's assertion and no free lock's. -/
structure Outline.Valid (outline : Outline L S P) (program : Program L S P A)
    (holds : P → L → Prop) : Prop where
  symm : ∀ {p q}, outline.apart p q → outline.apart q p
  enter : ∀ {a p} s, program.enter a = some p → outline.at_ s p ∧ ∀ q, outline.apart p q
  own : ∀ {s p d}, program.act s p = some d → outline.always s →
    outline.at_ s p → (∀ k, d.lock = .acquire k → outline.free k s) →
    outline.always d.shared ∧ (∀ n, d.next = some n → outline.at_ d.shared n) ∧
      ∀ k, d.lock = .release k → outline.free k d.shared
  others : ∀ {s p d q}, program.act s p = some d → outline.always s →
    outline.at_ s p → outline.at_ s q → outline.apart p q → (∀ l, holds p l → ¬holds q l) →
    outline.at_ d.shared q ∧ ∀ n, d.next = some n → outline.apart n q
  locks : ∀ {s p d l}, program.act s p = some d → outline.always s →
    outline.at_ s p → outline.free l s → ¬holds p l → outline.free l d.shared

/-- The outline is true in a state. -/
structure Outline.Holds (outline : Outline L S P) (st : State L S P) : Prop where
  always : outline.always st.shared
  at_ : ∀ t p, st.threads t = some p → outline.at_ st.shared p
  free : ∀ l, st.owner l = none → outline.free l st.shared
  apart : ∀ t u p q, t ≠ u → st.threads t = some p → st.threads u = some q → outline.apart p q

variable {outline : Outline L S P}

theorem Outline.Valid.step (valid : outline.Valid program holds) {m : Move A}
    (owned : Owned holds st)
    (before : outline.Holds st)
    (taken : step program st m = some st') : outline.Holds st' := by
  cases m with
  | enter t a =>
    obtain ⟨-, rfl⟩ := step_enter taken
    refine ⟨before.always, fun u p here => ?_, before.free, fun u v p q other here there => ?_⟩
    · rcases thread_cases here with ⟨-, entered⟩ | ⟨-, here⟩
      · exact (valid.enter st.shared entered).1
      · exact before.at_ u p here
    · rcases thread_cases here with ⟨-, entered⟩ | ⟨-, here⟩
      · exact (valid.enter st.shared entered).2 q
      · rcases thread_cases there with ⟨-, entered⟩ | ⟨-, there⟩
        · exact valid.symm ((valid.enter st.shared entered).2 p)
        · exact before.apart u v p q other here there
  | advance t =>
    obtain ⟨p, d, owner, here, acts, locks, rfl⟩ := step_advance.mp taken
    have asserted := before.at_ t p here
    obtain ⟨always, next_at, given⟩ := valid.own acts before.always asserted
      fun k op => before.free k (LockOp.perform_acquire (op ▸ locks)).1
    -- the other threads hold none of the locks that this one holds
    have others : ∀ u q, u ≠ t → st.threads u = some q →
        outline.at_ d.shared q ∧ ∀ n, d.next = some n → outline.apart n q := by
      intro u q other there
      exact valid.others acts before.always asserted (before.at_ u q there)
        (before.apart t u p q (Ne.symm other) here there)
        fun l => owned.exclusive (Ne.symm other) here there
    refine ⟨always, fun u q there => ?_, fun l free => ?_, fun u v q r other first second => ?_⟩
    · rcases thread_cases there with ⟨-, next⟩ | ⟨other, there⟩
      · exact next_at q next
      · exact (others u q other there).1
    · -- a lock was free before, or this step has given it back
      rcases LockOp.perform_free locks free with was | op
      · refine valid.locks acts before.always asserted (before.free l was) fun held => ?_
        rw [owned t p l here held] at was
        cases was
      · exact given l op
    · rcases thread_cases first with ⟨rfl, next⟩ | ⟨other₁, there₁⟩
      · rcases thread_cases second with ⟨rfl, -⟩ | ⟨other₂, there₂⟩
        · exact absurd rfl other
        · exact (others v r other₂ there₂).2 q next
      · rcases thread_cases second with ⟨rfl, next⟩ | ⟨-, there₂⟩
        · exact valid.symm ((others u q other₁ there₁).2 r next)
        · exact before.apart u v q r other there₁ there₂

/-- What a run from an idle state reaches satisfies a valid outline. -/
theorem Outline.Valid.reach (valid : outline.Valid program holds)
    (disciplined : Disciplined program holds) {guard : State L S P → Move A → Prop} {s : S}
    (always : outline.always s) (free : ∀ l, outline.free l s)
    (reached : Transition.Reach (Threads.step program) guard (idle s) st) :
    outline.Holds st ∧ Owned holds st := by
  apply reached.invariant (P := fun st => outline.Holds st ∧ Owned holds st)
  · refine ⟨⟨always, ?_, fun l _ => free l, ?_⟩, ?_⟩
    · rintro t p ⟨⟩
    · rintro t u p q - ⟨⟩
    · rintro t p l ⟨⟩
  · rintro st m st' - ⟨before, owned⟩ - taken
    exact ⟨valid.step owned before taken, owned_step disciplined owned taken⟩

/-! ### A thread that runs alone -/

/-- A step of one thread. -/
def SoloStep (program : Program L S P A) (here there : S × Option P) : Prop :=
  ∃ p d, here.2 = some p ∧ program.act here.1 p = some d ∧ there = (d.shared, d.next)

/-- Several of them. -/
abbrev Solo (program : Program L S P A) : S × Option P → S × Option P → Prop :=
  Relation.ReflTransGen (SoloStep program)

omit [DecidableEq L] in
theorem Solo.head {s : S} {p : P} {d : Action L S P} {there : S × Option P}
    (acts : program.act s p = some d) (rest : Solo program (d.shared, d.next) there) :
    Solo program (s, some p) there :=
  Relation.ReflTransGen.head ⟨p, d, rfl, acts, rfl⟩ rest

open Classical in
/-- The state in which thread `t` is at a point and nothing else is running. -/
noncomputable def alone (holds : P → L → Prop) (t : Nat) (s : S) (q : Option P) : State L S P where
  shared := s
  owner l := if HeldAt holds q l then some t else none
  threads := Function.update (fun _ => none) t q

omit [DecidableEq L] in
theorem alone_owner {t : Nat} {s : S} {q : Option P} {l : L} {owned : Option Nat}
    (held : HeldAt holds q l → owned = some t) (free : ¬HeldAt holds q l → owned = none) :
    (alone holds t s q).owner l = owned := by
  by_cases here : HeldAt holds q l
  · rw [held here]
    exact if_pos here
  · rw [free here]
    exact if_neg here

omit [DecidableEq L] in
theorem alone_returned (t : Nat) (s : S) : alone holds t s none = idle s := by
  have owner : (alone holds t s none).owner = fun _ => none :=
    funext fun l => alone_owner (fun ⟨_, returned, _⟩ => nomatch returned) fun _ => rfl
  rw [idle, ← owner]
  simp [alone]

theorem step_alone (disciplined : Disciplined program holds) {t : Nat}
    {here there : S × Option P} (taken : SoloStep program here there) :
    step program (alone holds t here.1 here.2) (.advance t) =
      some (alone holds t there.1 there.2) := by
  obtain ⟨s, q⟩ := here
  obtain ⟨p, d, rfl, acts, rfl⟩ := taken
  have moves := disciplined.act acts
  -- who owns what follows from where the thread is
  have here : ∀ {l}, holds p l → (alone holds t s (some p)).owner l = some t :=
    fun held => alone_owner (fun _ => rfl) fun free => absurd ⟨p, rfl, held⟩ free
  have free : ∀ {l}, ¬holds p l → (alone holds t s (some p)).owner l = none :=
    fun free => alone_owner (fun ⟨_, same, held⟩ => absurd (Option.some.inj same ▸ held) free)
      fun _ => rfl
  refine step_advance.mpr ⟨p, d, (alone holds t d.shared d.next).owner, ?_, acts, ?_, ?_⟩
  · simp [alone]
  · cases op : d.lock with
    | keep =>
      rw [op] at moves
      refine congrArg some (funext fun l => ?_)
      exact (alone_owner (fun held => here ((moves l).mp held))
        fun none => free fun held => none ((moves l).mpr held)).symm
    | acquire k =>
      rw [op] at moves
      rw [LockOp.perform, if_pos (free moves.1)]
      refine congrArg some (funext fun l => ?_)
      by_cases same : l = k
      · subst same
        rw [Function.update_self]
        exact (alone_owner (fun _ => rfl)
          fun none => absurd ((moves.2 l).mpr (Or.inr rfl)) none).symm
      · rw [Function.update_of_ne same]
        exact (alone_owner (fun held => here (((moves.2 l).mp held).resolve_right same))
          fun none => free fun held => none ((moves.2 l).mpr (Or.inl held))).symm
    | release k =>
      rw [op] at moves
      refine congrArg some (funext fun l => ?_)
      by_cases same : l = k
      · subst same
        rw [Function.update_self]
        exact (alone_owner (fun held => absurd rfl ((moves.2 l).mp held).2) fun _ => rfl).symm
      · rw [Function.update_of_ne same]
        exact (alone_owner (fun held => here ((moves.2 l).mp held).1)
          fun none => free fun held => none ((moves.2 l).mpr ⟨held, same⟩)).symm
  · simp [alone]

/-- What a call does alone it does in a run of the whole program. -/
theorem reach_alone (disciplined : Disciplined program holds) (t : Nat) {a : A} {s : S}
    {there : S × Option P} (served : program.fatal a = false)
    (solo : Solo program (s, program.enter a) there) :
    Transition.Reach (step program) (fun _ _ => True) (idle s)
      (alone holds t there.1 there.2) := by
  induction solo with
  | refl =>
    refine .step .start (a := .enter t a) trivial ?_
    have owner : (alone holds t s (program.enter a)).owner = fun _ => none :=
      funext fun l => alone_owner (fun ⟨_, entered, held⟩ =>
        absurd held (disciplined.enter entered)) fun _ => rfl
    rw [step, idle, ← owner]
    exact if_neg (by simp [served])
  | tail _ taken ih =>
    exact .step ih (a := .advance t) trivial (step_alone disciplined taken)

end Threads
