import Ruccoin.Foundation.Threads

/-!
# Calls with disjoint footprints

At every point of a program the rest of a call reads and writes certain cells of the shared
state, its footprint. While a call only starts when its footprint is apart from those of the
calls that are running, it might as well be made all at once: the cells are as if the calls
had been made one after the other, in the order in which they started.
-/

namespace Threads

variable {L S P A W K V : Type*}

/-- The footprint of the rest of a call at each point, and what the rest of the call does to
the cells when nothing comes between. -/
structure Footprints (program : Program L S P A) (view : S → W) (cell : W → K → V) where
  foot : P → K → Prop
  finish : P → W → W
  /-- A step is the first part of what is left to do. -/
  step : ∀ {s p d}, program.act s p = some d →
    d.next.elim id finish (view d.shared) = finish p (view s)
  shrinks : ∀ {s p d k}, program.act s p = some d → HeldAt foot d.next k → foot p k
  frame : ∀ {s p d k}, program.act s p = some d → ¬foot p k →
    cell (view d.shared) k = cell (view s) k
  finish_frame : ∀ {p k} w, ¬foot p k → cell (finish p w) k = cell w k
  finish_local : ∀ {p w w'}, (∀ k, foot p k → cell w k = cell w' k) →
    ∀ k, foot p k → cell (finish p w) k = cell (finish p w') k

namespace Footprints

variable {program : Program L S P A} {view : S → W} {cell : W → K → V}
  (footprints : Footprints program view cell)

/-- A call all at once. -/
def whole (a : A) : W → W := (program.enter a).elim id footprints.finish

/-- A call may start: it has nothing in common with those that are running. -/
def Clear (st : State L S P) (a : A) : Prop :=
  ∀ u q k, st.threads u = some q → HeldAt footprints.foot (program.enter a) k →
    ¬footprints.foot q k

/-- The cells `w` are those that the calls leave which have returned, and those to which the
calls that are running are on their way. -/
structure Serial (st : State L S P) (w : W) : Prop where
  apart : ∀ t u p q k, t ≠ u → st.threads t = some p → st.threads u = some q →
    footprints.foot p k → ¬footprints.foot q k
  running : ∀ t p k, st.threads t = some p → footprints.foot p k →
    cell (footprints.finish p (view st.shared)) k = cell w k
  rest : ∀ k, (∀ t p, st.threads t = some p → ¬footprints.foot p k) →
    cell (view st.shared) k = cell w k

variable {footprints} {st st' : State L S P} {w : W} {t : Nat}

theorem serial_idle (s : S) : footprints.Serial (idle s) (view s) where
  apart := nofun
  running := nofun
  rest _ _ := rfl

/-- With nothing running the cells are those of the calls made one after the other. -/
theorem Serial.returned (serial : footprints.Serial st w)
    (returned : ∀ t, st.threads t = none) (k : K) : cell (view st.shared) k = cell w k := by
  apply serial.rest
  intro t p here
  rw [returned t] at here
  cases here

/-- What is not shown in the cells does not matter. -/
theorem Serial.withShared (serial : footprints.Serial st w) {s : S}
    (same : view s = view st.shared) : footprints.Serial { st with shared := s } w where
  apart := serial.apart
  running := by
    intro t p k here held
    dsimp only
    rw [same]
    exact serial.running t p k here held
  rest := by
    intro k free
    dsimp only
    rw [same]
    exact serial.rest k free

theorem cell_elim_of_not_held {next : Option P} {k : K} (w : W)
    (free : ¬HeldAt footprints.foot next k) :
    cell (next.elim id footprints.finish w) k = cell w k := by
  cases next with
  | none => rfl
  | some n => exact footprints.finish_frame w fun held => free ⟨n, rfl, held⟩

variable [DecidableEq L]

/-- The call that starts finds its cells as they would be if all the others had returned. -/
theorem Serial.enter {a : A} (serial : footprints.Serial st w) (clear : footprints.Clear st a)
    (taken : Threads.step program st (.enter t a) = some st') :
    footprints.Serial st' (footprints.whole a w) := by
  obtain ⟨-, rfl⟩ := step_enter taken
  refine ⟨fun u v p q k other here there held => ?_, fun u q k here held => ?_, fun k free => ?_⟩
  · rcases thread_cases here with ⟨rfl, entered⟩ | ⟨-, here⟩
    · rcases thread_cases there with ⟨rfl, -⟩ | ⟨-, there⟩
      · exact absurd rfl other
      · exact clear v q k there ⟨p, entered, held⟩
    · rcases thread_cases there with ⟨-, entered⟩ | ⟨-, there⟩
      · exact fun both => clear u p k here ⟨q, entered, both⟩ held
      · exact serial.apart u v p q k other here there held
  · rcases thread_cases here with ⟨-, entered⟩ | ⟨-, here⟩
    · unfold whole
      rw [entered]
      refine footprints.finish_local (fun k held => serial.rest k ?_) k held
      exact fun v r there => clear v r k there ⟨q, entered, held⟩
    · have apart : ¬HeldAt footprints.foot (program.enter a) k :=
        fun both => clear u q k here both held
      exact (serial.running u q k here held).trans (cell_elim_of_not_held w apart).symm
  · have apart : ¬HeldAt footprints.foot (program.enter a) k := by
      rintro ⟨p, entered, held⟩
      exact free t p ((Function.update_self ..).trans entered) held
    refine (serial.rest k fun u q here => ?_).trans (cell_elim_of_not_held w apart).symm
    intro held
    by_cases same : u = t
    · -- the thread was not running before
      subst same
      have nothing := (step_enter taken).1
      rw [here] at nothing
      cases nothing
    · exact free u q ((Function.update_of_ne same ..).trans here) held

/-- A step of a call changes nothing about where the calls are on their way to. -/
theorem Serial.advance (serial : footprints.Serial st w)
    (taken : Threads.step program st (.advance t) = some st') : footprints.Serial st' w := by
  obtain ⟨p, d, owner, here, acts, -, rfl⟩ := step_advance.mp taken
  refine ⟨fun u v q r k other first second held => ?_, fun u q k there held => ?_,
    fun k free => ?_⟩
  · rcases thread_cases first with ⟨rfl, next⟩ | ⟨-, before₁⟩
    · rcases thread_cases second with ⟨rfl, -⟩ | ⟨-, before₂⟩
      · exact absurd rfl other
      · exact serial.apart u v p r k other here before₂
          (footprints.shrinks acts ⟨q, next, held⟩)
    · rcases thread_cases second with ⟨rfl, next⟩ | ⟨-, before₂⟩
      · exact fun both => serial.apart u v q p k other before₁ here held
          (footprints.shrinks acts ⟨r, next, both⟩)
      · exact serial.apart u v q r k other before₁ before₂ held
  · rcases thread_cases there with ⟨-, next⟩ | ⟨other, there⟩
    · have done := footprints.step acts
      rw [next] at done
      dsimp only [Option.elim_some] at done
      rw [done]
      exact serial.running t p k here (footprints.shrinks acts ⟨q, next, held⟩)
    · -- the other thread does not see the step
      have unseen : ∀ k, footprints.foot q k →
          cell (view d.shared) k = cell (view st.shared) k := fun k held =>
        footprints.frame acts fun both => serial.apart u t q p k other there here held both
      exact (footprints.finish_local unseen k held).trans (serial.running u q k there held)
  · have left : ¬HeldAt footprints.foot d.next k := by
      rintro ⟨n, next, held⟩
      exact free t n ((Function.update_self ..).trans next) held
    by_cases held : footprints.foot p k
    · calc cell (view d.shared) k
          _ = cell (d.next.elim id footprints.finish (view d.shared)) k :=
            (cell_elim_of_not_held _ left).symm
          _ = cell (footprints.finish p (view st.shared)) k := by rw [footprints.step acts]
          _ = cell w k := serial.running t p k here held
    · refine (footprints.frame acts held).trans (serial.rest k fun u q there => ?_)
      by_cases same : u = t
      · subst same
        rw [here] at there
        cases there
        exact held
      · exact free u q ((Function.update_of_ne same ..).trans there)

end Footprints

end Threads
