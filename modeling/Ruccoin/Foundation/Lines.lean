import Mathlib.Data.List.GetD
import Mathlib.Data.List.TakeWhile
import Mathlib.Logic.Function.Iterate

/-!
# Reading lines past the end

A program that reads its input line by line into one variable, without a look at the state of
the stream, still finds something in the variable when the input has ended: the attempt that
meets the end stores what is left, and every attempt after it stores nothing and leaves that
there.
-/

namespace Lines

/-- An input stream and the variable that the lines are read into. -/
structure Reader where
  rest : List Char
  /-- No attempt has met the end of the input. -/
  good : Bool
  input : List Char

namespace Reader

def start (text : List Char) : Reader := ⟨text, true, []⟩

/-- Read up to the next line feed, which is not stored. -/
def getline (r : Reader) : Reader :=
  if r.good then
    match r.rest.dropWhile (· ≠ '\n') with
    | _ :: rest => { r with rest := rest, input := r.rest.takeWhile (· ≠ '\n') }
    | [] => { rest := [], good := false, input := r.rest }
  else r

end Reader

/-- What the variable holds in turn `k`: a line, and from the last line on that line. -/
def line (text : List Char) (k : Nat) : List Char :=
  let parts := text.splitOn '\n'
  parts.getD (min k (parts.length - 1)) []

theorem line_of_le {text : List Char} {k : Nat} (past : (text.splitOn '\n').length ≤ k + 1) :
    line text k = (text.splitOn '\n').getLast (List.splitOn_ne_nil _ _) := by
  have some_line : 0 < (text.splitOn '\n').length :=
    List.length_pos_iff.mpr (List.splitOn_ne_nil _ _)
  have last : min k ((text.splitOn '\n').length - 1) = (text.splitOn '\n').length - 1 := by omega
  unfold line
  dsimp only
  rw [last, List.getD_eq_getElem _ _ (by omega), List.getLast_eq_getElem]

theorem line_of_unended {text : List Char} (noEnd : '\n' ∉ text) (k : Nat) : line text k = text := by
  have single : text.splitOn '\n' = [text] := List.splitOn_eq_singleton noEnd
  simp [line, single]

theorem line_cons {first : List Char} (noEnd : '\n' ∉ first) (rest : List Char) :
    line (first ++ '\n' :: rest) 0 = first ∧
      ∀ k, line (first ++ '\n' :: rest) (k + 1) = line rest k := by
  have parts : (first ++ '\n' :: rest).splitOn '\n' = first :: rest.splitOn '\n' :=
    List.splitOn_append_cons_self_of_not_mem noEnd rest
  have some_line : 0 < (rest.splitOn '\n').length :=
    List.length_pos_iff.mpr (List.splitOn_ne_nil _ _)
  refine ⟨by simp [line, parts], fun k => ?_⟩
  have later : min (k + 1) (rest.splitOn '\n').length =
      min k ((rest.splitOn '\n').length - 1) + 1 := by omega
  simp [line, parts, later]

namespace Reader

variable {text : List Char}

theorem getline_unended (noEnd : '\n' ∉ text) (old : List Char) :
    getline ⟨text, true, old⟩ = ⟨[], false, text⟩ := by
  have none_left : text.dropWhile (· ≠ '\n') = [] := by
    rw [List.dropWhile_eq_nil_iff]
    intro c member
    exact decide_eq_true fun same => noEnd (same ▸ member)
  simp only [getline, none_left, if_true]

theorem getline_line {first : List Char} (noEnd : '\n' ∉ first) (rest old : List Char) :
    getline ⟨first ++ '\n' :: rest, true, old⟩ = ⟨rest, true, first⟩ := by
  have inside : ∀ c ∈ first, decide (c ≠ '\n') = true := fun c member =>
    decide_eq_true fun same => noEnd (same ▸ member)
  have left : (first ++ '\n' :: rest).dropWhile (· ≠ '\n') = '\n' :: rest := by
    rw [List.dropWhile_append_of_pos inside]
    simp
  have taken : (first ++ '\n' :: rest).takeWhile (· ≠ '\n') = first := by
    rw [List.takeWhile_append_of_pos inside]
    simp
  simp only [getline, left, taken, if_true]

/-- At the end of the input nothing is stored any more. -/
theorem getline_ended (r : Reader) (ended : r.good = false) (k : Nat) : getline^[k] r = r := by
  have same : getline r = r := by simp [getline, ended]
  exact Function.iterate_fixed same k

end Reader

/-- Whatever was in the variable before, turn `k` finds line `k` there. -/
theorem input_getline (text old : List Char) (k : Nat) :
    (Reader.getline^[k + 1] ⟨text, true, old⟩).input = line text k := by
  induction k generalizing text old with
  | zero =>
    rw [Nat.zero_add, Function.iterate_one]
    by_cases ends : '\n' ∈ text
    · obtain ⟨first, rest, rfl, noEnd⟩ := List.eq_append_cons_of_mem ends
      rw [Reader.getline_line noEnd, (line_cons noEnd rest).1]
    · rw [Reader.getline_unended ends, line_of_unended ends]
  | succ k ih =>
    rw [Function.iterate_succ_apply]
    by_cases ends : '\n' ∈ text
    · obtain ⟨first, rest, rfl, noEnd⟩ := List.eq_append_cons_of_mem ends
      rw [Reader.getline_line noEnd, ih rest first, (line_cons noEnd rest).2]
    · -- the only line has no end, and stays in the variable
      rw [Reader.getline_unended ends, Reader.getline_ended _ rfl, line_of_unended ends]

end Lines
