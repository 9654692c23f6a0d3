import Stencil.Split
/-!
Lines of a text. A carriage return, alone or before a line feed, ends a line like a line feed does;
texts are normalized to line feeds before anything reads them.
-/
set_option autoImplicit false

namespace Stencil.Text

/-- Every line end is written as one line feed. -/
def normalize : List Char → List Char
  | [] => []
  | '\r' :: '\n' :: rest => '\n' :: normalize rest
  | c :: rest => (if c = '\r' then '\n' else c) :: normalize rest

theorem not_mem_normalize (s : List Char) : '\r' ∉ normalize s := by
  fun_induction normalize s with
  | case1 => simp
  | case2 rest ih => simp [ih]
  | case3 c rest _ ih =>
    by_cases h : c = '\r'
    · simp [h, ih]
    · simp [h, ih, Ne.symm h]

theorem normalize_of_not_mem {s : List Char} (h : '\r' ∉ s) : normalize s = s := by
  fun_induction normalize s with
  | case1 => rfl
  | case2 rest ih => simp at h
  | case3 c rest _ ih =>
    simp only [List.mem_cons, not_or] at h
    simp [Ne.symm h.1, ih h.2]

/-- The lines of a text; there is one more of them than line feeds. -/
def lines (s : List Char) : List (List Char) := separate (· == '\n') s

theorem length_lines (s : List Char) : (lines s).length = s.count '\n' + 1 := by
  rw [lines, length_separate, List.count]

end Stencil.Text
