set_option autoImplicit false

namespace Stencil.Text

/-- The number of the line on which `rest`, an end part of `text`, begins. -/
def lineAt (text rest : List Char) : Nat := 1 + (text.take (text.length - rest.length)).count '\n'

theorem lineAt_append (before rest : List Char) :
    lineAt (before ++ rest) rest = 1 + before.count '\n' := by
  simp [lineAt]

def size : List Char → Nat
  | [] => 0
  | c :: rest => c.utf8Size + size rest

theorem size_append (s t : List Char) : size (s ++ t) = size s + size t := by
  induction s with
  | nil => simp [size]
  | cons c s ih => simp [size, ih, Nat.add_assoc]

end Stencil.Text
