import Stencil.Expression
import Stencil.Text.Quoted
/-!
Writing expressions. Parentheses stand only where the priorities of the operators would group the
parts differently: around a looser left operand, around a right operand that is not tighter, and
around an operation that is indexed.
-/
set_option autoImplicit false

namespace Stencil.Expression

def wrap (needed : Bool) (write : List Char → List Char) (tail : List Char) : List Char :=
  if needed then '(' :: write (')' :: tail) else write tail

mutual

/-- An expression in front of a tail. -/
def write : Expression → List Char → List Char
  | identifier name, tail => name.toList ++ tail
  | number text, tail => text.toList ++ tail
  | string text, tail => Text.Quoted.write text.toList ++ tail
  | binary op left right, tail =>
    wrap (left.priority < op.priority) left.write (' ' :: op.symbol.toList ++
      ' ' :: wrap (right.priority ≤ op.priority) right.write tail)
  | index base position, tail =>
    wrap (base.priority < indexPriority) base.write ('[' :: position.write (']' :: tail))
  | call function none, tail => function.toList ++ '(' :: ')' :: tail
  | call function (some args), tail => function.toList ++ '(' :: writeList args (')' :: tail)

def writeList : List Expression → List Char → List Char
  | [], tail => tail
  | [e], tail => e.write tail
  | e :: rest, tail => e.write (',' :: ' ' :: writeList rest tail)

end

theorem wrap_append {write : List Char → List Char} (h : ∀ tail, write tail = write [] ++ tail)
    (needed : Bool) (tail : List Char) : wrap needed write tail = wrap needed write [] ++ tail := by
  unfold wrap
  split
  · rw [h, h [')']]; simp
  · exact h tail

mutual

theorem write_append (e : Expression) (tail : List Char) : e.write tail = e.write [] ++ tail := by
  match e with
  | identifier _ | number _ | string _ | call _ none => simp [write]
  | binary op left right =>
    simp only [write]
    rw [wrap_append left.write_append, wrap_append right.write_append,
      wrap_append left.write_append _ (_ ++ _)]
    simp
  | index base position =>
    simp only [write]
    rw [wrap_append base.write_append, position.write_append,
      wrap_append base.write_append _ ('[' :: position.write [']']), position.write_append [']']]
    simp
  | call function (some args) =>
    simp only [write]
    rw [writeList_append, writeList_append args [')']]
    simp

theorem writeList_append (es : List Expression) (tail : List Char) :
    writeList es tail = writeList es [] ++ tail := by
  match es with
  | [] => rfl
  | [e] => exact e.write_append tail
  | e :: f :: rest =>
    simp only [writeList]
    rw [e.write_append, e.write_append (',' :: ' ' :: writeList (f :: rest) []),
      writeList_append (f :: rest)]
    simp

end

def toString (e : Expression) : String := String.ofList (e.write [])

end Stencil.Expression
