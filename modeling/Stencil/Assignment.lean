import Stencil.Expression.Printer
set_option autoImplicit false

namespace Stencil

inductive SetOp where
  | assign | addAssign | subAssign | increment | decrement
  deriving DecidableEq, Repr

namespace SetOp

def symbol : SetOp → String
  | assign => "="
  | addAssign => "+="
  | subAssign => "-="
  | increment => "++"
  | decrement => "--"

def ofSymbol? (s : String) : Option SetOp :=
  [assign, addAssign, subAssign, increment, decrement].find? (·.symbol == s)

theorem ofSymbol?_symbol (op : SetOp) : ofSymbol? op.symbol = some op := by
  cases op <;> decide

def takesValue : SetOp → Bool
  | increment | decrement => false
  | _ => true

end SetOp

structure Assignment where
  target : String
  op : SetOp
  value : Option Expression
  deriving DecidableEq, Repr

/-- A value is set off by blanks; without one the operator follows the target directly. -/
def Assignment.write (a : Assignment) : List Char :=
  match a.value with
  | some e => a.target.toList ++ ' ' :: a.op.symbol.toList ++ ' ' :: e.write []
  | none => a.target.toList ++ a.op.symbol.toList

def Assignment.toString (a : Assignment) : String := String.ofList a.write

end Stencil
