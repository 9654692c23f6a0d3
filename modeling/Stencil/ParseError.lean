import Stencil.Assignment
import Stencil.Expression.Reader
set_option autoImplicit false

namespace Stencil

inductive Construct where
  | conditional | loop | range | block
  deriving DecidableEq, Repr

namespace Construct

def keyword : Construct → String
  | conditional => "if"
  | loop => "for"
  | range => "range"
  | block => "block"

def closer : Construct → String
  | conditional => "endif"
  | loop => "endfor"
  | range => "endrange"
  | block => "endblock"

def ofCloser? (word : String) : Option Construct :=
  [conditional, loop, range, block].find? (·.closer == word)

end Construct

inductive AssignmentFault where
  | missingTarget
  | targetNotName (found : String)
  | missingOperator (target : String)
  | unsupportedOperator (found : String)
  | missingValue (target : String)
  | valueNotTaken (op : SetOp) (found : String)
  deriving DecidableEq, Repr

def AssignmentFault.message : AssignmentFault → String
  | missingTarget => "missing target"
  | targetNotName found => "target must be a name, found " ++ found
  | missingOperator target => "missing operator after `" ++ target ++ "`"
  | unsupportedOperator found => "unsupported operator " ++ found
  | missingValue target => "missing value for `" ++ target ++ "`"
  | valueNotTaken op found => "`" ++ op.symbol ++ "` takes no value, found " ++ found

/-- Why no tree is built. A panic is no error that is given: the program stops there. -/
inductive ParseError.Cause where
  | unexpected (found : String)
  | endOfTemplate (unclosed : Option Construct)
  | invalidAssignment (fault : AssignmentFault)
  | missingOperand
  | residualOperands (count : Nat)
  | panic
  deriving DecidableEq, Repr

def ParseError.Cause.message : Cause → String
  | unexpected found => "unexpected " ++ found
  | endOfTemplate none => "unexpected end of template"
  | endOfTemplate (some c) => "unexpected end of template, `" ++ c.keyword ++ "` is never closed"
  | invalidAssignment fault => "invalid assignment, " ++ fault.message
  | missingOperand => ExpressionError.Cause.missingOperand.message
  | residualOperands count => (ExpressionError.Cause.residualOperands count).message
  | panic => ExpressionError.Cause.panic.message

structure ParseError where
  cause : ParseError.Cause
  line : Nat
  deriving DecidableEq, Repr

namespace ParseError

def message (e : ParseError) : String := e.cause.message

def unexpected (t : Token) : ParseError := ⟨.unexpected t.describe, t.line⟩

def ofExpression (e : ExpressionError) : ParseError :=
  match e.cause with
  | .missingOperand => ⟨.missingOperand, e.line⟩
  | .residualOperands count => ⟨.residualOperands count, e.line⟩
  | .unexpected found => ⟨.unexpected found, e.line⟩
  | .panic => ⟨.panic, e.line⟩

end ParseError

end Stencil
