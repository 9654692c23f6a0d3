import Stencil.ParseError
set_option autoImplicit false

namespace Stencil

def Expression.parseIn (tokens : List Token) : Except ParseError Expression :=
  (Expression.parse tokens).mapError ParseError.ofExpression

namespace Assignment

def invalid (fault : AssignmentFault) (line : Nat) : ParseError := ⟨.invalidAssignment fault, line⟩

def operator? (t : Token) : Option SetOp :=
  if t.kind = .operator then SetOp.ofSymbol? t.value else none

def parseValue (target : Token) (opToken : Token) (op : SetOp) (rest : List Token) :
    Except ParseError (Option Expression) :=
  match op.takesValue, rest with
  | true, [] => .error (invalid (.missingValue target.value) opToken.line)
  | true, _ => (Expression.parseIn rest).map some
  | false, [] => .ok none
  | false, extra :: _ => .error (invalid (.valueNotTaken op extra.describe) extra.line)

/-- The assignment that tokens spell; `line` is where a missing one is reported. -/
def parse (line : Nat) : List Token → Except ParseError Assignment
  | [] => .error (invalid .missingTarget line)
  | target :: rest =>
    if target.kind ≠ .name then .error (invalid (.targetNotName target.describe) target.line)
    else match rest with
      | [] => .error (invalid (.missingOperator target.value) target.line)
      | opToken :: rest =>
        match operator? opToken with
        | none => .error (invalid (.unsupportedOperator opToken.describe) opToken.line)
        | some op => (parseValue target opToken op rest).map fun value => ⟨target.value, op, value⟩

end Assignment

end Stencil
