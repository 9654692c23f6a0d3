import Stencil.Expression
import Stencil.Token
/-!
Reading expressions. The tokens are taken from left to right with two stacks, one of finished
operands and one of operators and opened groups that wait for what follows. A group remembers how
many operands were finished when it opened, and no operator inside it takes any of those.
-/
set_option autoImplicit false

namespace Stencil

/-- Why no expression is read. A panic is no error that is given: the program stops there. -/
inductive ExpressionError.Cause where
  | missingOperand
  | residualOperands (count : Nat)
  | unexpected (found : String)
  | panic
  deriving DecidableEq, Repr

def ExpressionError.Cause.message : Cause → String
  | missingOperand => "malformed expression, an operator is missing an operand"
  | residualOperands count =>
    "malformed expression, " ++ toString count ++ " operands are left without an operator"
  | unexpected found => "unexpected " ++ found ++ " in expression"
  | panic => "panic"

structure ExpressionError where
  cause : ExpressionError.Cause
  line : Nat
  deriving DecidableEq, Repr

def ExpressionError.message (e : ExpressionError) : String := e.cause.message

namespace Expression

def unexpected (t : Token) : ExpressionError := ⟨.unexpected t.describe, t.line⟩
def missingOperand (t : Token) : ExpressionError := ⟨.missingOperand, t.line⟩
def panic (t : Token) : ExpressionError := ⟨.panic, t.line⟩

/-- A finished operand. Arguments gathered so far keep their first comma, the place to report them
at when they turn out to stand outside a call. -/
inductive Operand where
  | plain (e : Expression)
  | arguments (items : List Expression) (comma : Token)

/-- An operator waiting for its right operand, or a group waiting for its end. -/
inductive Pending where
  | binary (op : BinaryOp) (token : Token)
  | comma (token : Token)
  | call (name : Token) (depth : Nat)
  | paren (token : Token) (depth : Nat)
  | bracket (token : Token) (depth : Nat)

namespace Pending

def depth? : Pending → Option Nat
  | binary _ _ | comma _ => none
  | call _ depth | paren _ depth | bracket _ depth => some depth

def token : Pending → Token
  | binary _ token | comma token | call token _ | paren token _ | bracket token _ => token

def isGroup (p : Pending) : Bool := p.depth?.isSome

/-- How many operands lie outside the innermost open group. -/
def floor (pending : List Pending) : Nat := (pending.findSome? depth?).getD 0

def yieldsTo (priority : Nat) : Pending → Bool
  | binary op _ => priority ≤ op.priority
  | _ => false

end Pending

def popPlain (t : Token) : List Operand → Except ExpressionError (Expression × List Operand)
  | [] => .error (missingOperand t)
  | .plain e :: rest => .ok (e, rest)
  | .arguments _ comma :: _ => .error (unexpected comma)

def gather (comma : Token) (right : Expression) : Operand → Operand
  | .plain left => .arguments [left, right] comma
  | .arguments items first => .arguments (items ++ [right]) first

/-- Applies an operator to the operands above the floor of its group; `outer` is what waits
below it. -/
def apply (outer : List Pending) (operands : List Operand) :
    Pending → Except ExpressionError (List Operand)
  | .binary op t =>
    if operands.length < Pending.floor outer + 2 then .error (missingOperand t)
    else do
      let (right, rest) ← popPlain t operands
      let (left, rest) ← popPlain t rest
      return .plain (.binary op left right) :: rest
  | .comma t =>
    if operands.length < Pending.floor outer + 2 then .error (missingOperand t)
    else do
      let (right, rest) ← popPlain t operands
      match rest with
      | [] => .error (missingOperand t)
      | left :: rest => return gather t right left :: rest
  | group => .error (unexpected group.token)

def applyWhile (p : Pending → Bool) :
    List Pending → List Operand → Except ExpressionError (List Pending × List Operand)
  | [], operands => .ok ([], operands)
  | top :: outer, operands =>
    if p top then
      match apply outer operands top with
      | .error e => .error e
      | .ok operands => applyWhile p outer operands
    else .ok (top :: outer, operands)

structure Stacks where
  operands : List Operand
  pending : List Pending

namespace Stacks

def push (s : Stacks) (e : Expression) : Stacks := ⟨.plain e :: s.operands, s.pending⟩

def wait (s : Stacks) (p : Pending) : Stacks := ⟨s.operands, p :: s.pending⟩

def applyWhile (p : Pending → Bool) (s : Stacks) : Except ExpressionError Stacks := do
  let (pending, operands) ← Expression.applyWhile p s.pending s.operands
  return ⟨operands, pending⟩

def applyGroup (s : Stacks) : Except ExpressionError Stacks := s.applyWhile (!·.isGroup)

def operator (s : Stacks) (t : Token) : Except ExpressionError Stacks :=
  match BinaryOp.ofSymbol? t.value with
  | none => .error (unexpected t)
  | some op => do return (← s.applyWhile (·.yieldsTo op.priority)).wait (.binary op t)

/-- Ends a call: the operands finished since it opened are at most one, its argument list or its
only argument. -/
def endCall (name : Token) (depth : Nat) (close : Token) (operands : List Operand) :
    Except ExpressionError (List Operand) :=
  match operands.length - depth, operands with
  | 0, _ => .ok (.plain (.call name.value none) :: operands)
  | 1, .arguments items _ :: rest => .ok (.plain (.call name.value (some items)) :: rest)
  | 1, .plain e :: rest => .ok (.plain (.call name.value (some [e])) :: rest)
  | 1, [] => .ok [.plain (.call name.value none)]
  | count, _ => .error ⟨.residualOperands count, close.line⟩

def closeParen (s : Stacks) (t : Token) : Except ExpressionError Stacks := do
  let s ← s.applyGroup
  match s.pending with
  | .paren _ _ :: outer => return ⟨s.operands, outer⟩
  | .call name depth :: outer => return ⟨← endCall name depth t s.operands, outer⟩
  | _ => .error (unexpected t)

def closeBracket (s : Stacks) (t : Token) : Except ExpressionError Stacks := do
  let s ← s.applyGroup
  match s.pending with
  | .bracket opening depth :: outer =>
    if s.operands.length ≤ depth then .error (missingOperand t)
    else
      let (position, rest) ← popPlain opening s.operands
      let (base, rest) ← popPlain opening rest
      return ⟨.plain (.index base position) :: rest, outer⟩
  | _ => .error (unexpected t)

def punctuation (s : Stacks) (t : Token) : Except ExpressionError Stacks :=
  match t.value with
  | "(" => .ok (s.wait (.paren t s.operands.length))
  | "[" => .ok (s.wait (.bracket t s.operands.length))
  | "," => do return (← s.applyGroup).wait (.comma t)
  | ")" => s.closeParen t
  | "]" => s.closeBracket t
  | _ => .error (unexpected t)

def string (s : Stacks) (t : Token) : Except ExpressionError Stacks :=
  match t.unquote with
  | Option.some content => .ok (s.push (.string content))
  | Option.none => .error (panic t)

def take (s : Stacks) (t : Token) : Except ExpressionError Stacks :=
  match t.kind with
  | .number => .ok (s.push (.number t.value))
  | .string => s.string t
  | .name => .ok (s.push (.identifier t.value))
  | .operator => s.operator t
  | .punctuation => s.punctuation t
  | _ => .error (unexpected t)

/-- Takes all tokens; a name directly before an opening parenthesis begins a call. -/
def takeAll (s : Stacks) : List Token → Except ExpressionError Stacks
  | [] => .ok s
  | t :: [] => s.take t
  | t :: next :: rest =>
    if t.kind = .name && next.isPunct "(" then takeAll (s.wait (.call t s.operands.length)) rest
    else
      match s.take t with
      | .error e => .error e
      | .ok s => takeAll s (next :: rest)

def finish (s : Stacks) (line : Nat) : Except ExpressionError Expression := do
  let s ← s.applyGroup
  match s.pending with
  | group :: _ => .error (unexpected group.token)
  | [] =>
    match s.operands with
    | [] => .error ⟨.missingOperand, line⟩
    | [.plain e] => return e
    | [.arguments _ comma] => .error (unexpected comma)
    | operands => .error ⟨.residualOperands operands.length, line⟩

end Stacks

/-- The expression that the tokens between the ends of a tag spell. -/
def parse (tokens : List Token) : Except ExpressionError Expression := do
  let s ← Stacks.takeAll ⟨[], []⟩ tokens
  s.finish ((tokens.head?.map (·.line)).getD 1)

end Expression

end Stencil
