/-!
Expressions: names, literals, binary operators, indexing and calls. Only the shape is kept; what an
expression means is left to whoever renders the template.
-/
set_option autoImplicit false

namespace Stencil

inductive BinaryOp where
  | eq | ne | gt | ge | lt | le | add | sub | mul | div | mod
  deriving DecidableEq, Repr

namespace BinaryOp

def symbol : BinaryOp → String
  | eq => "=="
  | ne => "!="
  | gt => ">"
  | ge => ">="
  | lt => "<"
  | le => "<="
  | add => "+"
  | sub => "-"
  | mul => "*"
  | div => "/"
  | mod => "%"

def ofSymbol? (s : String) : Option BinaryOp :=
  [eq, ne, gt, ge, lt, le, add, sub, mul, div, mod].find? (·.symbol == s)

theorem ofSymbol?_symbol (op : BinaryOp) : ofSymbol? op.symbol = some op := by
  cases op <;> decide

/-- An operator of higher priority binds tighter; equal priorities group to the left. -/
def priority : BinaryOp → Nat
  | eq | ne | gt | ge | lt | le => 0
  | add | sub => 5
  | mul | div | mod => 10

end BinaryOp

/-- A number keeps its spelling, a string its content. A call has no argument list when nothing is
written between its parentheses. -/
inductive Expression where
  | identifier (name : String)
  | number (text : String)
  | string (text : String)
  | binary (op : BinaryOp) (left right : Expression)
  | index (base position : Expression)
  | call (function : String) (args : Option (List Expression))
  deriving Repr

namespace Expression

def indexPriority : Nat := 15

def priority : Expression → Nat
  | binary op _ _ => op.priority
  | _ => indexPriority

theorem priority_le (e : Expression) : e.priority ≤ indexPriority := by
  cases e with
  | binary op l r => cases op <;> simp [priority, BinaryOp.priority, indexPriority]
  | _ => exact Nat.le_refl _

mutual

def same : Expression → Expression → Bool
  | identifier a, identifier b => a == b
  | number a, number b => a == b
  | string a, string b => a == b
  | binary o a b, binary p c d => o == p && same a c && same b d
  | index a b, index c d => same a c && same b d
  | call f none, call g none => f == g
  | call f (some a), call g (some b) => f == g && sameAll a b
  | _, _ => false

def sameAll : List Expression → List Expression → Bool
  | [], [] => true
  | a :: s, b :: t => same a b && sameAll s t
  | _, _ => false

end

mutual

theorem same_iff (a b : Expression) : same a b = true ↔ a = b := by
  match a, b with
  | identifier _, b => cases b <;> simp [same]
  | number _, b => cases b <;> simp [same]
  | string _, b => cases b <;> simp [same]
  | binary _ a b, binary _ c d => simp [same, same_iff a c, same_iff b d, and_assoc]
  | index a b, index c d => simp [same, same_iff a c, same_iff b d]
  | call _ none, call _ none => simp [same]
  | call _ (some s), call _ (some t) => simp [same, sameAll_iff s t]
  | binary .., identifier _ | binary .., number _ | binary .., string _ | binary .., index ..
  | binary .., call .. | index .., identifier _ | index .., number _ | index .., string _
  | index .., binary .. | index .., call .. | call _ none, call _ (some _)
  | call _ (some _), call _ none | call .., identifier _ | call .., number _ | call .., string _
  | call .., binary .. | call .., index .. => simp [same]

theorem sameAll_iff (s t : List Expression) : sameAll s t = true ↔ s = t := by
  match s, t with
  | [], [] => simp [sameAll]
  | [], _ :: _ => simp [sameAll]
  | _ :: _, [] => simp [sameAll]
  | a :: s, b :: t => simp [sameAll, same_iff a b, sameAll_iff s t]

end

instance : DecidableEq Expression := fun a b => decidable_of_iff _ (same_iff a b)

end Expression

end Stencil
