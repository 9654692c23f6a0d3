import Stencil.Assignment
set_option autoImplicit false

namespace Stencil

mutual

inductive Statement where
  | text (literal : String)
  | value (expr : Expression)
  | assign (assignment : Assignment)
  | conditional (test : Expression) (body : List Statement) (branch : Branch)
  | loop (start : Option Assignment) (test : Option Expression) (step : Option Assignment)
    (body : List Statement)
  | range (key value : Option String) (source : Expression) (body : List Statement)
  | block (name : String) (body : List Statement)
  | inclusion (template : String) (params : List Assignment)

inductive Branch where
  | none
  | elseIf (test : Expression) (body : List Statement) (branch : Branch)
  | otherwise (body : List Statement)

end

namespace Statement

mutual

def same : Statement → Statement → Bool
  | text a, text b => a == b
  | value a, value b => a == b
  | assign a, assign b => a == b
  | conditional e s x, conditional f t y => e == f && sameAll s t && sameBranch x y
  | loop i e p s, loop j f q t => i == j && e == f && p == q && sameAll s t
  | range k v e s, range l w f t => k == l && v == w && e == f && sameAll s t
  | block a s, block b t => a == b && sameAll s t
  | inclusion a s, inclusion b t => a == b && s == t
  | _, _ => false

def sameAll : List Statement → List Statement → Bool
  | [], [] => true
  | a :: s, b :: t => same a b && sameAll s t
  | _, _ => false

def sameBranch : Branch → Branch → Bool
  | .none, .none => true
  | .elseIf e s x, .elseIf f t y => e == f && sameAll s t && sameBranch x y
  | .otherwise s, .otherwise t => sameAll s t
  | _, _ => false

end

mutual

theorem same_iff (a b : Statement) : same a b = true ↔ a = b := by
  cases a with
  | conditional e s x =>
    cases b with
    | conditional f t y => simp [same, sameAll_iff s t, sameBranch_iff x y, and_assoc]
    | _ => simp [same]
  | loop i e p s =>
    cases b with
    | loop j f q t => simp [same, sameAll_iff s t, and_assoc]
    | _ => simp [same]
  | range k v e s =>
    cases b with
    | range l w f t => simp [same, sameAll_iff s t, and_assoc]
    | _ => simp [same]
  | block n s =>
    cases b with
    | block m t => simp [same, sameAll_iff s t]
    | _ => simp [same]
  | _ => cases b <;> simp [same]

theorem sameAll_iff (s t : List Statement) : sameAll s t = true ↔ s = t := by
  match s, t with
  | [], [] => simp [sameAll]
  | [], _ :: _ => simp [sameAll]
  | _ :: _, [] => simp [sameAll]
  | a :: s, b :: t => simp [sameAll, same_iff a b, sameAll_iff s t]

theorem sameBranch_iff (x y : Branch) : sameBranch x y = true ↔ x = y := by
  cases x with
  | none => cases y <;> simp [sameBranch]
  | elseIf e s x =>
    cases y with
    | elseIf f t y => simp [sameBranch, sameAll_iff s t, sameBranch_iff x y, and_assoc]
    | _ => simp [sameBranch]
  | otherwise s =>
    cases y with
    | otherwise t => simp [sameBranch, sameAll_iff s t]
    | _ => simp [sameBranch]

end

instance : DecidableEq Statement := fun a b => decidable_of_iff _ (same_iff a b)

end Statement

structure Tree where
  statements : List Statement
  extend : Option String
  deriving DecidableEq

mutual

/-- The body of the first block of a given name, a block before the blocks inside it. -/
def Statement.block? (name : String) : Statement → Option (List Statement)
  | .block n body => if n = name then some body else Statement.blockIn? name body
  | .conditional _ body branch => (Statement.blockIn? name body).or (branch.block? name)
  | .loop _ _ _ body => Statement.blockIn? name body
  | .range _ _ _ body => Statement.blockIn? name body
  | .text _ | .value _ | .assign _ | .inclusion _ _ => none

def Statement.blockIn? (name : String) : List Statement → Option (List Statement)
  | [] => none
  | s :: rest => (s.block? name).or (Statement.blockIn? name rest)

def Branch.block? (name : String) : Branch → Option (List Statement)
  | .none => none
  | .elseIf _ body branch => (Statement.blockIn? name body).or (branch.block? name)
  | .otherwise body => Statement.blockIn? name body

end

def Tree.block? (tree : Tree) (name : String) : Option (List Statement) :=
  Statement.blockIn? name tree.statements

end Stencil
