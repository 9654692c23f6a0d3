import Stencil.Assignment.Reader
import Stencil.Split
/-!
Directives: what the tags of a template say, each taken by itself. The tokens of a template are
first cut into segments, which are texts, value tags and block tags; a block tag then reads as a
directive by its keyword.
-/
set_option autoImplicit false

namespace Stencil

inductive Segment where
  | text (literal : String)
  | value (inside : List Token) (close : Token)
  | block (keyword : Token) (args : List Token) (close : Token)
  deriving DecidableEq, Repr

namespace Segment

def read (line : Nat) (t : Token) (rest : List Token) :
    Except ParseError (Segment × List Token) :=
  let atEnd : ParseError := ⟨.endOfTemplate none, line⟩
  match t.kind with
  | .text => .ok (text t.value, rest)
  | .valueStart =>
    match breakAt? (·.kind == .valueEnd) rest with
    | none => .error atEnd
    | some (inside, close, after) => .ok (value inside close, after)
  | .blockStart =>
    match rest with
    | [] => .error atEnd
    | keyword :: rest =>
      if keyword.kind ≠ .name then .error (ParseError.unexpected keyword)
      else match breakAt? (·.kind == .blockEnd) rest with
        | none => .error atEnd
        | some (args, close, after) => .ok (block keyword args close, after)
  | _ => .error (ParseError.unexpected t)

theorem length_read_le {line : Nat} {t : Token} {rest after : List Token} {s : Segment}
    (h : read line t rest = .ok (s, after)) : after.length ≤ rest.length := by
  have hb {p : Token → Bool} {l before left : List Token} {b : Token}
      (hl : breakAt? p l = some (before, b, left)) : left.length ≤ l.length := by
    have := congrArg List.length (breakAt?_eq_some hl).1
    simp only [List.length_append, List.length_cons] at this
    omega
  unfold read at h
  dsimp only at h
  split at h
  · simp_all
  · split at h
    · simp at h
    · rename_i hs
      simp only [Except.ok.injEq, Prod.mk.injEq] at h
      obtain ⟨_, rfl⟩ := h
      exact hb hs
  · split at h
    · simp at h
    · split at h
      · simp at h
      · split at h
        · simp at h
        · rename_i hs
          simp only [Except.ok.injEq, Prod.mk.injEq] at h
          obtain ⟨_, rfl⟩ := h
          exact Nat.le_succ_of_le (hb hs)
  · simp at h

def split (line : Nat) : List Token → List Segment × Option ParseError
  | [] => ([], none)
  | t :: rest =>
    match _h : read line t rest with
    | .error e => ([], some e)
    | .ok (s, after) =>
      let more := split line after
      (s :: more.1, more.2)
termination_by tokens => tokens.length
decreasing_by exact Nat.lt_succ_of_le (length_read_le _h)

end Segment

inductive Directive where
  | openIf (test : Expression)
  | elseIf (test : Expression)
  | otherwise
  | openLoop (start : Option Assignment) (test : Option Expression) (step : Option Assignment)
  | openRange (key value : Option String) (source : Expression)
  | openBlock (name : String)
  | close (construct : Construct)
  | assign (assignment : Assignment)
  | inclusion (template : String) (params : List Assignment)
  | extend (template : String)

namespace Directive

/-- An expression that has to be there; a missing one is reported at the closing token. -/
def expression (close : Token) (tokens : List Token) : Except ParseError Expression :=
  if tokens.isEmpty then .error (ParseError.unexpected close) else Expression.parseIn tokens

def expression? (tokens : List Token) : Except ParseError (Option Expression) :=
  if tokens.isEmpty then .ok none else (Expression.parseIn tokens).map some

def assignment? : List Token → Except ParseError (Option Assignment)
  | [] => .ok none
  | first :: rest => (Assignment.parse first.line (first :: rest)).map some

def noArgs : List Token → Except ParseError Unit
  | [] => .ok ()
  | extra :: _ => .error (ParseError.unexpected extra)

def onlyArg (kind : Token.Kind) (close : Token) : List Token → Except ParseError Token
  | [] => .error (ParseError.unexpected close)
  | [t] => if t.kind = kind then .ok t else .error (ParseError.unexpected t)
  | _ :: extra :: _ => .error (ParseError.unexpected extra)

/-- A loop has a test, or a start, a test and a step between semicolons; each may be left out. -/
def parseLoop (close : Token) (args : List Token) : Except ParseError Directive :=
  match separate (·.isPunct ";") args with
  | [test] => do return openLoop none (← expression? test) none
  | [start, test, step] => do
    return openLoop (← assignment? start) (← expression? test) (← assignment? step)
  | _ =>
    match args.reverse.find? (·.isPunct ";") with
    | some t => .error (ParseError.unexpected t)
    | none => .error ⟨.unexpected "`for` clauses", close.line⟩

def misplaced? : List Token → Option Token
  | [] => none
  | key :: rest =>
    if key.kind ≠ .name then some key
    else match rest with
      | [] => none
      | comma :: names => if comma.isPunct "," then names.find? (·.kind != .name) else some comma

def binding (t : Token) : Option String := if t.value = "_" then none else some t.value

def bindings (equals : Token) (tokens : List Token) :
    Except ParseError (Option String × Option String) :=
  match misplaced? tokens, tokens with
  | some t, _ => .error (ParseError.unexpected t)
  | none, [key] => .ok (binding key, none)
  | none, [key, _, value] => .ok (binding key, binding value)
  | none, _ => .error (ParseError.unexpected equals)

def parseRange (close : Token) (args : List Token) : Except ParseError Directive :=
  match breakAt? (·.isOperator "=") args, args with
  | some (names, equals, source), _ => do
    let (key, value) ← bindings equals names
    return openRange key value (← expression close source)
  | none, [] => .error (ParseError.unexpected close)
  | none, first :: _ => .error (ParseError.unexpected (if first.kind = .name then close else first))

/-- The assignments between semicolons; empty ones are passed over. -/
def parseParams : List (List Token) → Except ParseError (List Assignment)
  | [] => .ok []
  | clause :: rest => do
    match ← assignment? clause with
    | none => parseParams rest
    | some a => return a :: (← parseParams rest)

def template (t : Token) : Except ParseError String :=
  match t.unquote with
  | some name => .ok name
  | none => .error ⟨.panic, t.line⟩

def parseInclusion (close : Token) : List Token → Except ParseError Directive
  | [] => .error (ParseError.unexpected close)
  | first :: rest =>
    if first.kind ≠ .string then .error (ParseError.unexpected first)
    else do
      let name ← template first
      match rest with
      | [] => return inclusion name []
      | word :: clauses =>
        if !word.isName "with" then throw (ParseError.unexpected word)
        let params ← parseParams (separate (·.isPunct ";") clauses)
        if params.isEmpty then throw (ParseError.unexpected word)
        return inclusion name params

def parse (keyword : Token) (args : List Token) (closing : Token) : Except ParseError Directive :=
  match keyword.value with
  | "if" => (expression closing args).map openIf
  | "elseif" => (expression closing args).map elseIf
  | "else" => (noArgs args).map fun _ => otherwise
  | "for" => parseLoop closing args
  | "range" => parseRange closing args
  | "block" => (onlyArg .name closing args).map fun t => openBlock t.value
  | "set" => (Assignment.parse keyword.line args).map assign
  | "include" => parseInclusion closing args
  | "extend" => do return extend (← template (← onlyArg .string closing args))
  | word =>
    match Construct.ofCloser? word with
    | some construct => (noArgs args).map fun _ => close construct
    | none => .error (ParseError.unexpected keyword)

end Directive

end Stencil
