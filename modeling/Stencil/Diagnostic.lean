import Stencil.Source
import Stencil.Statement.Draft
import Stencil.Token.Template
set_option autoImplicit false

namespace Stencil

inductive CompileError where
  | lex (error : LexError)
  | parse (error : ParseError)
  deriving DecidableEq, Repr

namespace CompileError

def line : CompileError → Nat
  | lex e => e.line
  | parse e => e.line

def message : CompileError → String
  | lex e => e.message
  | parse e => e.message

end CompileError

structure Diagnostic where
  identity : String
  error : CompileError
  context : List Source.ContextLine
  deriving DecidableEq, Repr

namespace Diagnostic

def ofError (source : Source) (error : CompileError) (radius : Nat) : Diagnostic :=
  ⟨source.identity, error, source.context error.line radius⟩

def line (d : Diagnostic) : Nat := d.error.line

def headline (d : Diagnostic) : String :=
  d.identity ++ ":" ++ toString d.line ++ ": " ++ d.error.message

def width (d : Diagnostic) : Nat :=
  match d.context.getLast? with
  | none => 1
  | some l => (toString l.number).length

def renderLine (width : Nat) (l : Source.ContextLine) : String :=
  let digits := toString l.number
  let pad := String.ofList (List.replicate (width - digits.length) ' ')
  (if l.flagged then "> " else "  ") ++ pad ++ digits ++ " | " ++ l.text ++ "\n"

def render (d : Diagnostic) : String :=
  d.headline ++ "\n" ++ String.join (d.context.map (renderLine d.width))

end Diagnostic

namespace Source

/-- The tree of a source, before any error is placed in its context. -/
def parse (s : Source) : Except CompileError Tree :=
  match tokenize s.text with
  | .error e => .error (.lex e)
  | .ok tokens => (Tree.parse (TokenStream.ofTokens tokens)).mapError .parse

/-- The tree of a source, or its error with so many lines on either side. -/
def compile (s : Source) (radius : Nat) : Except Diagnostic Tree :=
  s.parse.mapError fun e => Diagnostic.ofError s e radius

end Source

end Stencil
