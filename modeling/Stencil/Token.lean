import Stencil.Text.Position
import Stencil.Text.Quoted
set_option autoImplicit false

namespace Stencil

inductive Token.Kind where
  | eof | text | blockStart | blockEnd | valueStart | valueEnd
  | name | number | string | operator | punctuation
  deriving DecidableEq, Repr

namespace Token.Kind

def describe : Kind → String
  | eof => "end of template"
  | text => "text"
  | blockStart => "begin of statement block"
  | blockEnd => "end of statement block"
  | valueStart => "begin of print statement"
  | valueEnd => "end of print statement"
  | name => "name"
  | number => "number"
  | string => "string"
  | operator => "operator"
  | punctuation => "punctuation"

def label : Kind → String
  | eof => "Eof"
  | text => "Text"
  | blockStart => "BlockStart"
  | blockEnd => "BlockEnd"
  | valueStart => "ValueStart"
  | valueEnd => "ValueEnd"
  | name => "Name"
  | number => "Number"
  | string => "String"
  | operator => "Operator"
  | punctuation => "Punctuation"

end Token.Kind

/-- The value is the token's own text, the offset counts the bytes before it, and lines count
from one. -/
structure Token where
  kind : Token.Kind
  value : String
  offset : Nat
  line : Nat
  deriving DecidableEq, Repr

namespace Token

def isPunct (t : Token) (symbol : String) : Bool := t.kind == .punctuation && t.value == symbol

def isOperator (t : Token) (symbol : String) : Bool := t.kind == .operator && t.value == symbol

def isName (t : Token) (word : String) : Bool := t.kind == .name && t.value == word

/-- How messages name a token: its value is shown unless it is text or the end. -/
def describe (t : Token) : String :=
  match t.kind with
  | .eof | .text => t.kind.describe
  | kind => kind.describe ++ " `" ++ t.value ++ "`"

def dump (t : Token) : String := t.kind.label ++ "(" ++ t.value ++ ")(" ++ toString t.line ++ ")"

/-- The content of a string token, without its quotes and with escapes resolved; the value of
any other token. The quotes are cut off as one byte at each end, and where that would cut a
character the program stops: there is no content. -/
def unquote (t : Token) : Option String :=
  let text := t.value.toList
  if t.kind ≠ .string || Text.size text < 2 then some t.value
  else if text.head?.all (·.utf8Size = 1) && text.getLast?.all (·.utf8Size = 1) then
    some (String.ofList (Text.Quoted.resolve text.tail.dropLast))
  else none

theorem unquote_of_kind {t : Token} (h : t.kind ≠ .string) : t.unquote = some t.value := by
  simp [unquote, h]

theorem unquote_quoted {q r : Char} (hq : q.utf8Size = 1) (hr : r.utf8Size = 1) (inner : List Char)
    (offset line : Nat) :
    (⟨.string, String.ofList (q :: inner ++ [r]), offset, line⟩ : Token).unquote
      = some (String.ofList (Text.Quoted.resolve inner)) := by
  have hsize : ¬ Text.size (q :: (inner ++ [r])) < 2 := by
    simp only [Text.size_append, Text.size, hq, hr]
    omega
  simp [unquote, hsize, hq, hr, List.getLast?_cons]

theorem unquote_write (s : List Char) (offset line : Nat) :
    (⟨.string, String.ofList (Text.Quoted.write s), offset, line⟩ : Token).unquote
      = some (String.ofList s) := by
  rw [Text.Quoted.write, unquote_quoted (by decide) (by decide),
    Text.Quoted.resolve_flatMap_escape]

def Legible (ts : List Token) : Prop := ∀ t ∈ ts, t.unquote.isSome = true

end Token

end Stencil
