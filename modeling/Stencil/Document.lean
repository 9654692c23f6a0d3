set_option autoImplicit false

namespace Stencil

inductive Document where
  | null
  | string (s : String)
  | list (items : List Document)
  | record (fields : List (String × Document))

namespace Document

def ofOption {α : Type} (f : α → Document) : Option α → Document
  | none => null
  | some a => f a

def hexDigit (n : Nat) : Char := if n < 10 then Char.ofNat (48 + n) else Char.ofNat (87 + n)

/-- Quotes, backslashes and the characters below the space are escaped, the more common of them by
a letter. -/
def escape (c : Char) : List Char :=
  if c = '"' then ['\\', '"']
  else if c = '\\' then ['\\', '\\']
  else if c = '\x08' then ['\\', 'b']
  else if c = '\x0c' then ['\\', 'f']
  else if c = '\n' then ['\\', 'n']
  else if c = '\r' then ['\\', 'r']
  else if c = '\t' then ['\\', 't']
  else if c.toNat < 32 then ['\\', 'u', '0', '0', hexDigit (c.toNat / 16), hexDigit (c.toNat % 16)]
  else [c]

def writeString (s : String) (tail : List Char) : List Char :=
  '"' :: s.toList.flatMap escape ++ '"' :: tail

def newLine (level : Nat) (tail : List Char) : List Char :=
  '\n' :: List.replicate (2 * level) ' ' ++ tail

mutual

/-- A document in front of a tail. -/
def write (level : Nat) : Document → List Char → List Char
  | null, tail => 'n' :: 'u' :: 'l' :: 'l' :: tail
  | string s, tail => writeString s tail
  | list [], tail => '[' :: ']' :: tail
  | list (item :: rest), tail =>
    '[' :: writeItems (level + 1) (item :: rest) (newLine level (']' :: tail))
  | record [], tail => '{' :: '}' :: tail
  | record (field :: rest), tail =>
    '{' :: writeFields (level + 1) (field :: rest) (newLine level ('}' :: tail))

def writeItems (level : Nat) : List Document → List Char → List Char
  | [], tail => tail
  | [item], tail => newLine level (item.write level tail)
  | item :: rest, tail => newLine level (item.write level (',' :: writeItems level rest tail))

def writeFields (level : Nat) : List (String × Document) → List Char → List Char
  | [], tail => tail
  | [(key, value)], tail => newLine level (writeString key (':' :: ' ' :: value.write level tail))
  | (key, value) :: rest, tail =>
    newLine level (writeString key (':' :: ' ' ::
      value.write level (',' :: writeFields level rest tail)))

end

def toString (d : Document) : String := String.ofList (d.write 0 [])

end Document

end Stencil
