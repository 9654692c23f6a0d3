import Stencil.Text.Letter
import Stencil.Text.Position
/-!
Lengths of lexemes in bytes, counted along a text without building anything. Numbers and strings
are counted byte by byte, and a backslash in a string takes the next byte along, which may be the
first of several that make up one character; names are counted by whole characters.
-/
set_option autoImplicit false

namespace Stencil.Text

def bytes (s : List Char) : List UInt8 := s.flatMap String.utf8EncodeChar

example (s : List Char) : (bytes s).toByteArray = (String.ofList s).toByteArray := rfl

end Stencil.Text

namespace Stencil.Length
open Text

def isDigit (b : UInt8) : Bool := '0'.toUInt8 ≤ b && b ≤ '9'.toUInt8

def digits (s : List UInt8) : Nat := (s.takeWhile isDigit).length

/-- A point counts only with a digit after it. -/
def fraction : List UInt8 → Nat
  | [] => 0
  | b :: rest =>
    let places := digits rest
    if b = '.'.toUInt8 ∧ 0 < places then 1 + places else 0

def sign : List UInt8 → Nat
  | [] => 0
  | b :: _ => if b = '+'.toUInt8 ∨ b = '-'.toUInt8 then 1 else 0

/-- An exponent mark counts only with a digit after it or after its sign. -/
def exponent : List UInt8 → Nat
  | [] => 0
  | b :: rest =>
    let mark := sign rest
    let places := digits (rest.drop mark)
    if (b = 'e'.toUInt8 ∨ b = 'E'.toUInt8) ∧ 0 < places then 1 + mark + places else 0

def number (s : List UInt8) : Nat :=
  let whole := digits s
  let part := fraction (s.drop whole)
  whole + part + exponent (s.drop (whole + part))

def closing? (quote : UInt8) : List UInt8 → Option Nat
  | [] => none
  | b :: rest =>
    if b = '\\'.toUInt8 then
      match rest with
      | [] => none
      | _ :: rest => (closing? quote rest).map (· + 2)
    else if b = quote then some 1
    else (closing? quote rest).map (· + 1)

/-- The bytes of the string at the front, whose first byte is its quote. -/
def string? : List UInt8 → Option Nat
  | [] => none
  | quote :: rest => (closing? quote rest).map (· + 1)

def segment : List Char → List Char × List Char
  | [] => ([], [])
  | c :: rest =>
    if isNameStart c then (c :: rest.takeWhile isNameChar, rest.dropWhile isNameChar)
    else ([], c :: rest)

theorem length_segment_le (s : List Char) : (segment s).2.length ≤ s.length := by
  cases s with
  | nil => exact Nat.le_refl 0
  | cons c rest =>
    have := (List.dropWhile_suffix (l := rest) isNameChar).length_le
    rw [segment]
    split
    · exact Nat.le_succ_of_le this
    · exact Nat.le_refl _

def segments : List Char → Nat
  | [] => 0
  | c :: rest =>
    if c = '.' then
      let next := segment rest
      if next.1.isEmpty then 0 else 1 + size next.1 + segments next.2
    else 0
termination_by s => s.length
decreasing_by exact Nat.lt_succ_of_le (length_segment_le rest)

def name (s : List Char) : Nat :=
  let first := segment s
  size first.1 + segments first.2

end Stencil.Length
