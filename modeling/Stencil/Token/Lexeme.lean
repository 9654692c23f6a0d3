import Stencil.Text.Letter
import Stencil.Token
/-!
Lexemes: the names, numbers, strings, operators and punctuation marks inside a tag. Each reader
splits a text into the longest lexeme at its front and the rest; together they lose no character
and always take at least one.
-/
set_option autoImplicit false

namespace Stencil.Lexeme
open Text

/-- The longest way to go on with a name. A dot belongs to it only before the start of another
segment. -/
def nameTail : List Char → List Char × List Char
  | [] => ([], [])
  | c :: rest =>
    if isNameChar c || (c == '.' && rest.head?.any isNameStart) then
      let more := nameTail rest
      (c :: more.1, more.2)
    else ([], c :: rest)

theorem nameTail_append (s : List Char) : (nameTail s).1 ++ (nameTail s).2 = s := by
  induction s with
  | nil => rfl
  | cons c rest ih => rw [nameTail]; split <;> simp [ih]

def digits (s : List Char) : List Char × List Char :=
  (s.takeWhile Char.isDigit, s.dropWhile Char.isDigit)

theorem digits_append (s : List Char) : (digits s).1 ++ (digits s).2 = s :=
  List.takeWhile_append_dropWhile

def fraction : List Char → List Char × List Char
  | '.' :: rest =>
    let places := digits rest
    if places.1.isEmpty then ([], '.' :: rest) else ('.' :: places.1, places.2)
  | s => ([], s)

theorem fraction_append (s : List Char) : (fraction s).1 ++ (fraction s).2 = s := by
  unfold fraction
  split
  · dsimp only
    split <;> simp [digits_append]
  · rfl

def sign : List Char → List Char × List Char
  | '+' :: rest => (['+'], rest)
  | '-' :: rest => (['-'], rest)
  | s => ([], s)

theorem sign_append (s : List Char) : (sign s).1 ++ (sign s).2 = s := by
  unfold sign; split <;> rfl

def exponent : List Char → List Char × List Char
  | [] => ([], [])
  | c :: rest =>
    let mark := sign rest
    let places := digits mark.2
    if (c == 'e' || c == 'E') && !places.1.isEmpty then (c :: mark.1 ++ places.1, places.2)
    else ([], c :: rest)

theorem exponent_append (s : List Char) : (exponent s).1 ++ (exponent s).2 = s := by
  unfold exponent
  split
  · rfl
  · dsimp only
    split
    · simp [digits_append, sign_append]
    · rfl

def number (s : List Char) : List Char × List Char :=
  let whole := digits s
  let part := fraction whole.2
  let power := exponent part.2
  (whole.1 ++ part.1 ++ power.1, power.2)

theorem number_append (s : List Char) : (number s).1 ++ (number s).2 = s := by
  simp [number, exponent_append, fraction_append, digits_append]

theorem number_ne_nil {c : Char} {rest : List Char} (h : c.isDigit = true) :
    (number (c :: rest)).1 ≠ [] := by
  simp [number, digits, h]

/-- Symbolic operators, longer ones before their beginnings. -/
def symbols : List (List Char) :=
  [['>', '>', '='], ['<', '<', '='],
    ['+', '='], ['-', '='], ['+', '+'], ['-', '-'], ['>', '='], ['<', '='], ['&', '&'], ['|', '|'],
    ['>', '>'], ['<', '<'], ['&', '='], ['|', '='], ['=', '='], ['!', '='],
    ['+'], ['-'], ['*'], ['/'], ['%'], ['>'], ['<'], ['^'], ['&'], ['|'], ['=']]

def words : List (List Char) := [['a', 'n', 'd'], ['o', 'r'], ['i', 's']]

def marks : List Char := ['(', ')', '[', ']', '{', '}', '?', ':', ';', ',']

def symbol? (s : List Char) : Option (List Char) := symbols.find? (·.isPrefixOf s)

theorem symbol?_spec {s o : List Char} (h : symbol? s = some o) :
    o ++ s.drop o.length = s ∧ o ≠ [] := by
  have hp : o.isPrefixOf s = true := by
    simpa using List.find?_some (p := fun p => List.isPrefixOf p s) h
  have hm : o ∈ symbols := List.mem_of_find?_eq_some h
  constructor
  · obtain ⟨t, ht⟩ := List.isPrefixOf_iff_prefix.1 hp
    simp [← ht]
  · rintro rfl
    simp [symbols] at hm

end Stencil.Lexeme

namespace Stencil

/-- The lexeme at the front of a text that does not begin with a blank, and what follows it. -/
def lexeme? (s : List Char) : Option (Token.Kind × List Char × List Char) :=
  match Lexeme.symbol? s, s with
  | some o, _ => some (.operator, o, s.drop o.length)
  | none, [] => none
  | none, c :: rest =>
    if Text.isNameStart c then
      let more := Lexeme.nameTail rest
      let name := c :: more.1
      some (if Lexeme.words.contains name then .operator else .name, name, more.2)
    else if c.isDigit then some (.number, Lexeme.number (c :: rest))
    else if c == '"' || c == '\'' then
      (Text.Quoted.tail c rest).map fun (run, after) => (.string, c :: run, after)
    else if Lexeme.marks.contains c then some (.punctuation, [c], rest)
    else none

theorem lexeme?_spec {s text rest : List Char} {kind : Token.Kind}
    (h : lexeme? s = some (kind, text, rest)) : text ++ rest = s ∧ text ≠ [] := by
  unfold lexeme? at h
  split at h
  · rename_i o _ ho
    simp only [Option.some.injEq, Prod.mk.injEq] at h
    obtain ⟨_, rfl, rfl⟩ := h
    exact Lexeme.symbol?_spec ho
  · simp at h
  · rename_i c rest' _
    split at h
    · simp only [Option.some.injEq, Prod.mk.injEq] at h
      obtain ⟨_, rfl, rfl⟩ := h
      simp [Lexeme.nameTail_append]
    · split at h
      · rename_i hd
        simp only [Option.some.injEq, Prod.mk.injEq] at h
        obtain ⟨_, h⟩ := h
        have ha := Lexeme.number_append (c :: rest')
        have hn := @Lexeme.number_ne_nil _ rest' hd
        rw [h] at ha hn
        exact ⟨ha, hn⟩
      · split at h
        · obtain ⟨⟨run, after⟩, hr, he⟩ := Option.map_eq_some_iff.1 h
          simp only [Prod.mk.injEq] at he
          obtain ⟨_, rfl, rfl⟩ := he
          simp [Text.Quoted.tail_append hr]
        · split at h
          · simp only [Option.some.injEq, Prod.mk.injEq] at h
            obtain ⟨_, rfl, rfl⟩ := h
            simp
          · simp at h

theorem length_lexeme?_lt {s text rest : List Char} {kind : Token.Kind}
    (h : lexeme? s = some (kind, text, rest)) : rest.length < s.length := by
  obtain ⟨rfl, hne⟩ := lexeme?_spec h
  have := List.length_pos_iff.2 hne
  simp; omega

end Stencil
