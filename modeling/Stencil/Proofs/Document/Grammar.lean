import Stencil.Document
set_option autoImplicit false

namespace Stencil.Json

def isBlank (c : Char) : Bool := c == ' ' || c == '\n' || c == '\r' || c == '\t'

def Blanks (s : List Char) : Prop := ∀ c ∈ s, isBlank c = true

def letters : List (Char × Char) :=
  [('"', '"'), ('\\', '\\'), ('/', '/'), ('b', '\x08'), ('f', '\x0c'), ('n', '\n'), ('r', '\r'),
    ('t', '\t')]

def hexValue? (c : Char) : Option Nat :=
  if '0' ≤ c ∧ c ≤ '9' then some (c.toNat - 48)
  else if 'a' ≤ c ∧ c ≤ 'f' then some (c.toNat - 87)
  else if 'A' ≤ c ∧ c ≤ 'F' then some (c.toNat - 55)
  else none

def IsHex (c : Char) : Prop := (hexValue? c).isSome = true

/-- What may stand between the quotes of a string. -/
inductive Content : List Char → Prop where
  | nil : Content []
  | plain {c : Char} {s : List Char} (hq : c ≠ '"') (hb : c ≠ '\\') (hc : 32 ≤ c.toNat)
      (hs : Content s) : Content (c :: s)
  | letter {c d : Char} {s : List Char} (hc : (c, d) ∈ letters) (hs : Content s) :
      Content ('\\' :: c :: s)
  | code {a b c d : Char} {s : List Char} (ha : IsHex a) (hb : IsHex b) (hc : IsHex c)
      (hd : IsHex d) (hs : Content s) : Content ('\\' :: 'u' :: a :: b :: c :: d :: s)

def Digits (s : List Char) : Prop := s ≠ [] ∧ ∀ c ∈ s, c.isDigit = true

def Whole (s : List Char) : Prop := Digits s ∧ (s.head? = some '0' → s = ['0'])

def Fraction (s : List Char) : Prop := s = [] ∨ ∃ digits, s = '.' :: digits ∧ Digits digits

def Exponent (s : List Char) : Prop :=
  s = [] ∨ ∃ e ∈ ['e', 'E'], ∃ sign ∈ [[], ['+'], ['-']], ∃ digits,
    s = e :: sign ++ digits ∧ Digits digits

def Number (s : List Char) : Prop :=
  ∃ sign ∈ [[], ['-']], ∃ whole fraction exponent,
    s = sign ++ whole ++ fraction ++ exponent ∧ Whole whole ∧ Fraction fraction ∧
      Exponent exponent

mutual

inductive Value : List Char → Prop where
  | null : Value "null".toList
  | true : Value "true".toList
  | false : Value "false".toList
  | number {s : List Char} (hs : Number s) : Value s
  | string {s : List Char} (hs : Content s) : Value ('"' :: s ++ ['"'])
  | emptyList {s : List Char} (hs : Blanks s) : Value ('[' :: s ++ [']'])
  | list {s : List Char} (hs : Elements s) : Value ('[' :: s ++ [']'])
  | emptyRecord {s : List Char} (hs : Blanks s) : Value ('{' :: s ++ ['}'])
  | record {s : List Char} (hs : Members s) : Value ('{' :: s ++ ['}'])

inductive Element : List Char → Prop where
  | around {before s after : List Char} (hb : Blanks before) (hs : Value s) (ha : Blanks after) :
      Element (before ++ s ++ after)

inductive Elements : List Char → Prop where
  | one {s : List Char} (hs : Element s) : Elements s
  | cons {s t : List Char} (hs : Element s) (ht : Elements t) : Elements (s ++ ',' :: t)

inductive Member : List Char → Prop where
  | field {before key after s : List Char} (hb : Blanks before) (hk : Content key)
      (ha : Blanks after) (hs : Element s) :
      Member (before ++ '"' :: key ++ '"' :: after ++ ':' :: s)

inductive Members : List Char → Prop where
  | one {s : List Char} (hs : Member s) : Members s
  | cons {s t : List Char} (hs : Member s) (ht : Members t) : Members (s ++ ',' :: t)

end

/-- A text is JSON when it is one value and blanks around it. -/
def WellFormed (text : String) : Prop := Element text.toList

theorem hexValue?_hexDigit : ∀ n < 16, hexValue? (Document.hexDigit n) = some n := by decide

end Stencil.Json

namespace Stencil.Document

open Json

theorem escape_cases (c : Char) :
    (escape c = [c] ∧ c ≠ '"' ∧ c ≠ '\\' ∧ 32 ≤ c.toNat) ∨
    (∃ d, escape c = ['\\', d] ∧ (d, c) ∈ letters) ∨
    (escape c = ['\\', 'u', '0', '0', hexDigit (c.toNat / 16), hexDigit (c.toNat % 16)] ∧
      c.toNat < 32) := by
  unfold escape
  repeat' split
  all_goals first
    | exact .inl ⟨rfl, by assumption, by assumption, by omega⟩
    | exact .inr (.inr ⟨rfl, by assumption⟩)
    | exact .inr (.inl ⟨_, rfl, by simp_all [letters]⟩)

theorem content_flatMap_escape (s : List Char) : Content (s.flatMap escape) := by
  induction s with
  | nil => exact .nil
  | cons c s ih =>
    rw [List.flatMap_cons]
    obtain ⟨h, hq, hb, hc⟩ | ⟨d, h, hd⟩ | ⟨h, hc⟩ := escape_cases c
    · rw [h]
      exact .plain hq hb hc ih
    · rw [h]
      exact .letter hd ih
    · rw [h]
      have hhex {n : Nat} (hn : n < 16) : IsHex (hexDigit n) := by
        simp [IsHex, hexValue?_hexDigit n hn]
      exact .code (hhex (n := 0) (by omega)) (hhex (n := 0) (by omega)) (hhex (by omega))
        (hhex (by omega)) ih

theorem blanks_nil : Blanks [] := by simp [Blanks]

theorem newLine_eq (level : Nat) :
    ∃ s, Blanks s ∧ ∀ tail, newLine level tail = s ++ tail := by
  refine ⟨'\n' :: List.replicate (2 * level) ' ', ?_, fun _ => rfl⟩
  intro c hc
  obtain rfl | hc := List.mem_cons.1 hc
  · rfl
  · rw [List.eq_of_mem_replicate hc]
    rfl

mutual

theorem write_value (d : Document) (level : Nat) (tail : List Char) :
    ∃ s, Value s ∧ d.write level tail = s ++ tail := by
  match d with
  | .null => exact ⟨_, .null, rfl⟩
  | .string s => exact ⟨_, .string (content_flatMap_escape s.toList), by simp [write, writeString]⟩
  | .list [] => exact ⟨_, .emptyList blanks_nil, rfl⟩
  | .record [] => exact ⟨_, .emptyRecord blanks_nil, rfl⟩
  | .list (item :: rest) =>
    obtain ⟨w, hw, hline⟩ := newLine_eq level
    obtain ⟨s, hs, h⟩ :=
      writeItems_elements (item :: rest) (List.cons_ne_nil _ _) (level + 1) hw (']' :: tail)
    exact ⟨_, .list hs, by simp [write, hline, h]⟩
  | .record (field :: rest) =>
    obtain ⟨w, hw, hline⟩ := newLine_eq level
    obtain ⟨s, hs, h⟩ :=
      writeFields_members (field :: rest) (List.cons_ne_nil _ _) (level + 1) hw ('}' :: tail)
    exact ⟨_, .record hs, by simp [write, hline, h]⟩

/-- The blanks in front of the closing bracket belong to the last item. -/
theorem writeItems_elements (items : List Document) (hne : items ≠ []) (level : Nat)
    {after : List Char} (ha : Blanks after) (tail : List Char) :
    ∃ s, Elements s ∧ writeItems level items (after ++ tail) = s ++ tail := by
  obtain ⟨before, hb, hline⟩ := newLine_eq level
  match items with
  | [] => exact absurd rfl hne
  | [item] =>
    obtain ⟨s, hs, h⟩ := write_value item level (after ++ tail)
    exact ⟨_, .one (.around hb hs ha), by simp [writeItems, h, hline]⟩
  | item :: next :: rest =>
    obtain ⟨t, ht, hrest⟩ :=
      writeItems_elements (next :: rest) (List.cons_ne_nil _ _) level ha tail
    obtain ⟨s, hs, h⟩ := write_value item level (',' :: (t ++ tail))
    exact ⟨_, .cons (.around hb hs blanks_nil) ht, by simp [writeItems, hrest, h, hline]⟩

theorem writeFields_members (fields : List (String × Document)) (hne : fields ≠ [])
    (level : Nat) {after : List Char} (ha : Blanks after) (tail : List Char) :
    ∃ s, Members s ∧ writeFields level fields (after ++ tail) = s ++ tail := by
  obtain ⟨before, hb, hline⟩ := newLine_eq level
  have hblank : Blanks [' '] := by simp [Blanks, isBlank]
  match fields with
  | [] => exact absurd rfl hne
  | [(key, value)] =>
    obtain ⟨s, hs, h⟩ := write_value value level (after ++ tail)
    have hkey := content_flatMap_escape key.toList
    exact ⟨_, .one (.field hb hkey blanks_nil (.around hblank hs ha)),
      by simp [writeFields, writeString, h, hline]⟩
  | (key, value) :: next :: rest =>
    obtain ⟨t, ht, hrest⟩ :=
      writeFields_members (next :: rest) (List.cons_ne_nil _ _) level ha tail
    obtain ⟨s, hs, h⟩ := write_value value level (',' :: (t ++ tail))
    have hkey := content_flatMap_escape key.toList
    exact ⟨_, .cons (.field hb hkey blanks_nil (.around hblank hs blanks_nil)) ht,
      by simp [writeFields, writeString, hrest, h, hline]⟩

end

/-- A document is written as JSON. -/
theorem wellFormed_toString (d : Document) : WellFormed d.toString := by
  obtain ⟨s, hs, h⟩ := d.write_value 0 []
  have helement : Element ([] ++ s ++ []) := .around blanks_nil hs blanks_nil
  simpa [WellFormed, toString, h] using helement

end Stencil.Document
