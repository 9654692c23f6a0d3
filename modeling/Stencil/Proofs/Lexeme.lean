import Stencil.Text.Blank
import Stencil.Token.Lexeme
set_option autoImplicit false

namespace Stencil.Text

theorem inRanges_of_isBlank {ranges : List (Nat × Nat)}
    (table : ∀ r ∈ blankRanges, ∀ n ∈ List.range' r.1 (r.2 + 1 - r.1), inRanges ranges n = false)
    {c : Char} (h : isBlank c = true) : inRanges ranges c.toNat = false := by
  obtain ⟨r, hr, hlow, hhigh⟩ := exists_of_inRanges h
  exact table r hr c.toNat (by rw [List.mem_range'_1]; omega)

theorem isAlphabetic_of_isBlank {c : Char} (h : isBlank c = true) : isAlphabetic c = false :=
  inRanges_of_isBlank (by decide +kernel) h

theorem isNumeric_of_isBlank {c : Char} (h : isBlank c = true) : isNumeric c = false :=
  inRanges_of_isBlank (by decide +kernel) h

theorem isNameStart_of_isBlank {c : Char} (h : isBlank c = true) : isNameStart c = false := by
  have hu : c ≠ '_' := by
    rintro rfl
    revert h
    decide
  simp [isNameStart, isAlphabetic_of_isBlank h, hu]

theorem isNameChar_of_isBlank {c : Char} (h : isBlank c = true) : isNameChar c = false := by
  simp [isNameChar, isNameStart_of_isBlank h, isNumeric_of_isBlank h]

theorem toNat_of_isDigit {c : Char} (h : c.isDigit = true) : 48 ≤ c.toNat ∧ c.toNat ≤ 57 := by
  simp only [Char.isDigit, Bool.and_eq_true, decide_eq_true_eq] at h
  exact h

theorem isNameStart_of_isDigit {c : Char} (h : c.isDigit = true) : isNameStart c = false := by
  have table : ∀ n ∈ List.range' 48 10, inRanges alphabeticRanges n = false := by decide
  have hn := toNat_of_isDigit h
  have hu : c ≠ '_' := by
    rintro rfl
    revert h
    decide
  have ha : isAlphabetic c = false := table c.toNat (by rw [List.mem_range'_1]; omega)
  simp [isNameStart, ha, hu]

theorem isNameChar_of_isDigit {c : Char} (h : c.isDigit = true) : isNameChar c = true := by
  obtain ⟨hlow, hhigh⟩ := toNat_of_isDigit h
  have hn : isNumeric c = true := by
    simp [isNumeric, numericRanges, inRanges, hhigh, Nat.not_lt.2 hlow]
  simp [isNameChar, hn]

end Stencil.Text

namespace Stencil.Lexeme
open Text

def Word (s : List Char) : Prop :=
  ∃ c rest, s = c :: rest ∧ isNameStart c = true ∧ ∀ d ∈ rest, isNameChar d = true

inductive Dotted : List Char → Prop where
  | segment {s : List Char} (hs : Word s) : Dotted s
  | dot {s t : List Char} (hs : Word s) (ht : Dotted t) : Dotted (s ++ '.' :: t)

def Digits (s : List Char) : Prop := s ≠ [] ∧ ∀ c ∈ s, c.isDigit = true

def Fraction (s : List Char) : Prop := s = [] ∨ ∃ places, s = '.' :: places ∧ Digits places

def Power (s : List Char) : Prop :=
  s = [] ∨ ∃ mark sign places, s = mark :: sign ++ places ∧ (mark = 'e' ∨ mark = 'E') ∧
    sign ∈ [[], ['+'], ['-']] ∧ Digits places

/-- Digits, perhaps a fraction, perhaps a power of ten. -/
def Numeral (s : List Char) : Prop :=
  ∃ whole part power, s = whole ++ part ++ power ∧ Digits whole ∧ Fraction part ∧ Power power

/-- What follows does not go on with a name or a number. -/
def Ends (rest : List Char) : Prop := ∀ c ∈ rest.head?, isNameChar c = false ∧ c ≠ '.'

theorem Word.snoc {s : List Char} {c : Char} (hs : Word s) (hc : isNameChar c = true) :
    Word (s ++ [c]) := by
  obtain ⟨d, rest, rfl, hd, hr⟩ := hs
  refine ⟨d, rest ++ [c], rfl, hd, ?_⟩
  intro e he
  cases List.mem_append.1 he with
  | inl he => exact hr e he
  | inr he => rw [List.mem_singleton.1 he]; exact hc

/-- A segment is continued to a name, and where a segment may start a name is read. -/
theorem dotted_nameTail_both (rest : List Char) :
    (∀ s, Word s → Dotted (s ++ (nameTail rest).1)) ∧
      (rest.head?.any isNameStart = true → Dotted (nameTail rest).1) := by
  induction rest with
  | nil => exact ⟨fun s hs => by simpa [nameTail] using .segment hs, by simp⟩
  | cons c rest ih =>
    obtain ⟨hgo, hstart⟩ := ih
    constructor
    · intro s hs
      rw [nameTail]
      by_cases hc : isNameChar c = true
      · have := hgo (s ++ [c]) (hs.snoc hc)
        simpa [hc] using this
      · by_cases hd : c = '.' ∧ rest.head?.any isNameStart = true
        · obtain ⟨rfl, hr⟩ := hd
          simpa [hr] using Dotted.dot hs (hstart hr)
        · have hn : (isNameChar c || (c == '.' && rest.head?.any isNameStart)) = false := by
            simp_all
          simpa [hn] using Dotted.segment hs
    · intro hc
      have hc : isNameStart c = true := by simpa using hc
      have := hgo [c] ⟨c, [], rfl, hc, by simp⟩
      simpa [nameTail, isNameChar_of_isNameStart hc] using this

theorem dotted_nameTail {c : Char} (hc : isNameStart c = true) (rest : List Char) :
    Dotted (c :: (nameTail rest).1) :=
  (dotted_nameTail_both rest).1 [c] ⟨c, [], rfl, hc, by simp⟩

theorem nameTail_chars {s : List Char} (hs : ∀ c ∈ s, isNameChar c = true) (rest : List Char) :
    nameTail (s ++ rest) = (s ++ (nameTail rest).1, (nameTail rest).2) := by
  induction s with
  | nil => rfl
  | cons c s ih =>
    have hc : isNameChar c = true := hs c (by simp)
    simp [nameTail, hc, ih fun d hd => hs d (by simp [hd])]

theorem nameTail_ends {rest : List Char} (h : Ends rest) : nameTail rest = ([], rest) := by
  cases rest with
  | nil => rfl
  | cons c rest =>
    obtain ⟨hc, hd⟩ := h c (by simp)
    simp [nameTail, hc, hd]

theorem Word.chars {s : List Char} (h : Word s) : ∀ c ∈ s, isNameChar c = true := by
  obtain ⟨d, rest, rfl, hd, hr⟩ := h
  intro c hc
  cases hc with
  | head => exact isNameChar_of_isNameStart hd
  | tail _ hc => exact hr c hc

theorem Dotted.head {s : List Char} (h : Dotted s) :
    ∃ c rest, s = c :: rest ∧ isNameStart c = true := by
  cases h with
  | segment hs => obtain ⟨c, rest, rfl, hc, _⟩ := hs; exact ⟨c, rest, rfl, hc⟩
  | dot hs => obtain ⟨c, rest, rfl, hc, _⟩ := hs; exact ⟨c, _, rfl, hc⟩

theorem nameTail_dotted {s : List Char} (hs : Dotted s) (rest : List Char) :
    nameTail (s ++ rest) = (s ++ (nameTail rest).1, (nameTail rest).2) := by
  induction hs with
  | segment hs => exact nameTail_chars hs.chars rest
  | @dot s t hs ht ih =>
    obtain ⟨c, more, rfl, hc⟩ := ht.head
    rw [List.append_assoc, nameTail_chars hs.chars]
    have hd : nameTail ('.' :: (c :: more ++ rest))
        = ('.' :: c :: more ++ (nameTail rest).1, (nameTail rest).2) := by
      rw [nameTail, ih]
      simp [hc]
    rw [List.cons_append, hd, List.append_assoc]

theorem digits_forms (s : List Char) : ∀ c ∈ (digits s).1, c.isDigit = true := by
  exact List.all_eq_true.1 List.all_takeWhile

theorem fraction_form (s : List Char) : Fraction (fraction s).1 := by
  unfold fraction
  split
  · rename_i rest
    dsimp only
    split
    · exact .inl rfl
    · rename_i hne
      exact .inr ⟨_, rfl, by simpa using hne, digits_forms rest⟩
  · exact .inl rfl

theorem sign_form (s : List Char) : (sign s).1 ∈ [[], ['+'], ['-']] := by
  unfold sign
  split <;> simp

theorem exponent_form (s : List Char) : Power (exponent s).1 := by
  unfold exponent
  split
  · exact .inl rfl
  · rename_i c rest
    dsimp only
    split
    · rename_i h
      simp only [Bool.and_eq_true, Bool.or_eq_true, beq_iff_eq, Bool.not_eq_true',
        List.isEmpty_eq_false_iff] at h
      exact .inr ⟨c, _, _, rfl, h.1, sign_form rest, h.2, digits_forms _⟩
    · exact .inl rfl

theorem numeral_number {c : Char} (hc : c.isDigit = true) (rest : List Char) :
    Numeral (number (c :: rest)).1 := by
  refine ⟨_, _, _, rfl, ⟨?_, digits_forms _⟩, fraction_form _, exponent_form _⟩
  simp [digits, hc]

theorem digits_chars {s : List Char} (hs : ∀ c ∈ s, c.isDigit = true) (rest : List Char) :
    digits (s ++ rest) = (s ++ (digits rest).1, (digits rest).2) := by
  rw [digits, List.takeWhile_append_of_pos hs, List.dropWhile_append_of_pos hs]
  rfl

theorem digits_stop {s rest : List Char} (hs : ∀ c ∈ s, c.isDigit = true)
    (hr : ∀ c ∈ rest.head?, c.isDigit = false) : digits (s ++ rest) = (s, rest) := by
  rw [digits_chars hs]
  cases rest with
  | nil => simp [digits]
  | cons c rest => simp [digits, hr c (by simp)]

theorem fraction_stop {part rest : List Char} (hp : Fraction part)
    (hr : ∀ c ∈ rest.head?, c.isDigit = false ∧ c ≠ '.') :
    fraction (part ++ rest) = (part, rest) := by
  obtain rfl | ⟨places, rfl, hne, hd⟩ := hp
  · cases rest with
    | nil => rfl
    | cons c rest =>
      have hc : c ≠ '.' := (hr c (by simp)).2
      simp [fraction, hc]
  · simp [fraction, digits_stop hd fun c hc => (hr c hc).1, hne]

theorem sign_stop {s rest : List Char} (hs : s ∈ [[], ['+'], ['-']]) (hd : Digits rest)
    (tail : List Char) : sign (s ++ (rest ++ tail)) = (s, rest ++ tail) := by
  obtain ⟨hne, hd⟩ := hd
  cases rest with
  | nil => simp at hne
  | cons c rest =>
    have hc : c.isDigit = true := hd c (by simp)
    have hplus : c ≠ '+' := by rintro rfl; revert hc; decide
    have hminus : c ≠ '-' := by rintro rfl; revert hc; decide
    simp only [List.mem_cons, List.not_mem_nil, or_false] at hs
    rcases hs with rfl | rfl | rfl <;> simp [sign, hplus, hminus]

theorem Ends.digit {rest : List Char} (hr : Ends rest) : ∀ c ∈ rest.head?, c.isDigit = false := by
  intro c hc
  have hn := (hr c hc).1
  cases hd : c.isDigit
  · rfl
  · simp [isNameChar_of_isDigit hd] at hn

theorem exponent_stop {power rest : List Char} (hp : Power power) (hr : Ends rest) :
    exponent (power ++ rest) = (power, rest) := by
  obtain rfl | ⟨mark, s, places, rfl, hm, hs, hd⟩ := hp
  · cases rest with
    | nil => rfl
    | cons c rest =>
      have hc := (hr c (by simp)).1
      have he : c ≠ 'e' := by rintro rfl; revert hc; decide
      have hE : c ≠ 'E' := by rintro rfl; revert hc; decide
      simp [exponent, he, hE]
  · have hmark : (mark == 'e' || mark == 'E') = true := by simpa using hm
    simp only [List.cons_append, List.append_assoc, exponent]
    rw [sign_stop hs hd, digits_stop hd.2 hr.digit]
    simp [hmark, hd.1]

theorem number_stop {s rest : List Char} (hs : Numeral s) (hr : Ends rest) :
    number (s ++ rest) = (s, rest) := by
  obtain ⟨whole, part, power, rfl, hw, hp, he⟩ := hs
  have hrest : ∀ c ∈ rest.head?, c.isDigit = false ∧ c ≠ '.' :=
    fun c hc => ⟨hr.digit c hc, (hr c hc).2⟩
  have hpower : ∀ c ∈ (power ++ rest).head?, c.isDigit = false ∧ c ≠ '.' := by
    obtain rfl | ⟨mark, _, _, rfl, rfl | rfl, _⟩ := he
    · simpa using hrest
    · simp
    · simp
  have hpart : ∀ c ∈ (part ++ (power ++ rest)).head?, c.isDigit = false := by
    obtain rfl | ⟨places, rfl, _⟩ := hp
    · exact fun c hc => (hpower c (by simpa using hc)).1
    · simp
  have h₁ : digits (whole ++ (part ++ (power ++ rest))) = (whole, part ++ (power ++ rest)) :=
    digits_stop hw.2 hpart
  simp [number, h₁, fraction_stop hp hpower, exponent_stop he hr]

def Name (s : List Char) : Prop := Dotted s ∧ s ∉ words

theorem symbol?_eq_none {c : Char} (h : ∀ o ∈ symbols, o.head? ≠ some c) (rest : List Char) :
    symbol? (c :: rest) = none := by
  rw [symbol?, List.find?_eq_none]
  intro o ho hp
  obtain ⟨t, ht⟩ := List.isPrefixOf_iff_prefix.1 hp
  cases o with
  | nil => simp [symbols] at ho
  | cons d o =>
    simp only [List.cons_append, List.cons.injEq] at ht
    exact h _ ho (by simp [ht.1])

theorem symbol?_of_isNameStart {c : Char} (h : isNameStart c = true) (rest : List Char) :
    symbol? (c :: rest) = none := by
  have table : ∀ o ∈ symbols, o.head?.any isNameStart = false := by decide
  apply symbol?_eq_none
  intro o ho hc
  have ht := table o ho
  simp [hc, h] at ht

theorem symbol?_of_isDigit {c : Char} (h : c.isDigit = true) (rest : List Char) :
    symbol? (c :: rest) = none := by
  have table : ∀ o ∈ symbols, o.head?.any Char.isDigit = false := by decide
  apply symbol?_eq_none
  intro o ho hc
  have ht := table o ho
  simp [hc, h] at ht

theorem lexeme?_nameStart {c : Char} (hc : isNameStart c = true) (rest : List Char) :
    lexeme? (c :: rest) = some (if c :: (nameTail rest).1 ∈ words then .operator else .name,
      c :: (nameTail rest).1, (nameTail rest).2) := by
  simp [lexeme?, symbol?_of_isNameStart hc, hc]

theorem lexeme?_digit {c : Char} (hc : c.isDigit = true) (rest : List Char) :
    lexeme? (c :: rest) = some (.number, number (c :: rest)) := by
  simp [lexeme?, symbol?_of_isDigit hc, isNameStart_of_isDigit hc, hc]

theorem lexeme?_name {s rest : List Char} (hs : Name s) (hr : Ends rest) :
    lexeme? (s ++ rest) = some (.name, s, rest) := by
  obtain ⟨hd, hw⟩ := hs
  have htail := nameTail_dotted hd rest
  rw [nameTail_ends hr, List.append_nil] at htail
  obtain ⟨c, more, rfl, hc⟩ := hd.head
  have hmore : nameTail (more ++ rest) = (more, rest) := by
    rw [List.cons_append, nameTail] at htail
    simpa [isNameChar_of_isNameStart hc, Prod.ext_iff] using htail
  rw [List.cons_append, lexeme?_nameStart hc, hmore, if_neg hw]

theorem Numeral.head {s : List Char} (h : Numeral s) :
    ∃ c rest, s = c :: rest ∧ c.isDigit = true := by
  obtain ⟨whole, part, power, rfl, ⟨hne, hd⟩, _⟩ := h
  cases whole with
  | nil => simp at hne
  | cons c whole => exact ⟨c, whole ++ part ++ power, rfl, hd c (by simp)⟩

theorem lexeme?_number {s rest : List Char} (hs : Numeral s) (hr : Ends rest) :
    lexeme? (s ++ rest) = some (.number, s, rest) := by
  have hstop := number_stop hs hr
  obtain ⟨c, more, rfl, hc⟩ := hs.head
  rw [List.cons_append] at hstop ⊢
  rw [lexeme?_digit hc, hstop]

theorem lexeme?_quote {q : Char} (hq : q = '"' ∨ q = '\'') (rest : List Char) :
    lexeme? (q :: rest)
      = (Quoted.tail q rest).map fun (run, after) => (.string, q :: run, after) := by
  have hdouble : isNameStart '"' = false := by decide
  have hsingle : isNameStart '\'' = false := by decide
  have hsymbol : symbol? (q :: rest) = none := by
    rcases hq with rfl | rfl <;> exact symbol?_eq_none (by decide) _
  rcases hq with rfl | rfl <;> simp [lexeme?, hsymbol, hdouble, hsingle, Char.isDigit]

theorem lexeme?_string (s rest : List Char) :
    lexeme? (Quoted.write s ++ rest) = some (.string, Quoted.write s, rest) := by
  simp [Quoted.write, lexeme?_quote, Quoted.tail_flatMap_escape]

def Quotation (s : List Char) : Prop := ∃ q inner, (q = '"' ∨ q = '\'') ∧ s = q :: inner ++ [q]

/-- What is known of a lexeme by its kind. -/
def Form : Token.Kind → List Char → Prop
  | .name, s => Name s
  | .number, s => Numeral s
  | .string, s => Quotation s
  | .operator, _ | .punctuation, _ => True
  | .eof, _ | .text, _ | .blockStart, _ | .blockEnd, _ | .valueStart, _ | .valueEnd, _ => False

theorem form_of_lexeme? {s text rest : List Char} {kind : Token.Kind}
    (h : lexeme? s = some (kind, text, rest)) : Form kind text := by
  unfold lexeme? at h
  split at h
  · simp only [Option.some.injEq, Prod.mk.injEq] at h
    obtain ⟨rfl, _⟩ := h
    trivial
  · simp at h
  · rename_i c after _
    split at h
    · rename_i hc
      simp only [Option.some.injEq, Prod.mk.injEq] at h
      obtain ⟨rfl, rfl, _⟩ := h
      split
      · trivial
      · rename_i hw
        exact ⟨dotted_nameTail hc after, by simpa using hw⟩
    · split at h
      · rename_i hc
        simp only [Option.some.injEq, Prod.mk.injEq] at h
        obtain ⟨rfl, h⟩ := h
        have hn := numeral_number hc after
        rw [h] at hn
        exact hn
      · split at h
        · rename_i hq
          obtain ⟨⟨run, left⟩, ht, he⟩ := Option.map_eq_some_iff.1 h
          simp only [Prod.mk.injEq] at he
          obtain ⟨rfl, rfl, _⟩ := he
          obtain ⟨inner, rfl⟩ := Quoted.tail_closed ht
          exact ⟨c, inner, by simpa using hq, rfl⟩
        · split at h
          · simp only [Option.some.injEq, Prod.mk.injEq] at h
            obtain ⟨rfl, _⟩ := h
            trivial
          · simp at h

theorem ends_nil : Ends [] := by simp [Ends]

theorem name_iff {s : List Char} : Name s ↔ lexeme? s = some (.name, s, []) := by
  constructor
  · intro h
    simpa using lexeme?_name h ends_nil
  · exact form_of_lexeme?

theorem numeral_iff {s : List Char} : Numeral s ↔ lexeme? s = some (.number, s, []) := by
  constructor
  · intro h
    simpa using lexeme?_number h ends_nil
  · exact form_of_lexeme?

instance : DecidablePred Name := fun _ => decidable_of_iff _ name_iff.symm

instance : DecidablePred Numeral := fun _ => decidable_of_iff _ numeral_iff.symm

end Stencil.Lexeme
