import Stencil.Proofs.Scanning
/-!
Where lexemes end. A barrier is a character that no name, number or symbol goes on with once it has
begun: a blank, or a character of a closer. What is read in front of a barrier is what would be read
if the text ended there, and only a string may reach beyond it.
-/
set_option autoImplicit false

namespace Stencil

/-- A character that goes on with no lexeme, but for strings. -/
structure Barrier (b : Char) : Prop where
  char : Text.isNameChar b = false
  dot : b ≠ '.'
  symbol : ∀ o ∈ Lexeme.symbols, b ∉ o.tail

theorem barrier_brace : Barrier '}' := ⟨by decide +kernel, by decide, by decide⟩

theorem barrier_space : Barrier ' ' := ⟨by decide +kernel, by decide, by decide⟩

namespace Barrier

variable {b : Char}

theorem nameStart (hb : Barrier b) : Text.isNameStart b = false := by
  cases h : Text.isNameStart b with
  | false => rfl
  | true => simpa [Text.isNameChar_of_isNameStart h] using hb.char

theorem digit (hb : Barrier b) : b.isDigit = false := by
  cases h : b.isDigit with
  | false => rfl
  | true => simpa [Text.isNameChar_of_isDigit h] using hb.char

theorem ne_sign (hb : Barrier b) : b ≠ '+' ∧ b ≠ '-' := by
  have hplus : ∃ o ∈ Lexeme.symbols, '+' ∈ o.tail := by decide
  have hminus : ∃ o ∈ Lexeme.symbols, '-' ∈ o.tail := by decide
  constructor
  · rintro rfl
    obtain ⟨o, ho, hm⟩ := hplus
    exact hb.symbol o ho hm
  · rintro rfl
    obtain ⟨o, ho, hm⟩ := hminus
    exact hb.symbol o ho hm

theorem ne_mark (hb : Barrier b) : b ≠ 'e' ∧ b ≠ 'E' := by
  have hc := hb.char
  constructor <;> rintro rfl <;> revert hc <;> decide

end Barrier

namespace Lexeme

variable {b : Char} (hb : Barrier b)
include hb

theorem symbol?_barrier (c : Char) (s x : List Char) :
    symbol? (c :: (s ++ b :: x)) = symbol? (c :: s) := by
  refine List.find?_congr fun o ho => ?_
  cases o with
  | nil => rfl
  | cons d o =>
    have hfree : b ∉ o := hb.symbol _ ho
    rw [List.isPrefixOf, List.isPrefixOf, isPrefixOf_append_cons hfree]

variable (s x : List Char)

theorem nameTail_barrier :
    nameTail (s ++ b :: x) = ((nameTail s).1, (nameTail s).2 ++ b :: x) := by
  induction s with
  | nil => simp [nameTail, hb.char, hb.dot]
  | cons c s ih =>
    have hhead : (s ++ b :: x).head?.any Text.isNameStart = s.head?.any Text.isNameStart := by
      cases s <;> simp [hb.nameStart]
    rw [List.cons_append, nameTail, nameTail, hhead, ih]
    split <;> rfl

theorem digits_barrier : digits (s ++ b :: x) = ((digits s).1, (digits s).2 ++ b :: x) := by
  induction s with
  | nil => simp [digits, hb.digit]
  | cons c s ih =>
    simp only [digits, Prod.mk.injEq] at ih
    cases hc : c.isDigit <;> simp [digits, hc, ih.1, ih.2]

theorem fraction_barrier :
    fraction (s ++ b :: x) = ((fraction s).1, (fraction s).2 ++ b :: x) := by
  cases s with
  | nil => simp [fraction, hb.dot]
  | cons c s =>
    by_cases hc : c = '.'
    · subst hc
      rw [List.cons_append, fraction, fraction, digits_barrier hb]
      dsimp only
      split <;> rfl
    · rw [List.cons_append]
      unfold fraction
      split <;> simp_all

theorem sign_barrier : sign (s ++ b :: x) = ((sign s).1, (sign s).2 ++ b :: x) := by
  cases s with
  | nil =>
    obtain ⟨hplus, hminus⟩ := hb.ne_sign
    simp [sign, hplus, hminus]
  | cons c s =>
    rw [List.cons_append]
    unfold sign
    split <;> simp_all

theorem exponent_barrier :
    exponent (s ++ b :: x) = ((exponent s).1, (exponent s).2 ++ b :: x) := by
  cases s with
  | nil =>
    obtain ⟨hsmall, hbig⟩ := hb.ne_mark
    simp [exponent, hsmall, hbig]
  | cons c s =>
    rw [List.cons_append, exponent, exponent, sign_barrier hb]
    dsimp only
    rw [digits_barrier hb]
    dsimp only
    split <;> rfl

theorem number_barrier : number (s ++ b :: x) = ((number s).1, (number s).2 ++ b :: x) := by
  simp [number, digits_barrier hb, fraction_barrier hb, exponent_barrier hb]

end Lexeme

/-- What stands before a barrier is all that is looked at, unless it begins a string. -/
theorem lexeme?_barrier {b : Char} (hb : Barrier b) {c : Char} (hc : ¬ (c = '"' ∨ c = '\''))
    (s x : List Char) :
    lexeme? (c :: (s ++ b :: x))
      = (lexeme? (c :: s)).map fun (kind, text, after) => (kind, text, after ++ b :: x) := by
  have hnumber := Lexeme.number_barrier hb (c :: s) x
  rw [List.cons_append] at hnumber
  have hquote : (c == '"' || c == '\'') = false := by simpa using hc
  unfold lexeme?
  rw [Lexeme.symbol?_barrier hb]
  cases ho : Lexeme.symbol? (c :: s) with
  | none =>
    dsimp only
    rw [hnumber, Lexeme.nameTail_barrier hb, hquote]
    split
    · rfl
    · split
      · rfl
      · simp only [Bool.false_eq_true, if_false]
        split <;> rfl
  | some o =>
    have hlen := congrArg List.length (Lexeme.symbol?_spec ho).1
    simp only [List.length_append, List.length_drop] at hlen
    dsimp only
    rw [← List.cons_append, List.drop_append_of_le_length (by omega)]
    rfl

namespace Text.Quoted

theorem tail_eq_none {q : Char} {s : List Char} (h : q ∉ s) : tail q s = none := by
  fun_induction tail q s with
  | case1 => rfl
  | case2 => rfl
  | case3 c rest ih => simp [ih (by simp_all)]
  | case4 => simp at h
  | case5 c rest _ _ _ ih => simp [ih (by simp_all)]

theorem tail_append_of_not_mem {q : Char} {x : List Char} (hx : q ∉ x) (s : List Char) :
    tail q (s ++ x) = (tail q s).map fun (run, after) => (run, after ++ x) := by
  fun_induction tail q s with
  | case1 => simp [tail_eq_none hx]
  | case2 =>
    cases x with
    | nil => rfl
    | cons d x =>
      have hrest : q ∉ x := fun h => hx (by simp [h])
      simp [tail, tail_eq_none hrest]
  | case3 c rest ih =>
    simp only [List.cons_append, tail, ih, Option.map_map]
    rfl
  | case4 rest hone hmore =>
    rw [List.cons_append, tail_cons (ne_backslash hone hmore), if_pos rfl]
    rfl
  | case5 c rest hone hmore hq ih =>
    rw [List.cons_append, tail_cons (ne_backslash hone hmore), if_neg hq, ih, Option.map_map,
      Option.map_map]
    rfl

end Text.Quoted

/-- In front of a barrier that no quote follows, the lexeme is the one that stands there alone. -/
theorem lexeme?_append_barrier {b : Char} (hb : Barrier b) {x : List Char}
    (hx : '"' ∉ b :: x ∧ '\'' ∉ b :: x) (c : Char) (s : List Char) :
    lexeme? (c :: (s ++ b :: x))
      = (lexeme? (c :: s)).map fun (kind, text, after) => (kind, text, after ++ b :: x) := by
  by_cases hc : c = '"' ∨ c = '\''
  · have hfree : c ∉ b :: x := by
      rcases hc with rfl | rfl
      · exact hx.1
      · exact hx.2
    rw [Lexeme.lexeme?_quote hc, Lexeme.lexeme?_quote hc,
      Text.Quoted.tail_append_of_not_mem hfree, Option.map_map, Option.map_map]
    rfl
  · exact lexeme?_barrier hb hc s x

end Stencil
