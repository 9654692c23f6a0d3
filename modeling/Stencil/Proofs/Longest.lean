import Stencil.Proofs.Lengths
import Stencil.Proofs.Scanning
set_option autoImplicit false

namespace Stencil.Lexeme
open Text

/-- `run` has the form, and nothing of the form at the front of `s` reaches beyond it. -/
structure Longest (form : List Char → Prop) (s run : List Char) : Prop where
  holds : form run
  begins : run <+: s
  longest : ∀ other, form other → other <+: s → other <+: run

def Then (first second : List Char → Prop) (s : List Char) : Prop :=
  ∃ a b, s = a ++ b ∧ first a ∧ second b

/-- The longest parts make up the longest whole, if the second part does not begin with a character
of the first one. -/
theorem Longest.append {first second : List Char → Prop} {s a b t : List Char} (hs : a ++ t = s)
    (ha : Longest first s a) (hb : Longest second t b)
    (seam : ∀ v, second v → ∀ c ∈ v.head?, c ∉ a) : Longest (Then first second) s (a ++ b) where
  holds := ⟨a, b, rfl, ha.holds, hb.holds⟩
  begins := by
    rw [← hs, List.prefix_append_right_inj]
    exact hb.begins
  longest := by
    rintro _ ⟨u, v, rfl, hu, hv⟩ huv
    obtain ⟨w, rfl⟩ := ha.longest u hu ((List.prefix_append u v).trans huv)
    rw [← hs, List.append_assoc, List.prefix_append_right_inj] at huv
    rw [List.append_assoc, List.prefix_append_right_inj]
    cases w with
    | nil => exact hb.longest v hv huv
    | cons d w =>
      -- the first part could go on, so the second one has nothing to begin with
      cases v with
      | nil => exact List.nil_prefix
      | cons c v =>
        obtain ⟨rfl, _⟩ := List.cons_prefix_cons.1 huv
        exact absurd (by simp) (seam _ hv c rfl)

/-! ### Numbers -/

theorem numeral_iff_then {s : List Char} : Numeral s ↔ Then (Then Digits Fraction) Power s := by
  constructor
  · rintro ⟨whole, part, power, rfl, hw, hp, he⟩
    exact ⟨whole ++ part, power, rfl, ⟨whole, part, rfl, hw, hp⟩, he⟩
  · rintro ⟨_, power, rfl, ⟨whole, part, rfl, hw, hp⟩, he⟩
    exact ⟨whole, part, power, rfl, hw, hp, he⟩

theorem longest_digits {s : List Char} (h : (digits s).1 ≠ []) :
    Longest Digits s (digits s).1 where
  holds := ⟨h, digits_forms s⟩
  begins := ⟨_, digits_append s⟩
  longest := by
    rintro other ⟨_, hd⟩ ⟨rest, rfl⟩
    rw [digits_chars hd]
    exact List.prefix_append _ _

theorem longest_fraction (s : List Char) : Longest Fraction s (fraction s).1 where
  holds := fraction_form s
  begins := ⟨_, fraction_append s⟩
  longest := by
    rintro other (rfl | ⟨places, rfl, hne, hd⟩) ⟨rest, rfl⟩
    · exact List.nil_prefix
    · refine ⟨(digits rest).1, ?_⟩
      simp [fraction, digits_chars hd, hne]

theorem longest_exponent (s : List Char) : Longest Power s (exponent s).1 where
  holds := exponent_form s
  begins := ⟨_, exponent_append s⟩
  longest := by
    rintro other (rfl | ⟨mark, sign, places, rfl, hm, hs, hd⟩) ⟨rest, rfl⟩
    · exact List.nil_prefix
    · have hmark : (mark == 'e' || mark == 'E') = true := by simpa using hm
      refine ⟨(digits rest).1, ?_⟩
      simp [exponent, sign_stop hs hd, digits_chars hd.2, hmark, hd.1]

theorem Fraction.head {s : List Char} (h : Fraction s) : ∀ c ∈ s.head?, c = '.' := by
  obtain rfl | ⟨places, rfl, _⟩ := h
  · simp
  · simp

theorem Fraction.chars {s : List Char} (h : Fraction s) : ∀ c ∈ s, c = '.' ∨ c.isDigit = true := by
  obtain rfl | ⟨places, rfl, _, hd⟩ := h
  · simp
  · exact List.forall_mem_cons.2 ⟨.inl rfl, fun c hc => .inr (hd c hc)⟩

theorem Power.head {s : List Char} (h : Power s) : ∀ c ∈ s.head?, c = 'e' ∨ c = 'E' := by
  obtain rfl | ⟨mark, sign, places, rfl, hm, _⟩ := h
  · simp
  · simpa using hm

theorem longest_number {c : Char} (hc : c.isDigit = true) (rest : List Char) :
    Longest Numeral (c :: rest) (number (c :: rest)).1 := by
  generalize hs : c :: rest = s
  have hne : (digits s).1 ≠ [] := by simp [← hs, digits, hc]
  have hpoint : '.'.isDigit = false := by decide
  have hmark : ∀ d, d = 'e' ∨ d = 'E' → ¬ (d = '.' ∨ d.isDigit = true) := by
    rintro d (rfl | rfl) <;> decide
  have hpart : Longest (Then Digits Fraction) s ((digits s).1 ++ (fraction (digits s).2).1) := by
    refine (longest_digits hne).append (digits_append s) (longest_fraction _) ?_
    intro v hv d hd hm
    have hdigit := digits_forms s d hm
    rw [hv.head d hd, hpoint] at hdigit
    exact absurd hdigit (by decide)
  have hrest : ((digits s).1 ++ (fraction (digits s).2).1) ++ (fraction (digits s).2).2 = s := by
    rw [List.append_assoc, fraction_append, digits_append]
  have hpower : Longest (Then (Then Digits Fraction) Power) s (number s).1 := by
    refine hpart.append hrest (longest_exponent _) ?_
    intro v hv d hd hm
    refine hmark d (hv.head d hd) ?_
    rcases List.mem_append.1 hm with hm | hm
    · exact .inr (digits_forms s d hm)
    · exact (fraction_form _).chars d hm
  have hform : Numeral = Then (Then Digits Fraction) Power :=
    funext fun _ => propext numeral_iff_then
  rwa [hform]

/-! ### Names -/

theorem longest_name {c : Char} (hc : isNameStart c = true) (rest : List Char) :
    Longest Dotted (c :: rest) (c :: (nameTail rest).1) where
  holds := dotted_nameTail hc rest
  begins := ⟨(nameTail rest).2, by rw [List.cons_append, nameTail_append]⟩
  longest := by
    rintro other ho ⟨after, hs⟩
    have htail : (nameTail (c :: rest)).1 = c :: (nameTail rest).1 := by
      simp [nameTail, isNameChar_of_isNameStart hc]
    rw [← htail, ← hs, nameTail_dotted ho]
    exact List.prefix_append _ _

end Stencil.Lexeme

namespace Stencil.Text.Quoted

/-! ### Strings -/

/-- A character is escaped if an odd number of backslashes stands before it. -/
def Escapes (before : List Char) : Prop := (before.reverse.takeWhile (· == '\\')).length % 2 = 1

instance : DecidablePred Escapes := fun _ => inferInstanceAs (Decidable (_ = _))

theorem not_escapes_nil : ¬ Escapes [] := by decide

theorem escapes_backslash : Escapes ['\\'] := by decide

theorem escapes_append (s : List Char) {t : List Char}
    (ht : (t.takeWhile (· == '\\')).length % 2 = 0) :
    Escapes (t.reverse ++ s) ↔ Escapes s := by
  unfold Escapes
  rw [List.reverse_append, List.reverse_reverse, List.takeWhile_append]
  split
  · rename_i h
    rw [List.length_append, ← h]
    omega
  · rfl

theorem escapes_cons {c : Char} (hc : c ≠ '\\') (s : List Char) :
    Escapes (c :: s) ↔ Escapes s :=
  escapes_append s (t := [c]) (by simp [hc])

theorem escapes_pair (c : Char) (s : List Char) : Escapes ('\\' :: c :: s) ↔ Escapes s := by
  refine escapes_append s (t := [c, '\\']) ?_
  by_cases hc : c = '\\' <;> simp [hc]

def Guarded (q : Char) (s : List Char) : Prop := ∀ u v, s = u ++ q :: v → Escapes u

/-- A text up to its first quote that is not escaped. -/
structure Closing (q : Char) (s body after : List Char) : Prop where
  text : s = body ++ q :: after
  closes : ¬ Escapes body
  first : Guarded q body

variable {q : Char}

theorem guarded_nil : Guarded q [] := by
  intro u v h
  simp at h

theorem Guarded.cons {c : Char} {s : List Char} (h : Guarded q s) (hc : c ≠ '\\') (hne : c ≠ q) :
    Guarded q (c :: s) := by
  intro u v hs
  obtain ⟨_, hv⟩ | ⟨u, rfl, hu⟩ := List.cons_eq_append_iff.1 hs
  · exact absurd (List.cons.inj hv).1.symm hne
  · exact (escapes_cons hc u).2 (h u v hu)

theorem guarded_backslash (hq : q ≠ '\\') : Guarded q ['\\'] := by
  intro u v hs
  obtain ⟨_, hv⟩ | ⟨u, _, hu⟩ := List.cons_eq_append_iff.1 hs
  · exact absurd (List.cons.inj hv).1 hq
  · simp at hu

theorem Guarded.pair {s : List Char} (h : Guarded q s) (hq : q ≠ '\\') (c : Char) :
    Guarded q ('\\' :: c :: s) := by
  intro u v hs
  obtain ⟨_, hv⟩ | ⟨t, rfl, ht⟩ := List.cons_eq_append_iff.1 hs
  · exact absurd (List.cons.inj hv).1 hq
  · obtain ⟨rfl, _⟩ | ⟨u, rfl, hu⟩ := List.cons_eq_append_iff.1 ht
    · exact escapes_backslash
    · exact (escapes_pair c u).2 (h u v hu)

theorem closing_of_tail (hq : q ≠ '\\') {s run after : List Char}
    (h : tail q s = some (run, after)) : ∃ body, run = body ++ [q] ∧ Closing q s body after := by
  fun_induction tail q s generalizing run after with
  | case1 => simp at h
  | case2 => simp at h
  | case3 c rest ih =>
    obtain ⟨⟨r, a⟩, hr, he⟩ := Option.map_eq_some_iff.1 h
    obtain ⟨rfl, rfl⟩ := Prod.mk.inj he
    obtain ⟨body, rfl, hb⟩ := ih hr
    refine ⟨'\\' :: c :: body, rfl, by rw [hb.text]; rfl, ?_, hb.first.pair hq c⟩
    rw [escapes_pair]
    exact hb.closes
  | case4 rest =>
    obtain ⟨rfl, rfl⟩ := Prod.mk.inj (Option.some.inj h)
    exact ⟨[], rfl, rfl, not_escapes_nil, guarded_nil⟩
  | case5 c rest hone hmore hne ih =>
    have hc := ne_backslash hone hmore
    obtain ⟨⟨r, a⟩, hr, he⟩ := Option.map_eq_some_iff.1 h
    obtain ⟨rfl, rfl⟩ := Prod.mk.inj he
    obtain ⟨body, rfl, hb⟩ := ih hr
    refine ⟨c :: body, rfl, by rw [hb.text]; rfl, ?_, hb.first.cons hc hne⟩
    rw [escapes_cons hc]
    exact hb.closes

theorem tail_eq_none_iff (hq : q ≠ '\\') {s : List Char} : tail q s = none ↔ Guarded q s := by
  constructor
  · intro h
    fun_induction tail q s with
    | case1 => exact guarded_nil
    | case2 => exact guarded_backslash hq
    | case3 c rest ih => exact (ih (Option.map_eq_none_iff.1 h)).pair hq c
    | case4 => simp at h
    | case5 c rest hone hmore hne ih =>
      exact (ih (Option.map_eq_none_iff.1 h)).cons (ne_backslash hone hmore) hne
  · intro h
    cases ht : tail q s with
    | none => rfl
    | some p =>
      obtain ⟨body, _, hb⟩ := closing_of_tail hq ht
      exact absurd (h _ _ hb.text) hb.closes

theorem Closing.unique {s body after body' after' : List Char} (h : Closing q s body after)
    (h' : Closing q s body' after') : body = body' ∧ after = after' := by
  have hs := h.text.symm.trans h'.text
  obtain ⟨more, rfl, hm⟩ | ⟨more, rfl, hm⟩ := List.append_eq_append_iff.1 hs
  · obtain ⟨rfl, hm⟩ | ⟨more, rfl, _⟩ := List.cons_eq_append_iff.1 hm
    · exact ⟨(List.append_nil body).symm, (List.cons.inj hm).2⟩
    · exact absurd (h'.first body more rfl) h.closes
  · obtain ⟨rfl, hm⟩ | ⟨more, rfl, _⟩ := List.cons_eq_append_iff.1 hm
    · exact ⟨List.append_nil body', (List.cons.inj hm).2.symm⟩
    · exact absurd (h.first body' more rfl) h'.closes

theorem tail_eq_some_iff (hq : q ≠ '\\') {s run after : List Char} :
    tail q s = some (run, after) ↔ ∃ body, run = body ++ [q] ∧ Closing q s body after := by
  refine ⟨closing_of_tail hq, ?_⟩
  rintro ⟨body, rfl, hb⟩
  cases ht : tail q s with
  | none => exact absurd ((tail_eq_none_iff hq).1 ht _ _ hb.text) hb.closes
  | some p =>
    obtain ⟨run, rest⟩ := p
    obtain ⟨body', rfl, hb'⟩ := closing_of_tail hq ht
    obtain ⟨rfl, rfl⟩ := hb.unique hb'
    rfl

end Stencil.Text.Quoted

namespace Stencil
open Text

/-! ### Rounds -/

theorem Round.size_lt_of_read {close : Option Closer} {origin : List Char}
    {opened inner : List OpenBracket} {input after : List Char} {pieces : List Piece}
    (h : Round.read close origin opened input = .ok (.more pieces inner after)) :
    size after < size input := by
  have hcover : Piece.cover pieces ++ after = input := Round.read_cover h
  have hlength := Round.length_lt_of_read h
  have hne : Piece.cover pieces ≠ [] := by
    intro hnil
    rw [← hcover, hnil, List.nil_append] at hlength
    exact Nat.lt_irrefl _ hlength
  have hpos := size_pos_iff.2 hne
  rw [← hcover, size_append]
  omega

/-- What the interior of a tag comes to in a number of rounds, each further on in the text. -/
inductive Rounds (close : Option Closer) (origin : List Char) :
    Nat → List OpenBracket → List Char → Except Fault (List Piece × List Char) → Prop where
  | fails {opened : List OpenBracket} {s : List Char} {fault : Fault}
      (h : Round.read close origin opened s = .error fault) :
      Rounds close origin 1 opened s (.error fault)
  | ends {opened : List OpenBracket} {s left : List Char} {pieces : List Piece}
      (h : Round.read close origin opened s = .ok (.done pieces left)) :
      Rounds close origin 1 opened s (.ok (pieces, left))
  | goes {n : Nat} {opened inner : List OpenBracket} {s after : List Char} {pieces : List Piece}
      {result : Except Fault (List Piece × List Char)}
      (h : Round.read close origin opened s = .ok (.more pieces inner after))
      (hlt : size after < size s) (hmore : Rounds close origin n inner after result) :
      Rounds close origin (n + 1) opened s (result.map fun r => (pieces ++ r.1, r.2))

theorem rounds_interior (close : Option Closer) (origin : List Char) (opened : List OpenBracket)
    (s : List Char) : ∃ n ≤ size s + 1,
      Rounds close origin n opened s (interior close origin opened s) := by
  induction hn : size s using Nat.strongRecOn generalizing opened s with
  | ind m ih =>
    subst hn
    rw [interior_eq]
    split
    · rename_i fault hr
      exact ⟨1, by omega, .fails hr⟩
    · rename_i pieces left hr
      exact ⟨1, by omega, .ends hr⟩
    · rename_i pieces inner after hr
      have hlt := Round.size_lt_of_read hr
      obtain ⟨n, hle, hrounds⟩ := ih _ hlt inner after rfl
      exact ⟨n + 1, by omega, .goes hr hlt hrounds⟩

/-! ### Scanners -/

/-- What is taken at the front of a text, and how it is counted. -/
structure Scanned (s : List Char) : Prop where
  number {c : Char} {rest : List Char} (hs : s = c :: rest) (hc : c.isDigit = true) :
    ∃ run after, lexeme? s = some (.number, run, after) ∧ Lexeme.Longest Lexeme.Numeral s run ∧
      Length.number (bytes s) = size run ∧ 0 < size run
  name {c : Char} {rest : List Char} (hs : s = c :: rest) (hc : isNameStart c = true) :
    ∃ kind run after, lexeme? s = some (kind, run, after) ∧
      kind = (if run ∈ Lexeme.words then .operator else .name) ∧
      Lexeme.Longest Lexeme.Dotted s run ∧ Length.name s = size run ∧ 0 < size run
  string {q : Char} {rest : List Char} (hs : s = q :: rest) (hq : q = '"' ∨ q = '\'') (n : Nat) :
    Length.string? (bytes s) = some n ↔ ∃ body after, Quoted.Closing q rest body after ∧
      lexeme? s = some (.string, q :: body ++ [q], after) ∧ n = size (q :: body ++ [q]) ∧ 0 < n
  unclosed {q : Char} {rest : List Char} (hs : s = q :: rest) (hq : q = '"' ∨ q = '\'') :
    (Length.string? (bytes s) = none ↔ Quoted.Guarded q rest) ∧
      (lexeme? s = none ↔ Quoted.Guarded q rest)
  ends (close : Option Closer) (origin : List Char) (opened : List OpenBracket) :
    ∃ n ≤ size s + 1, Rounds close origin n opened s (interior close origin opened s)

theorem quote_ascii {q : Char} (hq : q = '"' ∨ q = '\'') : q.toNat < 128 ∧ q ≠ '\\' := by
  rcases hq with rfl | rfl <;> decide

/-- Numbers, names and strings are taken as far as they reach, at every place of a text. -/
theorem lexemes_longest (s : List Char) : Scanned s where
  number := by
    rintro c rest rfl hc
    exact ⟨_, _, Lexeme.lexeme?_digit hc rest, Lexeme.longest_number hc rest,
      Length.number_bytes _, size_pos_iff.2 (Lexeme.number_ne_nil hc)⟩
  name := by
    rintro c rest rfl hc
    exact ⟨_, _, _, Lexeme.lexeme?_nameStart hc rest, rfl, Lexeme.longest_name hc rest,
      Length.name_eq hc rest, size_pos_iff.2 (List.cons_ne_nil _ _)⟩
  string := by
    rintro q rest rfl hq n
    obtain ⟨hascii, hback⟩ := quote_ascii hq
    rw [Length.string?_bytes hascii, Lexeme.lexeme?_quote hq]
    constructor
    · intro h
      obtain ⟨⟨run, after⟩, ht, rfl⟩ := Option.map_eq_some_iff.1 h
      obtain ⟨body, rfl, hb⟩ := Quoted.closing_of_tail hback ht
      exact ⟨body, after, hb, by rw [ht]; rfl, rfl, size_pos_iff.2 (List.cons_ne_nil _ _)⟩
    · rintro ⟨body, after, hb, _, rfl, _⟩
      rw [(Quoted.tail_eq_some_iff hback).2 ⟨body, rfl, hb⟩]
      rfl
  unclosed := by
    rintro q rest rfl hq
    obtain ⟨hascii, hback⟩ := quote_ascii hq
    rw [Length.string?_bytes hascii, Lexeme.lexeme?_quote hq, Option.map_eq_none_iff,
      Option.map_eq_none_iff, Quoted.tail_eq_none_iff hback]
    exact ⟨Iff.rfl, Iff.rfl⟩
  ends := fun close origin opened => rounds_interior close origin opened s

-- a point, an exponent mark, a dot or a backslash with nothing to go on with
example : lexeme? ['1', '.', 'e', '1'] = some (.number, ['1'], ['.', 'e', '1']) ∧
    Length.number (bytes ['1', 'e', '+', '.']) = 1 ∧
    lexeme? ['a', '.', '.', 'b'] = some (.name, ['a'], ['.', '.', 'b']) ∧
    Length.string? (bytes ['"', '\\', '"']) = none := by decide +kernel

end Stencil
