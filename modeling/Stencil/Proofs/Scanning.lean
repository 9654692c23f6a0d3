import Mathlib.Data.List.Find
import Stencil.Proofs.Lexeme
import Stencil.Token.Template
/-!
Reading back what is written inside a tag. Gaps say nothing, so an interior is compared by the kinds
and texts of its tokens alone; a writer scans if the interior of what it writes in front of a tail
is the same spellings in front of the interior of the tail, whatever brackets are open around it.
-/
set_option autoImplicit false

namespace Stencil

abbrev Spelling := Token.Kind × List Char

def Token.spelling (t : Token) : Spelling := (t.kind, t.value.toList)

namespace Piece

def spellings : List Piece → List Spelling
  | [] => []
  | gap _ :: more => spellings more
  | token kind text :: more => (kind, text) :: spellings more

theorem spellings_append (a b : List Piece) :
    spellings (a ++ b) = spellings a ++ spellings b := by
  induction a with
  | nil => rfl
  | cons p a ih => cases p <;> simp [spellings, ih]

theorem spellings_literal (s : List Char) :
    spellings (literal s) = if s = [] then [] else [(.text, s)] := by
  cases s <;> rfl

theorem spelling_ofPieces (pieces : List Piece) (offset line : Nat) :
    (Token.ofPieces offset line pieces).map Token.spelling = spellings pieces := by
  induction pieces generalizing offset line with
  | nil => rfl
  | cons p more ih =>
    cases p with
    | gap text => simp [Token.ofPieces, ih, spellings]
    | token kind text => simp [Token.ofPieces, ih, Token.spelling, spellings]

end Piece

def ahead (ls : List Spelling) (r : List Spelling × List Char) : List Spelling × List Char :=
  (ls ++ r.1, r.2)

theorem map_ahead (ls ms : List Spelling) (x : Except Fault (List Spelling × List Char)) :
    (x.map (ahead ms)).map (ahead ls) = x.map (ahead (ls ++ ms)) := by
  cases x <;> simp [Except.map, ahead]

def lexemes (closer : Closer) (origin : List Char) (opened : List OpenBracket)
    (input : List Char) : Except Fault (List Spelling × List Char) :=
  (interior (some closer) origin opened input).map fun r => (Piece.spellings r.1, r.2)

section
variable {closer : Closer} {origin : List Char} {opened : List OpenBracket}

theorem interior_eq (close : Option Closer) (input : List Char) :
    interior close origin opened input = match Round.read close origin opened input with
      | .error fault => .error fault
      | .ok (.done pieces left) => .ok (pieces, left)
      | .ok (.more pieces inner after) =>
        (interior close origin inner after).map fun r => (pieces ++ r.1, r.2) := by
  rw [interior]
  split
  · rename_i h
    simp [h]
  · rename_i h
    simp [h]
  · rename_i pieces inner after h
    simp only [h]
    cases interior close origin inner after <;> rfl

theorem lexemes_eq (input : List Char) :
    lexemes closer origin opened input = match Text.dropBlanks input with
      | [] => .error ⟨.unclosedTag (String.ofList closer.text), origin⟩
      | c :: rest =>
        if closer.endsAt opened (c :: rest) then
          (OpenBracket.checkNone opened).map fun _ =>
            ([(closer.kind, closer.text)], (c :: rest).drop closer.text.length)
        else match lexeme? (c :: rest) with
          | none => .error ⟨.unexpectedCharacter c, c :: rest⟩
          | some (kind, text, after) =>
            match (if kind = .punctuation then OpenBracket.track opened (c :: rest)
              else .ok opened) with
            | .error fault => .error fault
            | .ok inner => (lexemes closer origin inner after).map (ahead [(kind, text)]) := by
  rw [lexemes, interior_eq]
  cases hd : Text.dropBlanks input with
  | nil => simp [Round.read, hd, Round.atEnd, Except.map]
  | cons c rest =>
    cases he : closer.endsAt opened (c :: rest) with
    | true =>
      cases hn : OpenBracket.checkNone opened <;>
        simp [Round.read, hd, he, Option.filter, Round.atCloser, hn, Except.map, Piece.spellings]
    | false =>
      cases hl : lexeme? (c :: rest) with
      | none => simp [Round.read, hd, he, Option.filter, Round.atLexeme, hl, Except.map]
      | some l =>
        obtain ⟨kind, text, after⟩ := l
        simp only [Round.read, hd, he, Option.filter, Round.atLexeme, hl, Bool.false_eq_true,
          if_false]
        cases (if kind = .punctuation then OpenBracket.track opened (c :: rest)
          else .ok opened) with
        | error fault => rfl
        | ok inner =>
          simp only [Except.map, lexemes]
          cases interior (some closer) origin inner after <;> simp [ahead, Piece.spellings]

theorem lexemes_blank {b : Char} (hb : Text.isBlank b = true) (input : List Char) :
    lexemes closer origin opened (b :: input) = lexemes closer origin opened input := by
  have hd : Text.dropBlanks (b :: input) = Text.dropBlanks input := by
    simp [Text.dropBlanks, hb]
  rw [lexemes_eq, lexemes_eq, hd]

theorem lexemes_closer (h : closer = .value ∨ closer = .block) (tail : List Char) :
    lexemes closer origin [] (closer.text ++ tail) = .ok ([(closer.kind, closer.text)], tail) := by
  rw [lexemes_eq]
  rcases h with rfl | rfl
  · have hb : Text.isBlank '}' = false := by decide
    simp [Closer.value, Text.dropBlanks, hb, Closer.endsAt, OpenBracket.checkNone, Except.map]
  · have hb : Text.isBlank '%' = false := by decide
    simp [Closer.block, Text.dropBlanks, hb, Closer.endsAt, OpenBracket.checkNone, Except.map]

def Begins (input : List Char) : Prop :=
  ∃ c rest, input = c :: rest ∧ Text.isBlank c = false ∧ c ≠ '}' ∧
    (c = '%' → rest.head? ≠ some '}')

theorem Begins.endsAt {input : List Char} (h : Begins input)
    (hc : closer = .value ∨ closer = .block) : closer.endsAt opened input = false := by
  obtain ⟨c, rest, rfl, _, hbrace, hpercent⟩ := h
  rcases hc with rfl | rfl
  · simp [Closer.endsAt, Closer.value, Ne.symm hbrace]
  · by_cases hp : c = '%'
    · have hr := hpercent hp
      cases rest with
      | nil => simp [Closer.endsAt, Closer.block, List.isPrefixOf]
      | cons d rest =>
        have hd : d ≠ '}' := by simpa using hr
        simp [Closer.endsAt, Closer.block, List.isPrefixOf, Ne.symm hd]
    · simp [Closer.endsAt, Closer.block, List.isPrefixOf, Ne.symm hp]

theorem lexemes_lexeme {inner : List OpenBracket} {kind : Token.Kind} {s after : List Char}
    (hc : closer = .value ∨ closer = .block) {input : List Char} (hb : Begins input)
    (hl : lexeme? input = some (kind, s, after))
    (ht : (if kind = .punctuation then OpenBracket.track opened input else .ok opened)
      = .ok inner) :
    lexemes closer origin opened input
      = (lexemes closer origin inner after).map (ahead [(kind, s)]) := by
  have he : closer.endsAt opened input = false := hb.endsAt hc
  obtain ⟨c, rest, rfl, hblank, _⟩ := hb
  have hd : Text.dropBlanks (c :: rest) = c :: rest := by simp [Text.dropBlanks, hblank]
  rw [lexemes_eq, hd]
  simp [he, hl, ht]

end

/-- A character that ends any lexeme that is written before it. -/
def parts : List Char := [' ', ';', ',', '(', ')', '[', ']']

def Parted (tail : List Char) : Prop := ∃ c rest, tail = c :: rest ∧ c ∈ parts

theorem Parted.ends {tail : List Char} (h : Parted tail) : Lexeme.Ends tail := by
  have table : parts.all (fun c => !Text.isNameChar c && c != '.') = true := by decide +kernel
  obtain ⟨c, rest, rfl, hc⟩ := h
  intro d hd
  obtain rfl : c = d := by simpa using hd
  simpa using List.all_eq_true.1 table c hc

/-- What is written by `f` in front of a tail is read as tokens with a property, and then the tail
is read. No carriage return is written. -/
def Scans (f : List Char → List Char) (P : List Token → Prop) : Prop :=
  ∃ ls : List Spelling, (∀ tail, '\r' ∈ f tail → '\r' ∈ tail) ∧
    (∀ tail, Parted tail → ∀ closer, closer = Closer.value ∨ closer = Closer.block →
      ∀ origin opened, lexemes closer origin opened (f tail)
        = (lexemes closer origin opened tail).map (ahead ls)) ∧
    ∀ ts : List Token, ts.map Token.spelling = ls → P ts

namespace Scans

variable {f g : List Char → List Char} {P Q : List Token → Prop}

theorem mono (h : Scans f P) (hPQ : ∀ ts, P ts → Q ts) : Scans f Q := by
  obtain ⟨ls, hr, hf, hp⟩ := h
  exact ⟨ls, hr, hf, fun ts hts => hPQ ts (hp ts hts)⟩

theorem nothing : Scans (fun tail => tail) (· = []) := by
  refine ⟨[], fun _ h => h, ?_, ?_⟩
  · intro tail _ closer _ origin opened
    cases lexemes closer origin opened tail <;> simp [Except.map, ahead]
  · simp

theorem append (hf : Scans f P) (hg : Scans g Q) (h : ∀ tail, Parted tail → Parted (g tail)) :
    Scans (fun tail => f (g tail)) fun ts => ∃ us vs, ts = us ++ vs ∧ P us ∧ Q vs := by
  obtain ⟨ls, hfr, hf, hp⟩ := hf
  obtain ⟨ms, hgr, hg, hq⟩ := hg
  refine ⟨ls ++ ms, fun tail ht => hgr tail (hfr (g tail) ht), ?_, ?_⟩
  · intro tail ht closer hc origin opened
    rw [hf (g tail) (h tail ht) closer hc, hg tail ht closer hc, map_ahead]
  · intro ts hts
    obtain ⟨us, vs, rfl, hus, hvs⟩ := List.map_eq_append_iff.1 hts
    exact ⟨us, vs, rfl, hp us hus, hq vs hvs⟩

theorem blank (hf : Scans f P) : Scans (fun tail => ' ' :: f tail) P := by
  obtain ⟨ls, hfr, hf, hp⟩ := hf
  refine ⟨ls, fun tail ht => hfr tail (by simpa using ht), ?_, hp⟩
  intro tail ht closer hc origin opened
  rw [lexemes_blank (by decide), hf tail ht closer hc]

theorem lexeme {kind : Token.Kind} {s : List Char} (hr : '\r' ∉ s)
    (hb : ∀ tail, Parted tail → Begins (s ++ tail))
    (hl : ∀ tail, Parted tail → lexeme? (s ++ tail) = some (kind, s, tail))
    (ht : ∀ tail opened, kind = .punctuation → OpenBracket.track opened (s ++ tail) = .ok opened) :
    Scans (s ++ ·) fun ts => ∃ t, ts = [t] ∧ t.kind = kind ∧ t.value = String.ofList s := by
  refine ⟨[(kind, s)], fun tail h => by simpa [hr] using h, ?_, ?_⟩
  · intro tail htail closer hc origin opened
    refine lexemes_lexeme hc (hb tail htail) (hl tail htail) ?_
    split
    · exact ht tail opened ‹_›
    · rfl
  · intro ts hts
    obtain ⟨t, rest, rfl, h, hrest⟩ := List.map_eq_cons_iff.1 hts
    obtain rfl := List.map_eq_nil_iff.1 hrest
    rw [Token.spelling, Prod.mk.injEq] at h
    exact ⟨t, rfl, h.1, by rw [← h.2, String.ofList_toList]⟩

end Scans

theorem isPrefixOf_append_cons {o : List Char} {c : Char} (hc : c ∉ o) (s x : List Char) :
    o.isPrefixOf (s ++ c :: x) = o.isPrefixOf s := by
  induction s generalizing o with
  | nil =>
    cases o with
    | nil => rfl
    | cons d o => simp [List.isPrefixOf, (List.ne_of_not_mem_cons hc).symm]
  | cons a s ih =>
    cases o with
    | nil => rfl
    | cons d o =>
      rw [List.cons_append, List.isPrefixOf, List.isPrefixOf, ih (List.not_mem_of_not_mem_cons hc)]

theorem lexeme?_symbol {s tail : List Char} (hs : s ∈ Lexeme.symbols) (ht : Parted tail) :
    lexeme? (s ++ tail) = some (.operator, s, tail) := by
  have table : parts.all (fun c => Lexeme.symbols.all fun o => !o.contains c) = true := by decide
  have hfree : ∀ c ∈ parts, ∀ o ∈ Lexeme.symbols, c ∉ o := by simpa using table
  have hfirst : ∀ o ∈ Lexeme.symbols, Lexeme.symbol? o = some o := by decide
  obtain ⟨c, rest, rfl, hc⟩ := ht
  have hsym : Lexeme.symbol? (s ++ c :: rest) = Lexeme.symbol? s :=
    List.find?_congr fun o ho => isPrefixOf_append_cons (hfree c hc o ho) s rest
  simp [lexeme?, hsym, hfirst s hs]

def written : List Char := ['(', ')', '[', ']', ',', ';']

theorem lexeme?_mark {c : Char} (hc : c ∈ written) (rest : List Char) :
    lexeme? (c :: rest) = some (.punctuation, [c], rest) := by
  have hsym : ∀ o ∈ Lexeme.symbols, o.head?.any written.contains = false := by decide
  have table : written.all (fun d => !Text.isNameStart d && !d.isDigit && d != '"' && d != '\'' &&
      Lexeme.marks.contains d) = true := by decide +kernel
  have hnone : Lexeme.symbol? (c :: rest) = none := by
    apply Lexeme.symbol?_eq_none
    intro o ho hh
    have ht := hsym o ho
    simp [hh, hc] at ht
  have ht := List.all_eq_true.1 table c hc
  simp only [Bool.and_eq_true, Bool.not_eq_true', bne_iff_ne] at ht
  obtain ⟨⟨⟨⟨hname, hdigit⟩, hdouble⟩, hsingle⟩, hmark⟩ := ht
  simp [lexeme?, hnone, hname, hdigit, hdouble, hsingle, List.contains_iff_mem.1 hmark]

theorem begins_of_ne {c : Char} (hb : Text.isBlank c = false) (hbrace : c ≠ '}')
    (hpercent : c ≠ '%') (rest : List Char) : Begins (c :: rest) :=
  ⟨c, rest, rfl, hb, hbrace, fun h => absurd h hpercent⟩

theorem begins_of_isNameStart {c : Char} (hc : Text.isNameStart c = true) (rest : List Char) :
    Begins (c :: rest) := by
  have hb : Text.isBlank c = false := by
    cases hb : Text.isBlank c with
    | false => rfl
    | true => simp [Text.isNameStart_of_isBlank hb] at hc
  refine begins_of_ne hb ?_ ?_ rest <;> rintro rfl <;> exact absurd hc (by decide)

theorem begins_of_isDigit {c : Char} (hc : c.isDigit = true) (rest : List Char) :
    Begins (c :: rest) := by
  have table : ∀ n ∈ List.range' 48 10, Text.inRanges Text.blankRanges n = false := by decide
  have hn := Text.toNat_of_isDigit hc
  have hb : Text.isBlank c = false := table c.toNat (by rw [List.mem_range'_1]; omega)
  refine begins_of_ne hb ?_ ?_ rest <;> rintro rfl <;> exact absurd hc (by decide)

theorem begins_mark {c : Char} (hc : c ∈ written) (rest : List Char) : Begins (c :: rest) := by
  have table : written.all (fun d => !Text.isBlank d && d != '}' && d != '%') = true := by decide
  have ht := List.all_eq_true.1 table c hc
  simp only [Bool.and_eq_true, Bool.not_eq_true', bne_iff_ne] at ht
  obtain ⟨⟨hb, hbrace⟩, hpercent⟩ := ht
  exact begins_of_ne hb hbrace hpercent rest

theorem Lexeme.Dotted.no_return {s : List Char} (h : Dotted s) : '\r' ∉ s := by
  have hr : Text.isNameChar '\r' = false := by decide
  induction h with
  | segment hs =>
    intro hm
    simp [hs.chars _ hm] at hr
  | dot hs _ ih =>
    intro hm
    rcases List.mem_append.1 hm with hm | hm
    · simp [hs.chars _ hm] at hr
    · simp [ih] at hm

theorem Lexeme.Digits.no_return {s : List Char} (h : Digits s) : '\r' ∉ s := by
  intro hm
  exact absurd (h.2 _ hm) (by decide)

theorem Lexeme.Numeral.no_return {s : List Char} (h : Numeral s) : '\r' ∉ s := by
  obtain ⟨whole, part, power, rfl, hw, hp, he⟩ := h
  have hpart : '\r' ∉ part := by
    obtain rfl | ⟨places, rfl, hd⟩ := hp
    · simp
    · simp [hd.no_return]
  have hpower : '\r' ∉ power := by
    obtain rfl | ⟨mark, sign, places, rfl, rfl | rfl, hs, hd⟩ := he
    · simp
    all_goals
      have hsign : '\r' ∉ sign := by
        simp only [List.mem_cons, List.not_mem_nil, or_false] at hs
        rcases hs with rfl | rfl | rfl <;> simp
      simp [hsign, hd.no_return]
  simp [hw.no_return, hpart, hpower]

theorem Text.Quoted.no_return (s : List Char) : '\r' ∉ write s := by
  have he : ∀ c, '\r' ∉ escape c := by
    intro c
    unfold escape
    repeat' split
    all_goals simp_all [eq_comm]
  simp [write, he]

namespace Scans

variable {f : List Char → List Char} {P : List Token → Prop}

theorem name_append {n : String} (h : Lexeme.Name n.toList) (hf : Scans f P)
    (he : ∀ tail, Parted tail → Lexeme.Ends (f tail)) :
    Scans (fun tail => n.toList ++ f tail) fun ts =>
      ∃ t us, ts = t :: us ∧ t.kind = .name ∧ t.value = n ∧ P us := by
  obtain ⟨ls, hfr, hf, hp⟩ := hf
  refine ⟨(.name, n.toList) :: ls, ?_, ?_, ?_⟩
  · intro tail ht
    exact hfr tail (by simpa [h.1.no_return] using ht)
  · intro tail ht closer hc origin opened
    have hb : Begins (n.toList ++ f tail) := by
      obtain ⟨c, rest, hn, hc⟩ := h.1.head
      rw [hn]
      exact begins_of_isNameStart hc _
    have hl := Lexeme.lexeme?_name h (he tail ht)
    rw [lexemes_lexeme hc hb hl (if_neg (by decide)), hf tail ht closer hc, map_ahead]
    rfl
  · intro ts hts
    obtain ⟨t, us, rfl, ht, hus⟩ := List.map_eq_cons_iff.1 hts
    rw [Token.spelling, Prod.mk.injEq] at ht
    exact ⟨t, us, rfl, ht.1, by rw [← String.toList_inj, ht.2], hp us hus⟩

theorem name {n : String} (h : Lexeme.Name n.toList) :
    Scans (n.toList ++ ·) fun ts => ∃ t, ts = [t] ∧ t.kind = .name ∧ t.value = n := by
  refine (name_append h nothing fun _ ht => ht.ends).mono ?_
  rintro ts ⟨t, us, rfl, hk, hv, rfl⟩
  exact ⟨t, rfl, hk, hv⟩

theorem number {n : String} (h : Lexeme.Numeral n.toList) :
    Scans (n.toList ++ ·) fun ts => ∃ t, ts = [t] ∧ t.kind = .number ∧ t.value = n := by
  obtain ⟨c, rest, hn, hc⟩ := h.head
  have hs : Scans (n.toList ++ ·) _ := lexeme h.no_return
    (fun tail _ => by rw [hn]; exact begins_of_isDigit hc _)
    (fun tail ht => Lexeme.lexeme?_number h ht.ends) (by simp)
  exact hs.mono fun ts hts => by simpa using hts

theorem string (s : String) : Scans (Text.Quoted.write s.toList ++ ·) fun ts =>
    ∃ t, ts = [t] ∧ t.kind = .string ∧ t.unquote = some s := by
  have hs : Scans (Text.Quoted.write s.toList ++ ·) _ := lexeme (Text.Quoted.no_return _)
    (fun tail _ => begins_of_ne (by decide) (by decide) (by decide) _)
    (fun tail _ => Lexeme.lexeme?_string s.toList tail) (by simp)
  refine hs.mono ?_
  rintro ts ⟨⟨kind, value, offset, line⟩, rfl, hk, hv⟩
  dsimp only at hk hv
  subst hk hv
  exact ⟨_, rfl, rfl, by rw [Token.unquote_write, String.ofList_toList]⟩

theorem symbol {s : List Char} (h : s ∈ Lexeme.symbols) : Scans (s ++ ·) fun ts =>
    ∃ t, ts = [t] ∧ t.kind = .operator ∧ t.value = String.ofList s := by
  have table : ∀ o ∈ Lexeme.symbols, '\r' ∉ o ∧ o ≠ [] ∧ o.head?.any Text.isBlank = false ∧
      o.head? ≠ some '}' ∧ (o.head? = some '%' → o = ['%']) := by decide
  obtain ⟨hr, hne, hblank, hbrace, hpercent⟩ := table s h
  refine lexeme hr ?_ (fun tail ht => lexeme?_symbol h ht) (by simp)
  rintro tail ⟨d, more, rfl, hd⟩
  obtain ⟨c, rest, rfl⟩ := List.exists_cons_of_ne_nil hne
  refine ⟨c, _, rfl, by simpa using hblank, by simpa using hbrace, ?_⟩
  rintro rfl
  have hd' : d ≠ '}' := by
    rintro rfl
    exact absurd hd (by decide)
  obtain rfl : rest = [] := by simpa using hpercent rfl
  simp [hd']

theorem mark {c : Char} (hc : c = ',' ∨ c = ';') : Scans (c :: ·) fun ts =>
    ∃ t, ts = [t] ∧ t.isPunct (String.ofList [c]) = true := by
  have hm : c ∈ written := by rcases hc with rfl | rfl <;> decide
  have hr : '\r' ∉ [c] := by rcases hc with rfl | rfl <;> decide
  have hs : Scans ([c] ++ ·) _ := lexeme hr (fun tail _ => begins_mark hm tail)
    (fun tail _ => lexeme?_mark hm tail) fun tail opened _ => by rcases hc with rfl | rfl <;> rfl
  refine hs.mono ?_
  rintro ts ⟨t, rfl, hk, hv⟩
  exact ⟨t, rfl, by simp [Token.isPunct, hk, hv]⟩

theorem brackets {a b : Char} (hab : a = '(' ∧ b = ')' ∨ a = '[' ∧ b = ']') (hf : Scans f P) :
    Scans (fun tail => a :: f (b :: tail)) fun ts => ∃ opening inner closing,
      ts = opening :: inner ++ [closing] ∧ opening.isPunct (String.ofList [a]) = true ∧
      P inner ∧ closing.isPunct (String.ofList [b]) = true := by
  obtain ⟨ls, hfr, hf, hp⟩ := hf
  have ha : a ∈ written := by
    rcases hab with ⟨rfl, rfl⟩ | ⟨rfl, rfl⟩ <;> decide
  have hb : b ∈ written := by
    rcases hab with ⟨rfl, rfl⟩ | ⟨rfl, rfl⟩ <;> decide
  refine ⟨(.punctuation, [a]) :: ls ++ [(.punctuation, [b])], ?_, ?_, ?_⟩
  · have hra : '\r' ≠ a := fun he => absurd (he ▸ ha) (by decide)
    have hrb : '\r' ≠ b := fun he => absurd (he ▸ hb) (by decide)
    intro tail ht
    have hbt := hfr (b :: tail) (by simpa [hra] using ht)
    simpa [hrb] using hbt
  · intro tail ht closer hc origin opened
    have hparted : Parted (b :: tail) :=
      ⟨b, tail, rfl, by rcases hab with ⟨rfl, rfl⟩ | ⟨rfl, rfl⟩ <;> decide⟩
    have hopen : lexemes closer origin opened (a :: f (b :: tail))
        = (lexemes closer origin (⟨a, a :: f (b :: tail)⟩ :: opened) (f (b :: tail))).map
          (ahead [(.punctuation, [a])]) :=
      lexemes_lexeme hc (begins_mark ha _) (lexeme?_mark ha _)
        (by rcases hab with ⟨rfl, rfl⟩ | ⟨rfl, rfl⟩ <;> rfl)
    have hclose : lexemes closer origin (⟨a, a :: f (b :: tail)⟩ :: opened) (b :: tail)
        = (lexemes closer origin opened tail).map (ahead [(.punctuation, [b])]) :=
      lexemes_lexeme hc (begins_mark hb _) (lexeme?_mark hb _)
        (by rcases hab with ⟨rfl, rfl⟩ | ⟨rfl, rfl⟩ <;> rfl)
    rw [hopen, hf _ hparted closer hc, hclose, map_ahead, map_ahead]
    simp
  · intro ts hts
    obtain ⟨us, vs, rfl, hus, hvs⟩ := List.map_eq_append_iff.1 hts
    obtain ⟨opening, inner, rfl, ho, hi⟩ := List.map_eq_cons_iff.1 hus
    obtain ⟨closing, rest, rfl, hc, hrest⟩ := List.map_eq_cons_iff.1 hvs
    obtain rfl := List.map_eq_nil_iff.1 hrest
    rw [Token.spelling, Prod.mk.injEq] at ho hc
    refine ⟨opening, inner, closing, rfl, ?_, hp inner hi, ?_⟩
    · simp [Token.isPunct, ho.1, ← ho.2]
    · simp [Token.isPunct, hc.1, ← hc.2]

end Scans

end Stencil
