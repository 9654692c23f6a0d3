import Stencil.Proofs.Bare
import Stencil.Proofs.LineEnds
set_option autoImplicit false

namespace Stencil

theorem barrier_of_isBlank {b : Char} (h : Text.isBlank b = true) : Barrier b where
  char := Text.isNameChar_of_isBlank h
  dot := by
    rintro rfl
    revert h
    decide
  symbol := by
    have table : ∀ o ∈ Lexeme.symbols, o.tail.any Text.isBlank = false := by decide
    intro o ho hm
    have hnone := List.any_eq_false.1 (table o ho) b hm
    exact hnone h

theorem lexeme?_alone {s text after : List Char} {kind : Token.Kind}
    (h : lexeme? s = some (kind, text, after)) : lexeme? text = some (kind, text, []) := by
  have hsymbols : ∀ o ∈ Lexeme.symbols, lexeme? o = some (.operator, o, []) := by decide +kernel
  have hwords : ∀ w ∈ Lexeme.words, lexeme? w = some (.operator, w, []) := by decide +kernel
  have hmarks : Lexeme.marks.all (fun c => lexeme? [c] = some (.punctuation, [c], [])) = true := by
    decide +kernel
  unfold lexeme? at h
  split at h
  · rename_i ho
    simp only [Option.some.injEq, Prod.mk.injEq] at h
    obtain ⟨rfl, rfl, _⟩ := h
    exact hsymbols _ (List.mem_of_find?_eq_some ho)
  · simp at h
  · rename_i c rest _
    split at h
    · rename_i hc
      simp only [Option.some.injEq, Prod.mk.injEq] at h
      obtain ⟨rfl, rfl, _⟩ := h
      split
      · rename_i hw
        exact hwords _ (by simpa using hw)
      · rename_i hw
        exact Lexeme.name_iff.1 ⟨Lexeme.dotted_nameTail hc rest, by simpa using hw⟩
    · split at h
      · rename_i hc
        simp only [Option.some.injEq, Prod.mk.injEq] at h
        obtain ⟨rfl, hn⟩ := h
        have hnumber := Lexeme.numeral_number hc rest
        rw [hn] at hnumber
        exact Lexeme.numeral_iff.1 hnumber
      · split at h
        · rename_i hc
          obtain ⟨⟨run, left⟩, htail, he⟩ := Option.map_eq_some_iff.1 h
          simp only [Prod.mk.injEq] at he
          obtain ⟨rfl, rfl, rfl⟩ := he
          have hrun := Text.Quoted.tail_run htail []
          rw [List.append_nil] at hrun
          rw [Lexeme.lexeme?_quote (by simpa using hc), hrun]
          rfl
        · split at h
          · rename_i hc
            simp only [Option.some.injEq, Prod.mk.injEq] at h
            obtain ⟨rfl, rfl, _⟩ := h
            have hmark := List.all_eq_true.1 hmarks c (by simpa using hc)
            exact of_decide_eq_true hmark
          · simp at h

/-- A lexeme ends where a blank or nothing follows it. -/
theorem lexeme?_spaced {s text after : List Char} {kind : Token.Kind}
    (h : lexeme? s = some (kind, text, after)) {tail : List Char}
    (ht : ∀ c ∈ tail.head?, Text.isBlank c = true) :
    lexeme? (text ++ tail) = some (kind, text, tail) := by
  have halone := lexeme?_alone h
  cases tail with
  | nil => simpa using halone
  | cons b tail =>
    obtain ⟨c, run, rfl⟩ := List.exists_cons_of_ne_nil (lexeme?_spec halone).2
    by_cases hc : c = '"' ∨ c = '\''
    · rw [Lexeme.lexeme?_quote hc] at halone
      obtain ⟨⟨run', left⟩, htail, he⟩ := Option.map_eq_some_iff.1 halone
      simp only [Prod.mk.injEq, List.cons.injEq, true_and] at he
      obtain ⟨rfl, rfl, rfl⟩ := he
      rw [List.cons_append, Lexeme.lexeme?_quote hc, Text.Quoted.tail_more htail]
      rfl
    · have hb : Barrier b := barrier_of_isBlank (ht b rfl)
      rw [List.cons_append, lexeme?_barrier hb hc, halone]
      rfl

/-- Words in their order, with blanks around them, and each before a blank or the end. -/
inductive Spaced : List (List Char) → List Char → Prop where
  | blanks {gap : List Char} (hg : Text.Blanks gap) : Spaced [] gap
  | word {gap word rest : List Char} {words : List (List Char)} (hg : Text.Blanks gap)
      (hr : Spaced words rest) (hb : ∀ c ∈ rest.head?, Text.isBlank c = true) :
      Spaced (word :: words) (gap ++ word ++ rest)

namespace Round

variable {opened others inner : List OpenBracket} {input after text : List Char} {ps : List Piece}

theorem Bare.done_spaced (h : Bare opened input (.done ps after)) (ho : SameBrackets opened others)
    (hs : Spaced ((Piece.spellings ps).map Prod.snd) text) :
    Bare others (Text.normalize text) (.done [.gap (Text.leadingBlanks (Text.normalize text))] []) ∧
      Piece.spellings ps = [] := by
  cases h with
  | ends hnil =>
    subst hnil
    obtain rfl := List.map_eq_nil_iff.1 ho.symm
    cases hs with
    | blanks hg =>
      have hd : Text.dropBlanks (Text.normalize text) = [] := by
        rw [← List.append_nil (Text.normalize text), Text.dropBlanks_append hg.normalize]
        rfl
      exact ⟨.ends rfl hd, rfl⟩

theorem Bare.more_spaced (h : Bare opened input (.more ps inner after)) (hn : '\r' ∉ input)
    (ho : SameBrackets opened others) {ls : List Spelling}
    (hs : Spaced ((Piece.spellings ps ++ ls).map Prod.snd) text) :
    ∃ ps' inner' rest, Bare others (Text.normalize text) (.more ps' inner' (Text.normalize rest)) ∧
      Piece.spellings ps' = Piece.spellings ps ∧ SameBrackets inner inner' ∧
      Spaced (ls.map Prod.snd) rest := by
  cases h with
  | @lexeme c rest text _ kind _ hd hl ht =>
    obtain ⟨hword, hne⟩ := lexeme?_spec hl
    obtain ⟨d, run, rfl⟩ := List.exists_cons_of_ne_nil hne
    obtain rfl : d = c := (List.cons.inj hword).1
    have hreturn : '\r' ∉ d :: run := by
      intro hm
      have hall := Text.leadingBlanks_append_dropBlanks input
      rw [hd, ← hword] at hall
      exact hn (hall ▸ List.mem_append_right _ (List.mem_append_left after hm))
    have hblank : Text.isBlank d = false := Text.isBlank_of_dropBlanks hd
    cases hs with
    | @word gap _ tail _ hg hr hb =>
      have hgap := hg.normalize
      have htail := Text.isBlank_head_normalize hb
      obtain ⟨inner', hinner, hsame⟩ :=
        OpenBracket.same_after ho ht (run ++ Text.normalize tail)
      refine ⟨_, inner', tail, .lexeme (c := d) ?_ (lexeme?_spaced hl htail) hinner, rfl,
        hsame, hr⟩
      rw [Text.normalize_word hblank hreturn, List.append_assoc, Text.dropBlanks_append hgap,
        List.cons_append, Text.dropBlanks_cons hblank]
      rfl

end Round

/-- What is read without a closer is read out of any text with the same words and other blanks. -/
theorem interior_spaced {origin input left : List Char} {opened : List OpenBracket}
    {pieces : List Piece} (h : interior none origin opened input = .ok (pieces, left))
    (hn : '\r' ∉ input) (origin' : List Char) {others : List OpenBracket}
    (ho : SameBrackets opened others) {text : List Char}
    (hs : Spaced ((Piece.spellings pieces).map Prod.snd) text) :
    ∃ inside, interior none origin' others (Text.normalize text) = .ok (inside, []) ∧
      Piece.spellings inside = Piece.spellings pieces := by
  fun_induction interior none origin opened input generalizing pieces left text others with
  | case1 => simp at h
  | case2 opened input ps l hr =>
    simp only [Except.ok.injEq, Prod.mk.injEq] at h
    obtain ⟨rfl, rfl⟩ := h
    obtain ⟨hdone, hnone⟩ := (Round.read_none_iff.1 hr).done_spaced ho hs
    refine ⟨[.gap (Text.leadingBlanks (Text.normalize text))], ?_, hnone.symm⟩
    rw [interior_eq, Round.read_none_iff.2 hdone]
  | case3 => simp at h
  | case4 opened input ps inner after hr rest l hi ih =>
    simp only [Except.ok.injEq, Prod.mk.injEq] at h
    obtain ⟨rfl, rfl⟩ := h
    have hafter : '\r' ∉ after := by
      have hcover : Piece.cover ps ++ after = input := Round.read_cover hr
      exact fun hm => hn (by rw [← hcover]; simp [hm])
    rw [Piece.spellings_append] at hs
    obtain ⟨ps', inner', text', hmore, hps, hsame, htext⟩ :=
      (Round.read_none_iff.1 hr).more_spaced hn ho hs
    obtain ⟨inside, hinside, hsp⟩ := ih hi hafter hsame htext
    refine ⟨ps' ++ inside, ?_, by simp only [Piece.spellings_append, hps, hsp]⟩
    rw [interior_eq, Round.read_none_iff.2 hmore]
    simp [hinside, Except.map]

/-- The values of tokens after a first gap, each with a gap of its own behind it. -/
def respaced (first : String) (tokens : List Token) (gaps : List String) : String :=
  first ++ String.join (List.zipWith (fun t gap => t.value ++ gap) tokens gaps)

theorem respaced_cons (first gap : String) (t : Token) (tokens : List Token)
    (gaps : List String) : (respaced first (t :: tokens) (gap :: gaps)).toList
      = first.toList ++ t.value.toList ++ (respaced gap tokens gaps).toList := by
  simp [respaced]

theorem spaced_respaced {first : String} {tokens : List Token} {gaps : List String}
    (hl : gaps.length = tokens.length) (hf : Text.Blanks first.toList)
    (hg : ∀ gap ∈ gaps, Text.Blanks gap.toList) (hn : ∀ gap ∈ gaps.dropLast, gap ≠ "") :
    Spaced (tokens.map (·.value.toList)) (respaced first tokens gaps).toList := by
  induction tokens generalizing first gaps with
  | nil => simpa [respaced] using Spaced.blanks hf
  | cons t tokens ih =>
    obtain ⟨gap, gaps, rfl⟩ := List.exists_cons_of_length_eq_add_one hl
    have hlen : gaps.length = tokens.length := by simpa using hl
    have hgap : Text.Blanks gap.toList := hg gap (by simp)
    rw [respaced_cons]
    refine .word hf (ih hlen hgap (fun g hm => hg g (by simp [hm])) ?_) ?_
    · intro g hm
      cases gaps with
      | nil => simp at hm
      | cons g' gaps => exact hn g (List.mem_cons_of_mem gap hm)
    · -- only the last gap may be empty, and nothing stands behind it
      cases gaps with
      | nil =>
        obtain rfl := List.eq_nil_of_length_eq_zero hlen.symm
        intro c hc
        exact hgap c (List.mem_of_mem_head? (by simpa [respaced] using hc))
      | cons g' gaps =>
        have hne : gap.toList ≠ [] := by simpa using hn gap (by simp)
        obtain ⟨c, rest, hcons⟩ := List.exists_cons_of_ne_nil hne
        intro d hd
        simp only [respaced, String.toList_append, hcons, List.cons_append, List.head?_cons,
          Option.mem_some_iff] at hd
        exact hgap d (by simp [hcons, hd])

/-- An expression is cut into the same tokens again when other blanks are put between their values,
before the first and behind the last; only two values next to each other must not touch. -/
theorem tokenizeExpression_respaced {text : String} {tokens : List Token}
    (h : tokenizeExpression text = .ok tokens) {first : String} {gaps : List String}
    (hl : gaps.length = tokens.length) (hf : Text.Blanks first.toList)
    (hg : ∀ gap ∈ gaps, Text.Blanks gap.toList) (hn : ∀ gap ∈ gaps.dropLast, gap ≠ "") :
    ∃ others, tokenizeExpression (respaced first tokens gaps) = .ok others ∧
      others.map Token.spelling = tokens.map Token.spelling := by
  have hspaced := spaced_respaced hl hf hg hn
  obtain ⟨pieces, hi, rfl⟩ := tokenizeExpression_ok h
  have hsp := Piece.spelling_ofPieces pieces 0 1
  have hwords : (Token.ofPieces 0 1 pieces).map (·.value.toList)
      = (Piece.spellings pieces).map Prod.snd := by rw [← hsp, List.map_map]; rfl
  rw [hwords] at hspaced
  obtain ⟨inside, hinside, hsame⟩ := interior_spaced hi (Text.not_mem_normalize _)
    (Text.normalize (respaced first (Token.ofPieces 0 1 pieces) gaps).toList) rfl hspaced
  refine ⟨Token.ofPieces 0 1 inside, ?_, by rw [Piece.spelling_ofPieces, hsame, hsp]⟩
  simp only [tokenizeExpression, hinside]

def denseText : String := "a.b<=-1.5e+3and.é'\\'\n %\x7d'is[2e]"

def denseTokens : List Token :=
  [⟨.name, "a.b", 0, 1⟩, ⟨.operator, "<=", 3, 1⟩, ⟨.operator, "-", 5, 1⟩, ⟨.number, "1.5e+3", 6, 1⟩,
    ⟨.name, "and.é", 12, 1⟩, ⟨.string, "'\\'\n %\x7d'", 18, 1⟩, ⟨.operator, "is", 26, 2⟩,
    ⟨.punctuation, "[", 28, 2⟩, ⟨.number, "2", 29, 2⟩, ⟨.name, "e", 30, 2⟩,
    ⟨.punctuation, "]", 31, 2⟩]

def wideGaps : List String :=
  ["\r", "\n", " ", "\u2028", "\u00a0\r\n", "\r\n", "\t", "\x0b", "\u3000", "  ", ""]

theorem respaced_dense : tokenizeExpression denseText = .ok denseTokens ∧
    wideGaps.length = denseTokens.length ∧ Text.Blanks "\u2003".toList ∧
    (∀ gap ∈ wideGaps, Text.Blanks gap.toList) ∧ (∀ gap ∈ wideGaps.dropLast, gap ≠ "") ∧
    ∃ others, tokenizeExpression (respaced "\u2003" denseTokens wideGaps) = .ok others ∧
      others.map Token.spelling = denseTokens.map Token.spelling :=
  have h : tokenizeExpression denseText = .ok denseTokens := by decide +kernel
  have hl : wideGaps.length = denseTokens.length := by decide
  have hf : Text.Blanks "\u2003".toList := by decide +kernel
  have hg : ∀ gap ∈ wideGaps, Text.Blanks gap.toList := by decide +kernel
  have hn : ∀ gap ∈ wideGaps.dropLast, gap ≠ "" := by decide +kernel
  ⟨h, hl, hf, hg, hn, tokenizeExpression_respaced h hl hf hg hn⟩

end Stencil
