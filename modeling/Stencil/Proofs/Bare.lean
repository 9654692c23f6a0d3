import Stencil.Proofs.Continuing
set_option autoImplicit false

namespace Stencil

/-- All that a round can do where no closer is asked for. -/
inductive Round.Bare (opened : List OpenBracket) (input : List Char) : Round → Prop where
  | ends (ho : opened = []) (hd : Text.dropBlanks input = []) :
      Bare opened input (.done [.gap (Text.leadingBlanks input)] [])
  | lexeme {c : Char} {rest text after : List Char} {kind : Token.Kind} {inner : List OpenBracket}
      (hd : Text.dropBlanks input = c :: rest) (hl : lexeme? (c :: rest) = some (kind, text, after))
      (ht : (if kind = .punctuation then OpenBracket.track opened (c :: rest) else .ok opened)
        = .ok inner) :
      Bare opened input
        (.more [.gap (Text.leadingBlanks input), .token kind text] inner after)

theorem Round.read_none_iff {origin : List Char} {opened : List OpenBracket} {input : List Char}
    {r : Round} : read none origin opened input = .ok r ↔ Bare opened input r := by
  constructor
  · intro h
    unfold read at h
    dsimp only at h
    split at h
    · rename_i hd
      obtain ⟨_, hnone, rfl⟩ := map_eq_ok h
      cases opened with
      | nil => exact .ends rfl hd
      | cons b outer => simp [OpenBracket.checkNone] at hnone
    · rename_i c rest hd
      simp only [Option.filter] at h
      unfold atLexeme at h
      split at h
      · simp at h
      · rename_i kind text after hl
        obtain ⟨inner, ht, rfl⟩ := map_eq_ok h
        exact .lexeme hd hl ht
  · intro h
    cases h with
    | ends ho hd => simp [read, hd, atEnd, ho, OpenBracket.checkNone, Except.map]
    | lexeme hd hl ht => simp [read, hd, Option.filter, atLexeme, hl, ht, Except.map]

theorem interior_none_left {origin input left : List Char} {opened : List OpenBracket}
    {pieces : List Piece} (h : interior none origin opened input = .ok (pieces, left)) :
    left = [] := by
  fun_induction interior none origin opened input generalizing pieces left with
  | case1 => simp at h
  | case2 opened input ps l hr =>
    simp only [Except.ok.injEq, Prod.mk.injEq] at h
    obtain ⟨rfl, rfl⟩ := h
    cases Round.read_none_iff.1 hr
    rfl
  | case3 => simp at h
  | case4 opened input ps inner after hr rest l hi ih =>
    simp only [Except.ok.injEq, Prod.mk.injEq] at h
    obtain ⟨rfl, rfl⟩ := h
    exact ih hi

theorem tokenizeExpression_ok {text : String} {tokens : List Token}
    (h : tokenizeExpression text = .ok tokens) : ∃ pieces,
      interior none (Text.normalize text.toList) [] (Text.normalize text.toList) = .ok (pieces, [])
      ∧ tokens = Token.ofPieces 0 1 pieces := by
  unfold tokenizeExpression at h
  dsimp only at h
  split at h
  · simp at h
  · rename_i pieces left hi
    obtain rfl := interior_none_left hi
    simp only [Except.ok.injEq] at h
    exact ⟨pieces, hi, h.symm⟩

def ending : List Char := ' ' :: Closer.block.text

theorem ending_unquoted : '"' ∉ ending ∧ '\'' ∉ ending := by decide

theorem Text.blanks_of_dropBlanks {s : List Char} (h : dropBlanks s = []) :
    leadingBlanks s = s ∧ Blanks s := by
  have hs : leadingBlanks s = s := by simpa [h] using leadingBlanks_append_dropBlanks s
  exact ⟨hs, hs ▸ blanks_leadingBlanks s⟩

theorem dropBlanks_ending {s : List Char} (h : Text.dropBlanks s = []) :
    Text.dropBlanks (s ++ ending) = Closer.block.text := by
  rw [Text.dropBlanks_append (Text.blanks_of_dropBlanks h).2]
  rfl

namespace Round

variable {opened others : List OpenBracket} {s : List Char} {ps : List Piece}

theorem Reads.done_bare (h : Reads .block opened (s ++ ending) (.done ps []))
    (ho : SameBrackets opened others) :
    Bare others s (.done [.gap (Text.leadingBlanks s)] []) ∧
      Piece.spellings ps = [(Closer.block.kind, Closer.block.text)] := by
  cases h with
  | closes hnil hd =>
    subst hnil
    obtain rfl := List.map_eq_nil_iff.1 ho.symm
    -- a closer further in would leave something unread
    have hblank : Text.dropBlanks s = [] := by
      cases hb : Text.dropBlanks s with
      | nil => rfl
      | cons c rest =>
        obtain ⟨hdrop, _⟩ := Text.blanks_append hb ending
        have hlen := congrArg List.length (hdrop.symm.trans hd)
        simp [ending, Closer.block] at hlen
    exact ⟨.ends rfl hblank, rfl⟩

theorem Reads.more_bare {inner : List OpenBracket} {after : List Char}
    (h : Reads .block opened (s ++ ending) (.more ps inner after))
    (ho : SameBrackets opened others) :
    ∃ left inner', after = left ++ ending ∧ SameBrackets inner inner' ∧
      Bare others s (.more ps inner' left) := by
  cases h with
  | @lexeme c rest text _ kind _ hd he hl ht =>
    cases hb : Text.dropBlanks s with
    | nil =>
      rw [dropBlanks_ending hb] at hd
      rw [← hd] at he
      simp [Closer.endsAt, Closer.block] at he
    | cons d more =>
      obtain ⟨hdrop, hlead⟩ := Text.blanks_append hb ending
      obtain ⟨rfl, rfl⟩ := List.cons.inj (hdrop.symm.trans hd)
      rw [ending, lexeme?_append_barrier barrier_space ending_unquoted] at hl
      obtain ⟨⟨kind', text', left⟩, hlexeme, heq⟩ := Option.map_eq_some_iff.1 hl
      simp only [Prod.mk.injEq] at heq
      obtain ⟨rfl, rfl, rfl⟩ := heq
      obtain ⟨inner', hinner, hsame⟩ := OpenBracket.same_after ho ht more
      rw [hlead]
      exact ⟨left, inner', rfl, hsame, .lexeme hb hlexeme hinner⟩

end Round

/-- What is read up to the closing tag at the end is read without it as well, and nothing else. -/
theorem interior_bare {origin input : List Char} {opened : List OpenBracket} {pieces : List Piece}
    (h : interior (some .block) origin opened input = .ok (pieces, [])) (origin' : List Char)
    {others : List OpenBracket} (ho : SameBrackets opened others) {s : List Char}
    (hs : input = s ++ ending) :
    ∃ inside, interior none origin' others s = .ok (inside, []) ∧
      Piece.spellings pieces
        = Piece.spellings inside ++ [(Closer.block.kind, Closer.block.text)] := by
  fun_induction interior (some Closer.block) origin opened input
    generalizing pieces s others with
  | case1 => simp at h
  | case2 opened input ps l hr =>
    simp only [Except.ok.injEq, Prod.mk.injEq] at h
    obtain ⟨rfl, rfl⟩ := h
    subst hs
    obtain ⟨hbare, hsp⟩ := (Round.reads_of_read hr).done_bare ho
    refine ⟨[.gap (Text.leadingBlanks s)], ?_, hsp⟩
    rw [interior_eq, Round.read_none_iff.2 hbare]
  | case3 => simp at h
  | case4 opened input ps inner after hr rest l hi ih =>
    simp only [Except.ok.injEq, Prod.mk.injEq] at h
    obtain ⟨rfl, rfl⟩ := h
    subst hs
    obtain ⟨left, inner', hafter, hsame, hbare⟩ := (Round.reads_of_read hr).more_bare ho
    obtain ⟨inside, hinside, hsp⟩ := ih hi hsame hafter
    refine ⟨ps ++ inside, ?_, by simp [Piece.spellings_append, hsp]⟩
    rw [interior_eq, Round.read_none_iff.2 hbare]
    simp [hinside, Except.map]

namespace Expression

/-- An expression that is written is cut into tokens and read as it was. -/
theorem parse_tokenizeExpression_toString {e : Expression} (h : e.Normal) :
    ∃ tokens, tokenizeExpression e.toString = .ok tokens ∧ parse tokens = .ok e := by
  obtain ⟨ls, hr, hf, hp⟩ := scans_write e h
  have hnormal : Text.normalize e.toString.toList = e.write [] := by
    rw [toString, String.toList_ofList]
    exact Text.normalize_of_not_mem fun hm => by simpa using hr [] hm
  have hl : lexemes .block [] [] (e.write ending)
      = .ok (ls ++ [(Closer.block.kind, Closer.block.text)], []) :=
    lexemes_of_scans (.inr rfl) hf [] []
  rw [write_append] at hl
  obtain ⟨⟨pieces, left⟩, hi, he⟩ := map_eq_ok hl
  simp only [Prod.mk.injEq] at he
  obtain ⟨hpieces, rfl⟩ := he
  obtain ⟨inside, hinside, hsp⟩ := interior_bare hi (e.write []) rfl rfl
  have hls : Piece.spellings inside = ls := List.append_cancel_right (hsp.symm.trans hpieces)
  refine ⟨Token.ofPieces 0 1 inside, ?_, ?_⟩
  · simp only [tokenizeExpression, hnormal, hinside]
  · exact (hp _ (by rw [Piece.spelling_ofPieces, hls])).parse

def tangled : Expression :=
  .binary .sub (.binary .sub (.identifier "a.b") (.number "1.5e+3"))
    (.binary .sub (.call "f" none)
      (.binary .mul (.index (.binary .add (.string "'\"\\\r\n%\x7d") (.identifier "_"))
        (.binary .lt (.number "0") (.number "2")))
        (.call "g" (some [.binary .eq (.identifier "x") (.identifier "y"), .string ""]))))

theorem parse_tangled : tangled.Normal ∧
    ∃ tokens, tokenizeExpression tangled.toString = .ok tokens ∧ parse tokens = .ok tangled := by
  have h : tangled.Normal := by decide +kernel
  exact ⟨h, parse_tokenizeExpression_toString h⟩

end Expression

end Stencil
