import Stencil.Proofs.Layout
set_option autoImplicit false

namespace Stencil

def Token.Kind.enters (inside : Bool) : Token.Kind → Bool
  | valueStart | blockStart => true
  | valueEnd | blockEnd => false
  | _ => inside

def Token.Kind.inTag (kinds : List Token.Kind) : Bool := kinds.foldl enters false

namespace Token

def stop (t : Token) : Nat := t.offset + Text.size t.value.toList

/-- The value is the part of the text at the offset, and the line counts the line feeds before. -/
def StandsIn (text : List Char) (t : Token) : Prop :=
  ∃ before after, text = before ++ t.value.toList ++ after ∧ t.offset = Text.size before ∧
    t.line = 1 + before.count '\n'

end Token

/-- A part of a text that no token covers, given the tokens before it, those after it, and the
byte where it ends. -/
inductive Gap (earlier later : List Token) (stop : Nat) : List Char → Prop where
  | blanks {s : List Char} (ho : Token.Kind.inTag (earlier.map (·.kind)) = true)
      (hs : Text.Blanks s) : Gap earlier later stop s
  | skipped {s : List Char} (ho : Token.Kind.inTag (earlier.map (·.kind)) = false)
      (hs : Skipped s) : Gap earlier later stop s
  | atSign {t : Token} {more : List Token} {tag : Tag} {body : List Char}
      (ho : Token.Kind.inTag (earlier.map (·.kind)) = false) (hl : later = t :: more)
      (hk : t.kind = .text) (hs : t.offset = stop)
      (hv : t.value.toList = tag.opening ++ body ++ tag.closing) (hb : tag.Closes body) :
      Gap earlier later stop ['@']

structure Spans (text : List Char) (tokens : List Token) : Prop where
  stands : ∀ t ∈ tokens, t.StandsIn text
  nonempty : ∀ t ∈ tokens, t.kind ≠ .eof → t.value ≠ ""
  ordered : tokens.Pairwise fun a b => a.stop ≤ b.offset
  ends : ∃ inner, tokens = inner ++ [⟨.eof, "", Text.size text, 1 + text.count '\n'⟩] ∧
    ∀ t ∈ inner, t.kind ≠ .eof
  gaps : ∀ before c after, text = before ++ c :: after →
    (∃ t ∈ tokens, t.offset ≤ Text.size before ∧ Text.size before < t.stop) ∨
    ∃ start u v finish earlier later, before = start ++ u ∧ after = v ++ finish ∧
      tokens = earlier ++ later ∧ (∀ t ∈ earlier, t.stop ≤ Text.size start) ∧
      (∀ t ∈ later, Text.size (before ++ c :: v) ≤ t.offset) ∧
      Gap earlier later (Text.size (before ++ c :: v)) (u ++ c :: v)

namespace Token

theorem ofPieces_append (offset line : Nat) (ps qs : List Piece) :
    ofPieces offset line (ps ++ qs) = ofPieces offset line ps ++
      ofPieces (offset + Text.size (Piece.cover ps)) (line + (Piece.cover ps).count '\n') qs := by
  induction ps generalizing offset line with
  | nil => rfl
  | cons p ps ih =>
    have hcover : Piece.cover (p :: ps) = p.text ++ Piece.cover ps := rfl
    cases p with
    | gap s | token kind s =>
      simp [ofPieces, ih, hcover, Piece.text, Text.size_append, Nat.add_assoc]

def moved (bytes lines : Nat) (t : Token) : Token :=
  { t with
    offset := bytes + t.offset
    line := lines + t.line }

theorem ofPieces_moved (bytes lines offset line : Nat) (pieces : List Piece) :
    ofPieces (bytes + offset) (lines + line) pieces
      = (ofPieces offset line pieces).map (moved bytes lines) := by
  induction pieces generalizing offset line with
  | nil => rfl
  | cons p more ih =>
    cases p with
    | gap s => simp only [ofPieces, Nat.add_assoc, ih]
    | token kind s => simp only [ofPieces, Nat.add_assoc, ih, List.map_cons, moved]

theorem exists_of_mem_ofPieces {pieces : List Piece} {offset line : Nat} {t : Token}
    (h : t ∈ ofPieces offset line pieces) : ∃ ps s qs, pieces = ps ++ .token t.kind s :: qs ∧
      t.value = String.ofList s ∧ t.offset = offset + Text.size (Piece.cover ps) ∧
      t.line = line + (Piece.cover ps).count '\n' := by
  induction pieces generalizing offset line with
  | nil => simp [ofPieces] at h
  | cons p more ih =>
    have hlater (h : t ∈ ofPieces (offset + Text.size p.text) (line + p.text.count '\n') more) :
        ∃ ps s qs, p :: more = ps ++ .token t.kind s :: qs ∧ t.value = String.ofList s ∧
          t.offset = offset + Text.size (Piece.cover ps) ∧
          t.line = line + (Piece.cover ps).count '\n' := by
      obtain ⟨ps, s, qs, rfl, hv, ho, hl⟩ := ih h
      have hcover : Piece.cover (p :: ps) = p.text ++ Piece.cover ps := rfl
      refine ⟨p :: ps, s, qs, rfl, hv, ?_, ?_⟩
      · rw [ho, hcover, Text.size_append, Nat.add_assoc]
      · rw [hl, hcover, List.count_append, Nat.add_assoc]
    cases p with
    | gap s => exact hlater h
    | token kind s =>
      cases h with
      | head =>
        exact ⟨[], s, more, rfl, rfl, by simp [Piece.cover, Text.size], by simp [Piece.cover]⟩
      | tail _ h => exact hlater h

theorem ofPieces_bounds {pieces : List Piece} {offset line : Nat} {t : Token}
    (h : t ∈ ofPieces offset line pieces) :
    offset ≤ t.offset ∧ t.stop ≤ offset + Text.size (Piece.cover pieces) := by
  obtain ⟨ps, s, qs, rfl, hv, ho, _⟩ := exists_of_mem_ofPieces h
  have hcover : Piece.cover (ps ++ .token t.kind s :: qs)
      = Piece.cover ps ++ (s ++ Piece.cover qs) := by simp [Piece.cover, Piece.text]
  rw [hcover, Text.size_append, Text.size_append, stop, hv, String.toList_ofList]
  omega

theorem exists_mem_ofPieces (offset line : Nat) (ps qs : List Piece) (kind : Kind)
    (s : List Char) : ∃ t ∈ ofPieces offset line (ps ++ .token kind s :: qs),
      t.offset = offset + Text.size (Piece.cover ps) ∧
      t.stop = offset + Text.size (Piece.cover ps ++ s) := by
  rw [ofPieces_append]
  refine ⟨_, List.mem_append_right _ (.head _), rfl, ?_⟩
  simp [stop, Text.size_append, Nat.add_assoc]

theorem ofPieces_ordered (pieces : List Piece) (offset line : Nat) :
    (ofPieces offset line pieces).Pairwise fun a b => a.stop ≤ b.offset := by
  induction pieces generalizing offset line with
  | nil => exact .nil
  | cons p more ih =>
    cases p with
    | gap s => exact ih _ _
    | token kind s =>
      refine .cons (fun t ht => ?_) (ih _ _)
      simpa [stop] using (ofPieces_bounds ht).1

theorem kinds_ofPieces (pieces : List Piece) (offset line : Nat) :
    (ofPieces offset line pieces).map (·.kind) = (Piece.spellings pieces).map Prod.fst := by
  rw [← Piece.spelling_ofPieces pieces offset line, List.map_map]
  rfl

end Token

theorem Piece.exists_of_cover {pieces : List Piece} {before after : List Char} {c : Char}
    (h : cover pieces = before ++ c :: after) : ∃ ps p qs u v, pieces = ps ++ p :: qs ∧
      p.text = u ++ c :: v ∧ before = cover ps ++ u ∧ after = v ++ cover qs := by
  induction pieces generalizing before with
  | nil => simp [cover] at h
  | cons p more ih =>
    have hcover : cover (p :: more) = p.text ++ cover more := rfl
    rw [hcover] at h
    obtain ⟨x, rfl, hx⟩ | ⟨x, hp, hx⟩ := List.append_eq_append_iff.1 h
    · obtain ⟨ps, q, qs, u, v, rfl, hq, rfl, hafter⟩ := ih hx
      exact ⟨p :: ps, q, qs, u, v, rfl, hq, by simp [cover], hafter⟩
    · cases x with
      | nil =>
        -- the character is the first one after `p`
        obtain ⟨ps, q, qs, u, v, rfl, hq, hu, hafter⟩ := @ih [] (by simpa using hx.symm)
        refine ⟨p :: ps, q, qs, u, v, rfl, hq, ?_, hafter⟩
        have hpre : before = p.text := by simpa using hp.symm
        rw [hpre, ← List.append_nil p.text, hu]
        simp [cover]
      | cons d x =>
        simp only [List.cons_append, List.cons.injEq] at hx
        obtain ⟨rfl, rfl⟩ := hx
        exact ⟨[], p, more, before, x, rfl, hp, rfl, rfl⟩

namespace Layout

def Passes (ps qs : List Piece) (s : List Char) : Prop :=
  (Token.Kind.inTag ((Piece.spellings ps).map Prod.fst) = true ∧ Text.Blanks s) ∨
    Token.Kind.inTag ((Piece.spellings ps).map Prod.fst) = false ∧
    (Skipped s ∨ s = ['@'] ∧ ∃ (tag : Tag) (body : List Char) (more : List Piece),
      qs = .token .text (tag.opening ++ body ++ tag.closing) :: more ∧ tag.Closes body)

theorem enters_inner {inside : List Piece} (hi : ∀ p ∈ inside, p.Inner) (b : Bool) :
    ((Piece.spellings inside).map Prod.fst).foldl Token.Kind.enters b = b := by
  induction inside with
  | nil => rfl
  | cons p inside ih =>
    have hrest := ih fun q hq => hi q (by simp [hq])
    cases hi p (by simp) with
    | blanks => exact hrest
    | @lexeme kind s hk _ => cases kind <;> first | exact hrest | exact hk.elim

theorem inTag_inside {e : Spelling × Spelling} (he : e ∈ enclosures) {inside : List Piece}
    (hi : ∀ p ∈ inside, p.Inner) : Token.Kind.inTag
      ((Piece.spellings (.token e.1.1 e.1.2 :: inside)).map Prod.fst) = true := by
  have hopen : Token.Kind.enters false e.1.1 = true := by
    simp only [enclosures, List.mem_cons, List.not_mem_nil, or_false] at he
    rcases he with rfl | rfl <;> rfl
  simp [Token.Kind.inTag, Piece.spellings, hopen, enters_inner hi]

theorem inTag_after {e : Spelling × Spelling} (he : e ∈ enclosures) {inside : List Piece}
    (hi : ∀ p ∈ inside, p.Inner) (ps : List Piece) : Token.Kind.inTag
      ((Piece.spellings (.token e.1.1 e.1.2 :: (inside ++ .token e.2.1 e.2.2 :: ps))).map Prod.fst)
      = Token.Kind.inTag ((Piece.spellings ps).map Prod.fst) := by
  have hclose : ∀ b, Token.Kind.enters b e.2.1 = false := by
    simp only [enclosures, List.mem_cons, List.not_mem_nil, or_false] at he
    rcases he with rfl | rfl <;> exact fun _ => rfl
  simp [Token.Kind.inTag, Piece.spellings, Piece.spellings_append, enters_inner hi, hclose]

theorem passes {pieces : List Piece} (h : Layout pieces) {ps qs : List Piece} {s : List Char}
    (heq : pieces = ps ++ .gap s :: qs) : Passes ps qs s := by
  induction h generalizing ps with
  | nil => simp at heq
  | @text run more hs hm ih =>
    cases ps with
    | nil => simp at heq
    | cons p ps =>
      simp only [List.cons_append, List.cons.injEq] at heq
      obtain ⟨rfl, hmore⟩ := heq
      have hpasses : Passes ps qs s := ih hmore
      exact hpasses
  | @skipped run more hs hm ih =>
    cases ps with
    | nil =>
      simp only [List.nil_append, List.cons.injEq, Piece.gap.injEq] at heq
      obtain ⟨rfl, rfl⟩ := heq
      exact .inr ⟨rfl, .inl hs⟩
    | cons p ps =>
      simp only [List.cons_append, List.cons.injEq] at heq
      obtain ⟨rfl, hmore⟩ := heq
      have hpasses : Passes ps qs s := ih hmore
      exact hpasses
  | @escaped tag body more hb hm ih =>
    match ps with
    | [] =>
      simp only [List.nil_append, List.cons.injEq, Piece.gap.injEq] at heq
      obtain ⟨rfl, rfl⟩ := heq
      exact .inr ⟨rfl, .inr ⟨rfl, tag, body, more, rfl, hb⟩⟩
    | [p] => simp at heq
    | p :: q :: ps =>
      simp only [List.cons_append, List.cons.injEq] at heq
      obtain ⟨rfl, rfl, hmore⟩ := heq
      have hpasses : Passes ps qs s := ih hmore
      exact hpasses
  | @tag e inside more he hi hn hm ih =>
    cases ps with
    | nil => simp at heq
    | cons p ps =>
      simp only [List.cons_append, List.cons.injEq] at heq
      obtain ⟨rfl, heq⟩ := heq
      -- the gap stands after the tag or inside it
      obtain ⟨x, rfl, hx⟩ | ⟨x, rfl, hx⟩ := List.append_eq_append_iff.1 heq
      · cases x with
        | nil => simp at hx
        | cons q x =>
          simp only [List.cons_append, List.cons.injEq] at hx
          obtain ⟨rfl, hmore⟩ := hx
          simpa only [Passes, inTag_after he hi] using ih hmore
      · cases x with
        | nil => simp at hx
        | cons q x =>
          simp only [List.cons_append, List.cons.injEq] at hx
          obtain ⟨rfl, _⟩ := hx
          have hps : ∀ p ∈ ps, p.Inner := fun p hp => hi p (by simp [hp])
          have hin := inTag_inside he hps
          cases hi (.gap s) (by simp) with
          | blanks hs => exact .inl ⟨hin, hs⟩

theorem mem_token {pieces : List Piece} (h : Layout pieces) {kind : Token.Kind} {s : List Char}
    (hm : .token kind s ∈ pieces) : kind ≠ .eof ∧ s ≠ [] := by
  induction h with
  | nil => simp at hm
  | @text run more hs _ ih =>
    cases hm with
    | head => exact ⟨by simp, hs⟩
    | tail _ hm => exact ih hm
  | skipped _ _ ih => exact ih (by simpa using hm)
  | @escaped tag body more hb _ ih =>
    simp only [List.mem_cons, Piece.token.injEq, reduceCtorEq, false_or] at hm
    rcases hm with ⟨rfl, rfl⟩ | hm
    · cases tag <;> simp [Tag.opening]
    · exact ih hm
  | @tag e inside more he hi _ _ ih =>
    have hends : (e.1.1 ≠ .eof ∧ e.1.2 ≠ []) ∧ e.2.1 ≠ .eof ∧ e.2.2 ≠ [] := by
      simp only [enclosures, List.mem_cons, List.not_mem_nil, or_false] at he
      rcases he with rfl | rfl <;> simp [Tag.opening, Tag.closing]
    simp only [List.mem_cons, List.mem_append, Piece.token.injEq] at hm
    rcases hm with ⟨rfl, rfl⟩ | hm | ⟨rfl, rfl⟩ | hm
    · exact hends.1
    · cases hi _ hm with
      | lexeme hk hs => exact ⟨by rintro rfl; exact hk, hs⟩
    · exact hends.2
    · exact ih hm

theorem gap {ps qs : List Piece} {s : List Char} (h : Layout (ps ++ .gap s :: qs)) (last : Token) :
    ∃ earlier later, Token.ofPieces 0 1 (ps ++ .gap s :: qs) = earlier ++ later ∧
      (∀ t ∈ earlier, t.stop ≤ Text.size (Piece.cover ps)) ∧
      (∀ t ∈ later, Text.size (Piece.cover ps ++ s) ≤ t.offset) ∧
      Gap earlier (later ++ [last]) (Text.size (Piece.cover ps ++ s)) s := by
  rw [Token.ofPieces_append]
  refine ⟨_, _, rfl, ?_, ?_, ?_⟩
  · intro t ht
    simpa using (Token.ofPieces_bounds ht).2
  · intro t ht
    have hbounds := Token.ofPieces_bounds (show t ∈ Token.ofPieces _ _ qs from ht)
    simpa [Text.size_append] using hbounds.1
  · obtain ⟨hin, hs⟩ | ⟨hout, hs | ⟨rfl, tag, body, more, rfl, hb⟩⟩ := h.passes rfl
    · exact .blanks (by rwa [Token.kinds_ofPieces]) hs
    · exact .skipped (by rwa [Token.kinds_ofPieces]) hs
    · exact .atSign (by rwa [Token.kinds_ofPieces]) rfl rfl (by simp [Text.size_append])
        (String.toList_ofList) hb

theorem stands {pieces : List Piece} {t : Token} (ht : t ∈ Token.ofPieces 0 1 pieces) :
    t.StandsIn (Piece.cover pieces) := by
  obtain ⟨ps, s, qs, rfl, hv, ho, hl⟩ := Token.exists_of_mem_ofPieces ht
  refine ⟨Piece.cover ps, Piece.cover qs, ?_, by simpa using ho, hl⟩
  simp [hv, Piece.cover, Piece.text]

theorem spans {pieces : List Piece} (h : Layout pieces) {text : List Char}
    (hc : Piece.cover pieces = text) : Spans text (Token.ofPieces 0 1 pieces ++
      [⟨.eof, "", Text.size text, 1 + text.count '\n'⟩]) := by
  subst hc
  refine ⟨?_, ?_, ?_, ⟨_, rfl, ?_⟩, ?_⟩
  · intro t ht
    rcases List.mem_append.1 ht with ht | ht
    · exact stands ht
    · obtain rfl := List.mem_singleton.1 ht
      exact ⟨Piece.cover pieces, [], by simp, rfl, rfl⟩
  · intro t ht hk
    rcases List.mem_append.1 ht with ht | ht
    · obtain ⟨ps, s, qs, rfl, hv, _⟩ := Token.exists_of_mem_ofPieces ht
      have hm : .token t.kind s ∈ ps ++ .token t.kind s :: qs := by simp
      have hs : s ≠ [] := (h.mem_token hm).2
      rw [hv]
      simpa using hs
    · obtain rfl := List.mem_singleton.1 ht
      exact absurd rfl hk
  · refine List.pairwise_append.2
      ⟨Token.ofPieces_ordered pieces 0 1, List.pairwise_singleton _ _, ?_⟩
    intro a ha b hb
    obtain rfl := List.mem_singleton.1 hb
    simpa using (Token.ofPieces_bounds ha).2
  · intro t ht hk
    obtain ⟨ps, s, qs, rfl, _⟩ := Token.exists_of_mem_ofPieces ht
    exact (h.mem_token (s := s) (by simp)).1 hk
  · intro before c after hsplit
    obtain ⟨ps, p, qs, u, v, rfl, hp, rfl, rfl⟩ := Piece.exists_of_cover hsplit
    cases p with
    | token kind s =>
      obtain rfl : s = u ++ c :: v := hp
      obtain ⟨t, ht, hoffset, hstop⟩ := Token.exists_mem_ofPieces 0 1 ps qs kind (u ++ c :: v)
      have hpos : 0 < c.utf8Size := Char.utf8Size_pos c
      simp only [Text.size_append, Text.size] at hstop ⊢
      exact .inl ⟨t, List.mem_append_left _ ht, by omega, by omega⟩
    | gap s =>
      obtain rfl : s = u ++ c :: v := hp
      obtain ⟨earlier, later, heq, hearlier, hlater, hgap⟩ := h.gap ⟨.eof, "", Text.size
        (Piece.cover (ps ++ .gap (u ++ c :: v) :: qs)),
        1 + (Piece.cover (ps ++ .gap (u ++ c :: v) :: qs)).count '\n'⟩
      rw [← List.append_assoc] at hlater hgap
      refine .inr ⟨_, u, v, _, earlier, _, rfl, rfl, by rw [heq, List.append_assoc], hearlier,
        ?_, hgap⟩
      intro t ht
      rcases List.mem_append.1 ht with ht | ht
      · exact hlater t ht
      · obtain rfl := List.mem_singleton.1 ht
        rw [hsplit]
        simp [Text.size_append, Text.size]

end Layout

/-- The tokens of a template that is read span its text. -/
theorem spans_of_tokenize {text : String} {tokens : List Token}
    (h : tokenize text = .ok tokens) : Spans (Text.normalize text.toList) tokens := by
  obtain ⟨pieces, hc, rfl⟩ := tokenize_ok h
  exact (cutInto_of_cut hc).layout.spans (cut_cover hc)

def bracesText : String :=
  "é\r\n\x7b# \x7b\x7b #\x7d\x7b\x7b f('\x7d\x7d', \x7bä:\n1\x7d)\x7d\x7d@\x7b% if %\x7d" ++
    "\x7b% verbatim %\x7d\x7b\x7b x\x7b%endverbatim%\x7d"

def bracesTokens : List Token :=
  [⟨.text, "é\n", 0, 1⟩, ⟨.valueStart, "\x7b\x7b", 11, 2⟩, ⟨.name, "f", 14, 2⟩,
    ⟨.punctuation, "(", 15, 2⟩, ⟨.string, "'\x7d\x7d'", 16, 2⟩, ⟨.punctuation, ",", 20, 2⟩,
    ⟨.punctuation, "\x7b", 22, 2⟩, ⟨.name, "ä", 23, 2⟩, ⟨.punctuation, ":", 25, 2⟩,
    ⟨.number, "1", 27, 3⟩, ⟨.punctuation, "\x7d", 28, 3⟩, ⟨.punctuation, ")", 29, 3⟩,
    ⟨.valueEnd, "\x7d\x7d", 30, 3⟩, ⟨.text, "\x7b% if %\x7d", 33, 3⟩,
    ⟨.text, "\x7b\x7b x", 55, 3⟩, ⟨.eof, "", 74, 3⟩]

theorem spans_bracesText : tokenize bracesText = .ok bracesTokens ∧
    Spans (Text.normalize bracesText.toList) bracesTokens :=
  have h : tokenize bracesText = .ok bracesTokens := by decide +kernel
  ⟨h, spans_of_tokenize h⟩

end Stencil
