import Stencil.Proofs.Spacing
import Stencil.Proofs.Spans
/-!
Enclosing. A bare expression that is put into a tag keeps its tokens. What is read without a closer
is read in front of one that stands at the end, since no lexeme reaches into a closer and no brace
of the expression begins one. Only a percent sign with a brace behind it ends a block tag early,
and only the word `verbatim` makes one that holds no expression.
-/
set_option autoImplicit false

namespace Stencil

theorem barrier_percent : Barrier '%' := ⟨by decide +kernel, by decide, by decide⟩

theorem Barrier.ends {b : Char} (hb : Barrier b) (rest : List Char) : Lexeme.Ends (b :: rest) := by
  intro c hc
  obtain rfl : b = c := Option.some.inj hc
  exact ⟨hb.char, hb.dot⟩

theorem lexeme?_append_closer {closer : Closer} (hc : closer = .value ∨ closer = .block) (c : Char)
    (s : List Char) : lexeme? (c :: (s ++ closer.text)) = (lexeme? (c :: s)).map
      fun (kind, text, after) => (kind, text, after ++ closer.text) := by
  rcases hc with rfl | rfl
  · exact lexeme?_append_barrier barrier_brace (by decide) c s
  · exact lexeme?_append_barrier barrier_percent (by decide) c s

def Paired (opened : List OpenBracket) : Prop := ∀ b ∈ opened, (b.bracket, b.close) ∈ partners

theorem paired_nil : Paired [] := by simp [Paired]

/-- No percent sign is a lexeme with a brace behind it, given what follows the pieces. -/
def Piece.Clear (pieces : List Piece) (left : List Char) : Prop :=
  ∀ ps qs, pieces = ps ++ .token .operator ['%'] :: qs → (cover qs ++ left).head? ≠ some '}'

theorem Piece.clear_append {ps qs : List Piece} {left : List Char} :
    Clear (ps ++ qs) left ↔ Clear ps (cover qs ++ left) ∧ Clear qs left := by
  constructor
  · intro h
    refine ⟨fun rs ss heq => ?_, fun rs ss heq => h (ps ++ rs) ss (by rw [heq, List.append_assoc])⟩
    have hall := h rs (ss ++ qs) (by rw [heq, List.append_assoc, List.cons_append])
    rwa [cover_append, List.append_assoc] at hall
  · rintro ⟨hp, hq⟩ rs ss heq
    obtain ⟨x, rfl, hx⟩ | ⟨x, rfl, hx⟩ := List.append_eq_append_iff.1 heq
    · exact hq x ss hx
    · cases x with
      | nil => exact hq [] ss hx.symm
      | cons p x =>
        simp only [List.cons_append, List.cons.injEq] at hx
        obtain ⟨rfl, rfl⟩ := hx
        rw [cover_append, List.append_assoc]
        exact hp rs x rfl

theorem Piece.clear_gap (gap left : List Char) : Clear [.gap gap] left := by
  intro ps qs heq
  cases ps <;> simp at heq

theorem Piece.clear_lexeme {gap text left : List Char} {kind : Token.Kind} :
    Clear [.gap gap, .token kind text] left ↔
      (kind = .operator → text = ['%'] → left.head? ≠ some '}') := by
  constructor
  · rintro h rfl rfl
    exact h [.gap gap] [] rfl
  · intro h ps qs heq
    match ps with
    | [] => simp at heq
    | [p] =>
      simp only [List.cons_append, List.nil_append, List.cons.injEq, token.injEq] at heq
      obtain ⟨_, ⟨hk, ht⟩, rfl⟩ := heq
      exact h hk ht
    | p :: q :: ps => simp at heq

theorem OpenBracket.track_paired {opened inner : List OpenBracket} {c : Char} {rest : List Char}
    (h : track opened (c :: rest) = .ok inner) (hp : Paired opened) : Paired inner := by
  obtain ⟨b, rfl, hb, rfl⟩ | ⟨b, rfl, _⟩ | ⟨_, rfl⟩ := track_ok h
  · exact List.forall_mem_cons.2 ⟨hb, hp⟩
  · exact (List.forall_mem_cons.1 hp).2
  · exact hp

namespace Closer

variable {opened inner : List OpenBracket} {rest text after : List Char} {kind : Token.Kind}

/-- A brace that is a lexeme closes an open brace, so it begins no closer. -/
theorem endsAt_value {c : Char} (hl : lexeme? (c :: rest) = some (kind, text, after))
    (ht : (if kind = .punctuation then OpenBracket.track opened (c :: rest) else .ok opened)
      = .ok inner) (hp : Paired opened) : value.endsAt opened (c :: rest) = false := by
  by_cases hc : c = '}'
  · subst hc
    have hbrace : lexeme? ('}' :: rest) = some (.punctuation, ['}'], rest) := rfl
    obtain ⟨rfl, _⟩ := Prod.mk.inj (Option.some.inj (hl.symm.trans hbrace))
    rw [if_pos rfl] at ht
    obtain ⟨b, _, hb, _⟩ | ⟨b, rfl, hb⟩ | ⟨hno, _⟩ := OpenBracket.track_ok ht
    · simp [partners] at hb
    · have hpartner := hp b (.head _)
      simp only [hb, partners, List.mem_cons, Prod.mk.injEq, List.not_mem_nil, or_false] at hpartner
      simp_all [endsAt, value]
    · exact absurd rfl (hno ('{', '}') (by simp [partners])).2
  · simp [endsAt, value, Ne.symm hc]

/-- A percent sign is a lexeme of its own, so it begins no closer unless a brace is next. -/
theorem endsAt_block {c : Char} (hl : lexeme? (c :: rest) = some (kind, text, after))
    (hb : kind = .operator → text = ['%'] → after.head? ≠ some '}') :
    block.endsAt opened (c :: rest) = false := by
  by_cases hc : c = '%'
  · subst hc
    have hpercent : lexeme? ('%' :: rest) = some (.operator, ['%'], rest) := rfl
    obtain ⟨rfl, rfl, rfl⟩ := Option.some.inj (hl.symm.trans hpercent)
    have hrest := hb rfl rfl
    cases rest with
    | nil => rfl
    | cons d rest =>
      have hd : d ≠ '}' := by simpa using hrest
      simp [endsAt, block, List.isPrefixOf, Ne.symm hd]
  · simp [endsAt, block, List.isPrefixOf, Ne.symm hc]

end Closer

namespace Round

variable {closer : Closer} {opened others inner : List OpenBracket} {s after : List Char}
  {ps : List Piece}

theorem Bare.done_enclosed (h : Bare opened s (.done ps after))
    (hc : closer = .value ∨ closer = .block) (ho : SameBrackets opened others) :
    Reads closer others (s ++ closer.text) (.done (ps ++ [.token closer.kind closer.text]) []) := by
  cases h with
  | ends hnil hd =>
    subst hnil
    obtain rfl := List.map_eq_nil_iff.1 ho.symm
    obtain ⟨hs, hblanks⟩ := Text.blanks_of_dropBlanks hd
    have hcloser : Text.dropBlanks closer.text = closer.text ∧
        Text.leadingBlanks closer.text = [] := by rcases hc with rfl | rfl <;> exact ⟨rfl, rfl⟩
    have hlead : Text.leadingBlanks (s ++ closer.text) = Text.leadingBlanks s := by
      rw [Text.leadingBlanks_append hblanks, hcloser.2, List.append_nil, hs]
    rw [← hlead]
    refine .closes rfl ?_
    rw [Text.dropBlanks_append hblanks, hcloser.1, List.append_nil]

theorem Bare.more_enclosed (h : Bare opened s (.more ps inner after))
    (hc : closer = .value ∨ closer = .block) (ho : SameBrackets opened others)
    (hp : Paired others) (hb : closer = .block → Piece.Clear ps after) :
    ∃ inner', SameBrackets inner inner' ∧ Paired inner' ∧
      Reads closer others (s ++ closer.text) (.more ps inner' (after ++ closer.text)) := by
  cases h with
  | @lexeme c rest text _ kind _ hd hl ht =>
    obtain ⟨hdrop, hlead⟩ := Text.blanks_append hd closer.text
    have hlexeme : lexeme? (c :: (rest ++ closer.text))
        = some (kind, text, after ++ closer.text) := by
      rw [lexeme?_append_closer hc, hl]
      rfl
    obtain ⟨inner', hinner, hsame⟩ := OpenBracket.same_after ho ht (rest ++ closer.text)
    have hpaired : Paired inner' := by
      split at hinner
      · exact OpenBracket.track_paired hinner hp
      · exact Except.ok.inj hinner ▸ hp
    have hends : closer.endsAt others (c :: (rest ++ closer.text)) = false := by
      rcases hc with rfl | rfl
      · exact Closer.endsAt_value hlexeme hinner hp
      · refine Closer.endsAt_block hlexeme fun hk ht => ?_
        have hclear := Piece.clear_lexeme.1 (hb rfl) hk ht
        cases after with
        | nil => simp [Closer.block]
        | cons d after => exact hclear
    rw [← hlead]
    exact ⟨inner', hsame, hpaired, .lexeme hdrop hends hlexeme hinner⟩

end Round

/-- What is read without a closer is read in front of one, up to the end of the text. -/
theorem interior_enclosed {origin s : List Char} {opened : List OpenBracket} {pieces : List Piece}
    (h : interior none origin opened s = .ok (pieces, [])) {closer : Closer}
    (hc : closer = .value ∨ closer = .block) (hb : closer = .block → Piece.Clear pieces [])
    (origin' : List Char) {others : List OpenBracket} (ho : SameBrackets opened others)
    (hp : Paired others) : interior (some closer) origin' others (s ++ closer.text)
      = .ok (pieces ++ [.token closer.kind closer.text], []) := by
  fun_induction interior none origin opened s generalizing pieces others with
  | case1 => simp at h
  | case2 opened s ps l hr =>
    simp only [Except.ok.injEq, Prod.mk.injEq] at h
    obtain ⟨rfl, rfl⟩ := h
    have hdone := (Round.read_none_iff.1 hr).done_enclosed hc ho
    rw [interior_eq, Round.read_of_reads hc origin' hdone]
  | case3 => simp at h
  | case4 opened s ps inner after hr rest l hi ih =>
    simp only [Except.ok.injEq, Prod.mk.injEq] at h
    obtain ⟨rfl, rfl⟩ := h
    have hcover : Piece.cover rest ++ [] = after := interior_cover hi
    have hclear (h : closer = .block) : Piece.Clear ps after ∧ Piece.Clear rest [] := by
      rw [← hcover]
      exact Piece.clear_append.1 (hb h)
    obtain ⟨inner', hsame, hpaired, hmore⟩ :=
      (Round.read_none_iff.1 hr).more_enclosed hc ho hp fun h => (hclear h).1
    have hrest := ih hi (fun h => (hclear h).2) hsame hpaired
    rw [interior_eq, Round.read_of_reads hc origin' hmore]
    simp [hrest, Except.map]

theorem interior_brace_opened {origin rest : List Char} {opened : List OpenBracket}
    {r : List Piece × List Char} (h : interior none origin opened ('}' :: rest) = .ok r) :
    opened ≠ [] := by
  have hblank : Text.dropBlanks ('}' :: rest) = '}' :: rest := rfl
  have hbrace : lexeme? ('}' :: rest) = some (.punctuation, ['}'], rest) := rfl
  rintro rfl
  rw [interior_eq] at h
  simp [Round.read, hblank, Option.filter, Round.atLexeme, hbrace, OpenBracket.track,
    Except.map] at h

namespace Round

variable {opened inner : List OpenBracket} {s after : List Char} {ps : List Piece}

theorem Bare.of_not_clear (h : Bare opened s (.more ps inner after))
    (hb : ¬ Piece.Clear ps after) :
    inner = opened ∧ ∃ rest, after = '}' :: rest ∧ Text.dropBlanks s = '%' :: '}' :: rest := by
  cases h with
  | lexeme hd hl ht =>
    simp only [Piece.clear_lexeme, not_forall, not_not] at hb
    obtain ⟨rfl, rfl, hhead⟩ := hb
    obtain ⟨rest, rfl⟩ := List.head?_eq_some_iff.1 hhead
    obtain ⟨hword, _⟩ := lexeme?_spec hl
    rw [if_neg (by decide), Except.ok.injEq] at ht
    exact ⟨ht.symm, rest, rfl, hd.trans hword.symm⟩

theorem read_unclosed (hd : Text.dropBlanks s = '%' :: '}' :: after) (ho : opened ≠ [])
    (origin : List Char) : ∃ fault, read (some .block) origin opened s = .error fault := by
  obtain ⟨b, outer, rfl⟩ := List.exists_cons_of_ne_nil ho
  refine ⟨⟨.unclosedBracket b.bracket, b.input⟩, ?_⟩
  simp [read, hd, Option.filter, Closer.endsAt, Closer.block, List.isPrefixOf, atCloser,
    OpenBracket.checkNone, Except.map]

end Round

/-- A percent sign with a brace behind it ends the tag while the bracket of that brace is open. -/
theorem interior_enclosed_error {origin s : List Char} {opened : List OpenBracket}
    {pieces : List Piece} (h : interior none origin opened s = .ok (pieces, []))
    (hb : ¬ Piece.Clear pieces []) (origin' : List Char) {others : List OpenBracket}
    (ho : SameBrackets opened others) (hp : Paired others) :
    ∃ fault, interior (some .block) origin' others (s ++ Closer.block.text) = .error fault := by
  fun_induction interior none origin opened s generalizing pieces others with
  | case1 => simp at h
  | case2 opened s ps l hr =>
    simp only [Except.ok.injEq, Prod.mk.injEq] at h
    obtain ⟨rfl, rfl⟩ := h
    cases Round.read_none_iff.1 hr with
    | ends => exact absurd (Piece.clear_gap _ _) hb
  | case3 => simp at h
  | case4 opened s ps inner after hr rest l hi ih =>
    simp only [Except.ok.injEq, Prod.mk.injEq] at h
    obtain ⟨rfl, rfl⟩ := h
    have hbare := Round.read_none_iff.1 hr
    by_cases hround : Piece.Clear ps after
    · have hcover : Piece.cover rest ++ [] = after := interior_cover hi
      have hrest : ¬ Piece.Clear rest [] :=
        fun hclear => hb (Piece.clear_append.2 ⟨hcover ▸ hround, hclear⟩)
      obtain ⟨inner', hsame, hpaired, hmore⟩ :=
        hbare.more_enclosed (.inr rfl) ho hp fun _ => hround
      obtain ⟨fault, hfault⟩ := ih hi hrest hsame hpaired
      refine ⟨fault, ?_⟩
      rw [interior_eq, Round.read_of_reads (.inr rfl) origin' hmore]
      simp [hfault, Except.map]
    · obtain ⟨rfl, x, rfl, hd⟩ := hbare.of_not_clear hround
      have hopened : others ≠ [] := by
        rintro rfl
        exact interior_brace_opened hi (List.map_eq_nil_iff.1 ho)
      obtain ⟨hdrop, _⟩ := Text.blanks_append hd Closer.block.text
      obtain ⟨fault, hfault⟩ := Round.read_unclosed hdrop hopened origin'
      refine ⟨fault, ?_⟩
      rw [interior_eq, hfault]

namespace Text

theorem append_inj_of_size {x y x' y' : List Char} (h : x ++ y = x' ++ y')
    (hs : size x = size x') : x = x' ∧ y = y' := by
  induction x generalizing x' with
  | nil =>
    cases x' with
    | nil => exact ⟨rfl, h⟩
    | cons c x' =>
      have hpos : 0 < c.utf8Size := Char.utf8Size_pos c
      simp only [size] at hs
      omega
  | cons c x ih =>
    cases x' with
    | nil =>
      have hpos : 0 < c.utf8Size := Char.utf8Size_pos c
      simp only [size] at hs
      omega
    | cons d x' =>
      simp only [List.cons_append, List.cons.injEq] at h
      obtain ⟨rfl, h⟩ := h
      obtain ⟨rfl, hy⟩ := ih h (by simpa [size] using hs)
      exact ⟨rfl, hy⟩

end Text

def Padded (word s : List Char) : Prop :=
  ∃ a b, Text.Blanks a ∧ Text.Blanks b ∧ s = a ++ word ++ b

theorem padded_normalize {c : Char} {run : List Char} (hc : Text.isBlank c = false)
    (hr : '\r' ∉ c :: run) (hn : '\n' ∉ c :: run) {s : List Char} :
    Padded (c :: run) (Text.normalize s) ↔ Padded (c :: run) s := by
  constructor
  · rintro ⟨a, b, ha, hb, h⟩
    obtain ⟨x, v, rfl, hx, rfl⟩ := Text.normalize_eq_append h
    obtain ⟨u, w, rfl, rfl, hw⟩ := Text.normalize_eq_append hx
    obtain rfl : w = c :: run := by
      rw [← hw, Text.eq_normalize_of_not_mem (by rw [hw]; exact hn)]
    exact ⟨u, v, ha.of_normalize, hb.of_normalize, rfl⟩
  · rintro ⟨a, b, ha, hb, rfl⟩
    exact ⟨_, _, ha.normalize, hb.normalize, Text.normalize_word hc hr a b⟩

theorem lexemes_blanks {closer : Closer} {origin : List Char} {opened : List OpenBracket}
    {s : List Char} (hs : Text.Blanks s) (input : List Char) :
    lexemes closer origin opened (s ++ input) = lexemes closer origin opened input := by
  rw [lexemes_eq, lexemes_eq input, Text.dropBlanks_append hs]

theorem lexemes_lone {word m : List Char} (hw : Lexeme.Name word) (hm : Lone word m)
    (origin rest : List Char) : lexemes .block origin [] (m ++ rest)
      = .ok ([(.name, word), (Closer.block.kind, Closer.block.text)], rest) := by
  obtain ⟨a, b, ha, hb, rfl⟩ := hm
  have hends : Lexeme.Ends (b ++ (Closer.block.text ++ rest)) := by
    cases b with
    | nil => exact barrier_percent.ends _
    | cons d b => exact (barrier_of_isBlank (hb d (.head b))).ends _
  have hbegins : Begins (word ++ (b ++ (Closer.block.text ++ rest))) := by
    obtain ⟨c, run, rfl, hc⟩ := hw.1.head
    exact begins_of_isNameStart hc _
  have hclose : lexemes .block origin [] (Closer.block.text ++ rest)
      = .ok ([(Closer.block.kind, Closer.block.text)], rest) := lexemes_closer (.inr rfl) rest
  have hname : lexemes .block origin [] (word ++ (b ++ (Closer.block.text ++ rest)))
      = (lexemes .block origin [] (b ++ (Closer.block.text ++ rest))).map (ahead [(.name, word)]) :=
    lexemes_lexeme (.inr rfl) hbegins (Lexeme.lexeme?_name hw hends) (if_neg (by decide))
  rw [lexemes_blanks hb, hclose] at hname
  simp only [List.append_assoc, lexemes_blanks ha]
  exact hname

theorem loneWord_enclosed {s : List Char} {pieces : List Piece}
    (h : interior none s [] s = .ok (pieces, [])) (hv : ¬ Padded verbatim s) :
    loneWord verbatim (s ++ Closer.block.text) = none := by
  have hname : Lexeme.Name verbatim := by decide +kernel
  cases hs : loneWord verbatim (s ++ Closer.block.text) with
  | none => rfl
  | some r =>
    obtain ⟨m, rest⟩ := r
    obtain ⟨hm, heq⟩ := stops_verbatim.eq_some_iff.1 hs
    have hlone := lexemes_lone hname hm [] rest
    rw [← heq, lexemes] at hlone
    by_cases hclear : Piece.Clear pieces []
    · rw [interior_enclosed h (.inr rfl) (fun _ => hclear) [] rfl paired_nil] at hlone
      simp only [Except.map, Except.ok.injEq, Prod.mk.injEq] at hlone
      obtain ⟨a, b, ha, hb, rfl⟩ := hm
      rw [← hlone.2, List.append_nil] at heq
      exact absurd ⟨a, b, ha, hb, List.append_cancel_right heq⟩ hv
    · obtain ⟨fault, he⟩ := interior_enclosed_error h hclear [] rfl paired_nil
      rw [he] at hlone
      simp [Except.map] at hlone

namespace Token

def shift (n : Nat) (t : Token) : Token := { t with offset := n + t.offset }

theorem ofPieces_shift (n offset line : Nat) (pieces : List Piece) :
    ofPieces (n + offset) line pieces = (ofPieces offset line pieces).map (shift n) := by
  have hmoved : moved n 0 = shift n := funext fun t => by simp [moved, shift]
  rw [← hmoved, ← ofPieces_moved, Nat.zero_add]

def BeforeBrace (text : List Char) (t : Token) : Prop :=
  ∃ before after, text = before ++ t.value.toList ++ '}' :: after ∧ t.offset = Text.size before

def enclosed (opening closing : Kind × String) (text : List Char) (tokens : List Token) :
    List Token :=
  ⟨opening.1, opening.2, 0, 1⟩ :: tokens.map (shift 2) ++
    [⟨closing.1, closing.2, 2 + Text.size text, 1 + text.count '\n'⟩,
      ⟨.eof, "", 4 + Text.size text, 1 + text.count '\n'⟩]

end Token

theorem Piece.clear_iff (pieces : List Piece) : Clear pieces [] ↔
    ∀ t ∈ Token.ofPieces 0 1 pieces, t.isOperator "%" = true → ¬ t.BeforeBrace (cover pieces) := by
  have hcover (ps qs : List Piece) : cover (ps ++ .token .operator ['%'] :: qs)
      = cover ps ++ '%' :: cover qs := by simp [cover, text]
  constructor
  · rintro h t ht hop ⟨before, after, heq, ho⟩
    obtain ⟨ps, s, qs, rfl, hv, hoffset, _⟩ := Token.exists_of_mem_ofPieces ht
    simp only [Token.isOperator, Bool.and_eq_true, beq_iff_eq] at hop
    obtain ⟨hk, hvalue⟩ := hop
    obtain rfl : s = ['%'] := by
      rw [← String.toList_ofList (l := s), ← hv, hvalue]
      rfl
    rw [hk] at h heq
    rw [hcover, hvalue, List.append_assoc] at heq
    obtain ⟨_, hrest⟩ := Text.append_inj_of_size heq (by omega)
    refine h ps qs rfl ?_
    have hqs : cover qs = '}' :: after := (List.cons.inj hrest).2
    simp [hqs]
  · intro h ps qs heq hhead
    rw [List.append_nil] at hhead
    obtain ⟨after, hafter⟩ := List.head?_eq_some_iff.1 hhead
    subst heq
    rw [Token.ofPieces_append] at h
    refine h _ (List.mem_append_right _ (.head _)) rfl ⟨cover ps, after, ?_, by simp⟩
    rw [hcover, hafter]
    simp

namespace Tag

variable {s : List Char} {pieces : List Piece} (h : interior none s [] s = .ok (pieces, []))
include h

theorem read_value_enclosed : value.read false (s ++ Closer.value.text)
    = .ok (.token .valueStart value.opening ::
      (pieces ++ [.token Closer.value.kind Closer.value.text]), []) :=
  Reads.read (.value (interior_enclosed h (.inl rfl) (by simp [Closer.value, Closer.block])
    (value.opening ++ (s ++ Closer.value.text)) rfl paired_nil))

theorem read_block_enclosed (hv : ¬ Padded verbatim s) (hb : Piece.Clear pieces []) :
    block.read false (s ++ Closer.block.text)
      = .ok (.token .blockStart block.opening ::
        (pieces ++ [.token Closer.block.kind Closer.block.text]), []) :=
  Reads.read (.block (loneWord_enclosed h hv) (interior_enclosed h (.inr rfl) (fun _ => hb)
    (block.opening ++ (s ++ Closer.block.text)) rfl paired_nil))

/-- The word `verbatim` begins a block that never ends, and a closer inside ends the tag early. -/
theorem read_block_error (hvb : ¬ (¬ Padded verbatim s ∧ Piece.Clear pieces [])) :
    ∃ fault, block.read false (s ++ Closer.block.text) = .error fault := by
  by_cases hv : Padded verbatim s
  · obtain ⟨a, b, ha, hb, heq⟩ := hv
    have hlone : loneWord Stencil.verbatim (s ++ Closer.block.text)
        = some (s ++ Closer.block.text, []) :=
      stops_verbatim.eq_some_iff.2 ⟨⟨a, b, ha, hb, by rw [heq]; rfl⟩, by simp⟩
    exact ⟨_, by simp [read, readBlock, hlone, seek]; rfl⟩
  · have hb : ¬ Piece.Clear pieces [] := fun hb => hvb ⟨hv, hb⟩
    obtain ⟨fault, he⟩ := interior_enclosed_error h hb
      (block.opening ++ (s ++ Closer.block.text)) rfl paired_nil
    exact ⟨fault, by simp [read, readBlock, loneWord_enclosed h hv, he]⟩

end Tag

section
variable {tag : Tag} {closer : Closer} (hc : closer = .value ∨ closer = .block)
include hc

theorem normalize_enclosed (s : List Char) : Text.normalize (tag.opening ++ s ++ closer.text)
    = tag.opening ++ (Text.normalize s ++ closer.text) := by
  have hopening : '\r' ∉ tag.opening := by cases tag <;> decide
  have hcloser : '\n' ∉ closer.text.head? ∧ '\r' ∉ closer.text := by
    rcases hc with rfl | rfl <;> decide
  rw [Text.normalize_append_of_head hcloser.1, Text.normalize_append
    (fun hm => hopening (List.mem_of_mem_getLast? hm)), Text.normalize_of_not_mem hopening,
    Text.normalize_of_not_mem hcloser.2, List.append_assoc]

theorem tokenize_of_read {text : String} {s : List Char} {start : Token.Kind}
    {pieces : List Piece} (ht : text.toList = tag.opening ++ s ++ closer.text)
    (hs : Piece.cover pieces = Text.normalize s)
    (hr : tag.read false (Text.normalize s ++ closer.text)
      = .ok (.token start tag.opening :: (pieces ++ [.token closer.kind closer.text]), [])) :
    tokenize text = .ok (Token.enclosed (start, String.ofList tag.opening)
      (closer.kind, String.ofList closer.text) (Text.normalize s) (Token.ofPieces 0 1 pieces)) := by
  have hopening : Text.size tag.opening = 2 ∧ tag.opening.count '\n' = 0 := by
    cases tag <;> decide
  have hcloser : Text.size closer.text = 2 ∧ closer.text.count '\n' = 0 := by
    rcases hc with rfl | rfl <;> decide
  have hnil : cut [] = .ok [] := (CutInto.text rfl).cut
  have hcut : cut (tag.opening ++ (Text.normalize s ++ closer.text))
      = .ok (.token start tag.opening :: (pieces ++ [.token closer.kind closer.text])) := by
    rw [cut_tag, hr]
    simp [hnil, Except.map]
  simp only [tokenize, ht, normalize_enclosed hc, hcut, Token.ofPieces, Token.ofPieces_append,
    Token.enclosed, hs, hopening, hcloser, Text.size_append, List.count_append, Nat.zero_add,
    Nat.add_zero, ← Token.ofPieces_shift]
  have hend : 2 + (Text.size (Text.normalize s) + 2) = 4 + Text.size (Text.normalize s) := by omega
  simp [hend]

end

/-- An expression keeps its tokens in a value tag, and in a block tag unless it is the word
`verbatim` or a percent sign and a brace in it end the tag early. -/
theorem tokenize_enclosed {s : String} {tokens : List Token}
    (h : tokenizeExpression s = .ok tokens) :
    tokenize ("\x7b\x7b" ++ s ++ "\x7d\x7d") = .ok (Token.enclosed (.valueStart, "\x7b\x7b")
      (.valueEnd, "\x7d\x7d") (Text.normalize s.toList) tokens) ∧
    (tokenize ("\x7b%" ++ s ++ "%\x7d") = .ok (Token.enclosed (.blockStart, "\x7b%")
      (.blockEnd, "%\x7d") (Text.normalize s.toList) tokens) ↔
      ¬ Padded verbatim s.toList ∧ ∀ t ∈ tokens, t.isOperator "%" = true →
        ¬ t.BeforeBrace (Text.normalize s.toList)) := by
  obtain ⟨pieces, hi, rfl⟩ := tokenizeExpression_ok h
  have hcover : Piece.cover pieces = Text.normalize s.toList := by
    simpa using interior_cover hi
  have hvalue : ("\x7b\x7b" ++ s ++ "\x7d\x7d").toList
      = Tag.value.opening ++ s.toList ++ Closer.value.text := by
    simp [Tag.opening, Closer.value]
  have hblock : ("\x7b%" ++ s ++ "%\x7d").toList
      = Tag.block.opening ++ s.toList ++ Closer.block.text := by
    simp [Tag.opening, Closer.block]
  constructor
  · exact tokenize_of_read (.inl rfl) hvalue hcover (Tag.read_value_enclosed hi)
  · have hverbatim : Padded verbatim (Text.normalize s.toList) ↔ Padded verbatim s.toList :=
      padded_normalize (by decide) (by decide) (by decide)
    rw [← hverbatim, ← hcover, ← Piece.clear_iff, hcover]
    constructor
    · intro hok
      by_contra hvb
      obtain ⟨fault, he⟩ := Tag.read_block_error hi hvb
      obtain ⟨_, hcut, _⟩ := tokenize_ok hok
      rw [hblock, normalize_enclosed (.inr rfl), cut_tag, he] at hcut
      simp at hcut
    · rintro ⟨hv, hclear⟩
      exact tokenize_of_read (.inr rfl) hblock hcover (Tag.read_block_enclosed hi hv hclear)

def bracedText : String := "\x7b'\x7d\x7d': \x7bé: '%\x7d' %\r\n\x7d\x7d%"

def bracedTokens : List Token :=
  [⟨.punctuation, "\x7b", 0, 1⟩, ⟨.string, "'\x7d\x7d'", 1, 1⟩, ⟨.punctuation, ":", 5, 1⟩,
    ⟨.punctuation, "\x7b", 7, 1⟩, ⟨.name, "é", 8, 1⟩, ⟨.punctuation, ":", 10, 1⟩,
    ⟨.string, "'%\x7d'", 12, 1⟩, ⟨.operator, "%", 17, 1⟩, ⟨.punctuation, "\x7d", 19, 2⟩,
    ⟨.punctuation, "\x7d", 20, 2⟩, ⟨.operator, "%", 21, 2⟩]

theorem tokenize_braced : tokenizeExpression bracedText = .ok bracedTokens ∧
    tokenize ("\x7b\x7b" ++ bracedText ++ "\x7d\x7d") = .ok (Token.enclosed
      (.valueStart, "\x7b\x7b") (.valueEnd, "\x7d\x7d") (Text.normalize bracedText.toList)
      bracedTokens) ∧
    (tokenize ("\x7b%" ++ bracedText ++ "%\x7d") = .ok (Token.enclosed
      (.blockStart, "\x7b%") (.blockEnd, "%\x7d") (Text.normalize bracedText.toList)
      bracedTokens) ↔
      ¬ Padded verbatim bracedText.toList ∧ ∀ t ∈ bracedTokens, t.isOperator "%" = true →
        ¬ t.BeforeBrace (Text.normalize bracedText.toList)) :=
  have h : tokenizeExpression bracedText = .ok bracedTokens := by decide +kernel
  ⟨h, tokenize_enclosed h⟩

-- the percent sign ends the tag while the brace before it is open
example : tokenizeExpression "\x7bx%\x7d" = .ok [⟨.punctuation, "\x7b", 0, 1⟩, ⟨.name, "x", 1, 1⟩,
    ⟨.operator, "%", 2, 1⟩, ⟨.punctuation, "\x7d", 3, 1⟩] ∧
    tokenize "\x7b%\x7bx%\x7d%\x7d" = .error ⟨.unclosedBracket '{', 1⟩ := by decide +kernel

end Stencil
