import Stencil.Proofs.Barriers
import Stencil.Proofs.Cutting
import Stencil.Proofs.Layout
/-!
Cutting a text that goes on. Lexemes, tags, comments and verbatim blocks that are closed stay as
they are, whatever follows: a lexeme is decided before the next brace, and a closer is found at the
first place where it stands. So two templates one after the other are cut into the pieces of both,
and at most the text between them is one that was two.
-/
set_option autoImplicit false

namespace Stencil

theorem Text.Quoted.tail_more {q : Char} {s run after : List Char}
    (h : tail q s = some (run, after)) (more : List Char) :
    tail q (s ++ more) = some (run, after ++ more) := by
  rw [← tail_append h, List.append_assoc, tail_run h]

/-- A lexeme with a brace somewhere after it ends where it does, whatever follows the text. -/
theorem lexeme?_append {s text rest : List Char} {kind : Token.Kind}
    (h : lexeme? s = some (kind, text, rest)) (hb : '}' ∈ rest) (more : List Char) :
    lexeme? (s ++ more) = some (kind, text, rest ++ more) := by
  obtain ⟨hs, hne⟩ := lexeme?_spec h
  obtain ⟨c, run, rfl⟩ := List.exists_cons_of_ne_nil hne
  obtain ⟨u, x, hrest⟩ := List.append_of_mem hb
  obtain rfl : s = c :: (run ++ u ++ '}' :: x) := by simp [← hs, hrest]
  by_cases hc : c = '"' ∨ c = '\''
  · rw [Lexeme.lexeme?_quote hc] at h
    obtain ⟨⟨tail, after⟩, htail, he⟩ := Option.map_eq_some_iff.1 h
    simp only [Prod.mk.injEq] at he
    obtain ⟨rfl, hrun, rfl⟩ := he
    rw [List.cons_append, Lexeme.lexeme?_quote hc, Text.Quoted.tail_more htail more, ← hrun]
    rfl
  · -- a lexeme that is no string is the one in front of the brace, in both texts
    have hmore : c :: (run ++ u ++ '}' :: x) ++ more
        = c :: (run ++ u ++ '}' :: (x ++ more)) := by simp
    rw [hmore, lexeme?_barrier barrier_brace hc]
    rw [lexeme?_barrier barrier_brace hc] at h
    obtain ⟨⟨kind', text', after⟩, hl, he⟩ := Option.map_eq_some_iff.1 h
    simp only [Prod.mk.injEq] at he
    obtain ⟨rfl, rfl, rfl⟩ := he
    simp [hl]

namespace Text

theorem isBlank_of_dropBlanks {s rest : List Char} {c : Char} (h : dropBlanks s = c :: rest) :
    isBlank c = false := by
  have hhead := List.head?_dropWhile_not isBlank s
  rw [← dropBlanks, h] at hhead
  simpa using hhead

theorem blanks_append {s rest : List Char} {c : Char} (h : dropBlanks s = c :: rest)
    (more : List Char) : dropBlanks (s ++ more) = c :: (rest ++ more) ∧
      leadingBlanks (s ++ more) = leadingBlanks s := by
  have hc := isBlank_of_dropBlanks h
  have hblanks := blanks_leadingBlanks s
  have hs : s ++ more = leadingBlanks s ++ (c :: (rest ++ more)) := by
    rw [← List.cons_append, ← h, ← List.append_assoc, leadingBlanks_append_dropBlanks]
  constructor
  · rw [hs, dropBlanks_append hblanks, dropBlanks_cons hc]
  · rw [hs, leadingBlanks_append hblanks, leadingBlanks_cons hc, List.append_nil]

end Text

/-- The same brackets are open, wherever they were opened. -/
def SameBrackets (opened others : List OpenBracket) : Prop :=
  opened.map (·.bracket) = others.map (·.bracket)

theorem isPrefixOf_append {o s : List Char} (h : o.length ≤ s.length) (x : List Char) :
    o.isPrefixOf (s ++ x) = o.isPrefixOf s := by
  rw [Bool.eq_iff_iff, List.isPrefixOf_iff_prefix, List.isPrefixOf_iff_prefix]
  constructor
  · exact fun hp => List.prefix_of_prefix_length_le hp (List.prefix_append s x) h
  · exact fun hp => hp.trans (List.prefix_append s x)

theorem Closer.endsAt_append {closer : Closer} {opened others : List OpenBracket}
    (ho : SameBrackets opened others) {s : List Char} (hs : closer.text.length ≤ s.length)
    (x : List Char) : closer.endsAt others (s ++ x) = closer.endsAt opened s := by
  have hhead : others.head?.any (·.bracket == '{') = opened.head?.any (·.bracket == '{') := by
    cases opened with
    | nil =>
      obtain rfl := List.map_eq_nil_iff.1 ho.symm
      rfl
    | cons b opened =>
      obtain ⟨b', others, rfl, hb, _⟩ := List.map_eq_cons_iff.1 ho.symm
      simp [hb]
  rw [endsAt, endsAt, isPrefixOf_append hs, hhead]

theorem OpenBracket.track_same {opened others : List OpenBracket} (h : SameBrackets opened others)
    (c : Char) (rest more : List Char) :
    Carries SameBrackets (track opened (c :: rest)) (track others (c :: more)) := by
  unfold track
  dsimp only
  refine .ite (.ok (congrArg (c :: ·) h)) (.ite ?_ (.ok h))
  cases opened with
  | nil => exact .error _
  | cons b opened =>
    obtain ⟨b', others, rfl, hb, hmore⟩ := List.map_eq_cons_iff.1 h.symm
    have hclose : b'.close = b.close := by rw [close, close, hb]
    dsimp only
    rw [hclose]
    exact .ite (.ok hmore.symm) (.error _)

theorem OpenBracket.same_after {opened others inner : List OpenBracket}
    (h : SameBrackets opened others) {kind : Token.Kind} {c : Char} {rest : List Char}
    (ht : (if kind = .punctuation then track opened (c :: rest) else .ok opened) = .ok inner)
    (more : List Char) :
    ∃ inner', (if kind = .punctuation then track others (c :: more) else .ok others) = .ok inner' ∧
      SameBrackets inner inner' := by
  have hcarries : Carries SameBrackets
      (if kind = .punctuation then track opened (c :: rest) else .ok opened)
      (if kind = .punctuation then track others (c :: more) else .ok others) :=
    .ite (track_same h c rest more) (.ok h)
  exact hcarries inner ht

namespace Round

variable {closer : Closer} {opened others : List OpenBracket} {input : List Char}

theorem read_of_reads (hc : closer = .value ∨ closer = .block) (origin : List Char) {r : Round}
    (h : Reads closer opened input r) : read (some closer) origin opened input = .ok r := by
  cases h with
  | @closes rest ho hd =>
    subst ho
    rcases hc with rfl | rfl <;>
      simp [read, hd, Closer.value, Closer.block, Closer.endsAt, Option.filter, atCloser,
        OpenBracket.checkNone, Except.map]
  | lexeme hd he hl ht =>
    simp [read, hd, Option.filter, he, atLexeme, hl, ht, Except.map]

theorem Reads.done_append {ps : List Piece} {left : List Char}
    (h : Reads closer opened input (.done ps left)) (hc : closer = .value ∨ closer = .block)
    (ho : SameBrackets opened others) (more : List Char) :
    Reads closer others (input ++ more) (.done ps (left ++ more)) := by
  cases h with
  | closes hnil hd =>
    subst hnil
    obtain rfl := List.map_eq_nil_iff.1 ho.symm
    obtain ⟨c, text, htext⟩ : ∃ c text, closer.text = c :: text := by
      rcases hc with rfl | rfl <;> exact ⟨_, _, rfl⟩
    rw [htext, List.cons_append] at hd
    obtain ⟨hdrop, hlead⟩ := Text.blanks_append hd more
    rw [← hlead]
    refine .closes rfl ?_
    rw [hdrop, htext]
    simp

theorem Reads.more_append {ps : List Piece} {inner : List OpenBracket} {after : List Char}
    (h : Reads closer opened input (.more ps inner after)) (hc : closer = .value ∨ closer = .block)
    (hb : '}' ∈ after) (ho : SameBrackets opened others) (more : List Char) :
    ∃ inner', SameBrackets inner inner' ∧
      Reads closer others (input ++ more) (.more ps inner' (after ++ more)) := by
  cases h with
  | @lexeme c rest text _ kind _ hd he hl ht =>
    obtain ⟨hdrop, hlead⟩ := Text.blanks_append hd more
    rw [← hlead]
    have hlong : closer.text.length ≤ (c :: rest).length := by
      have hlen := congrArg List.length (lexeme?_spec hl).1
      have htext := List.length_pos_iff.2 (lexeme?_spec hl).2
      have hafter := List.length_pos_of_mem hb
      rw [List.length_append] at hlen
      have htwo : closer.text.length = 2 := by rcases hc with rfl | rfl <;> rfl
      omega
    obtain ⟨inner', hinner, hsame⟩ := OpenBracket.same_after ho ht (rest ++ more)
    refine ⟨inner', hsame, .lexeme hdrop ?_ (lexeme?_append hl hb more) hinner⟩
    rw [← List.cons_append, Closer.endsAt_append ho hlong, he]

end Round

theorem interior_brace {closer : Closer} (hc : closer = .value ∨ closer = .block)
    {origin input left : List Char} {opened : List OpenBracket} {pieces : List Piece}
    (h : interior (some closer) origin opened input = .ok (pieces, left)) : '}' ∈ input.tail := by
  obtain ⟨inside, rfl, _⟩ := interior_layout h
  rw [← interior_cover h, Piece.cover_append]
  have hend : ∃ c, closer.text = [c, '}'] := by
    rcases hc with rfl | rfl <;> exact ⟨_, rfl⟩
  obtain ⟨c, hend⟩ := hend
  cases Piece.cover inside <;> simp [Piece.cover, Piece.text, hend]

/-- The interior of a closed tag is the same when the text goes on. -/
theorem interior_append {closer : Closer} (hc : closer = .value ∨ closer = .block)
    {origin input left : List Char} {opened : List OpenBracket} {pieces : List Piece}
    (h : interior (some closer) origin opened input = .ok (pieces, left)) (origin' : List Char)
    {others : List OpenBracket} (ho : SameBrackets opened others) (more : List Char) :
    interior (some closer) origin' others (input ++ more) = .ok (pieces, left ++ more) := by
  fun_induction interior (some closer) origin opened input generalizing pieces left others with
  | case1 => simp at h
  | case2 opened input ps l hr =>
    simp only [Except.ok.injEq, Prod.mk.injEq] at h
    obtain ⟨rfl, rfl⟩ := h
    have hdone := (Round.reads_of_read hr).done_append hc ho more
    rw [interior_eq, Round.read_of_reads hc origin' hdone]
  | case3 => simp at h
  | case4 opened input ps inner after hr rest l hi ih =>
    simp only [Except.ok.injEq, Prod.mk.injEq] at h
    obtain ⟨rfl, rfl⟩ := h
    -- the closer is still to come, and it ends in a brace
    have hb : '}' ∈ after := List.mem_of_mem_tail (interior_brace hc hi)
    obtain ⟨inner', hsame, hmore⟩ := (Round.reads_of_read hr).more_append hc hb ho more
    rw [interior_eq, Round.read_of_reads hc origin' hmore]
    simp [ih hi hsame, Except.map]

namespace Tag

theorem Reads.append {tag : Tag} {escaped : Bool} {body after : List Char} {pieces : List Piece}
    (h : tag.Reads body escaped pieces after) (more : List Char) :
    tag.Reads (body ++ more) escaped pieces (after ++ more) := by
  cases h with
  | escaped hs => exact .escaped ((stops_closing tag).seek_more hs more)
  | comment hs => exact .comment ((stops_closing .comment).seek_more hs more)
  | value hi => exact .value (interior_append (.inl rfl) hi _ rfl more)
  | @verbatim _ word content _ _ _ hw hs =>
    obtain ⟨hlone, rfl⟩ := stops_verbatim.eq_some_iff.1 hw
    have hword := stops_verbatim.eq_some_iff.2 ⟨hlone, List.append_assoc word content more⟩
    exact .verbatim hword (stops_endVerbatim.seek_more hs more)
  | block hw hi =>
    have hword := stops_verbatim.none_append hw (interior_brace (.inr rfl) hi) more
    exact .block hword (interior_append (.inr rfl) hi _ rfl more)

theorem open?_append {s rest : List Char} {tag : Tag} (h : open? s = some (tag, rest))
    (more : List Char) : open? (s ++ more) = some (tag, rest ++ more) := by
  obtain rfl := open?_spec h
  cases tag <;> rfl

theorem split_append_open {s : List Char} (h : (open? (split s).2).isSome = true)
    (more : List Char) : split (s ++ more) = ((split s).1, (split s).2 ++ more) := by
  induction s with
  | nil => simp [split, open?] at h
  | cons c rest ih =>
    by_cases hc : (open? (c :: rest)).isSome = true
    · obtain ⟨⟨tag, body⟩, ho⟩ := Option.isSome_iff_exists.1 hc
      have hmore := open?_append ho more
      rw [List.cons_append] at hmore
      simp [split, ho, hmore]
    · have hrest : (open? (split rest).2).isSome = true := by simpa [split, hc] using h
      have hne : rest = [] → c ≠ '{' := by
        rintro rfl
        simp [split, open?] at hrest
      have hopen := open?_append_none (by simpa using hc) hne more
      rw [List.cons_append, split, split, ih hrest]
      simp [hopen, hc]

end Tag

def plainText (run : List Char) : List Char := if escapes run then run.dropLast else run

theorem Piece.spellings_leading (run : List Char) :
    spellings (leading run) = spellings (literal (plainText run)) := by
  unfold leading plainText
  split <;> simp [spellings_append, spellings]

theorem plainText_append {s : List Char} (hl : s.getLast? ≠ some '@') (run : List Char) :
    escapes (s ++ run) = escapes run ∧ plainText (s ++ run) = s ++ plainText run := by
  cases run with
  | nil =>
    have he : escapes s = false := by simpa [escapes] using hl
    have hnil : escapes [] = false := rfl
    simp [plainText, he, hnil]
  | cons c run =>
    have he : escapes (s ++ c :: run) = escapes (c :: run) := by
      simp [escapes, List.getLast?_append]
    refine ⟨he, ?_⟩
    unfold plainText
    rw [he]
    split
    · exact List.dropLast_append_of_ne_nil (by simp)
    · rfl

/-- Two texts one after the other, seen from their spellings: those of both, but for the text on
both sides of the seam, which is one. -/
def Seam (ls ms both : List Spelling) : Prop :=
  ∃ head run r tail, ls = head ++ Piece.spellings (Piece.literal run) ∧
    ms = Piece.spellings (Piece.literal r) ++ tail ∧
    both = head ++ Piece.spellings (Piece.literal (run ++ r)) ++ tail

theorem Seam.ahead {ls ms both : List Spelling} (h : Seam ls ms both) (pre : List Spelling) :
    Seam (pre ++ ls) ms (pre ++ both) := by
  obtain ⟨head, run, r, tail, rfl, rfl, rfl⟩ := h
  exact ⟨pre ++ head, run, r, tail, by simp, rfl, by simp⟩

theorem CutInto.text_append {p q : List Char} (hp : (Tag.split p).2 = [])
    (hl : ∀ c ∈ p.getLast?, c ≠ '{' ∧ c ≠ '@') {qs : List Piece} (hq : CutInto q qs) :
    ∃ both, CutInto (p ++ q) both ∧
      Seam (Piece.spellings (Piece.literal p)) (Piece.spellings qs) (Piece.spellings both) := by
  have hbrace : p.getLast? ≠ some '{' := fun h => (hl _ h).1 rfl
  have hat : p.getLast? ≠ some '@' := fun h => (hl _ h).2 rfl
  have hsplit := split_append_text hp hbrace q
  cases hq with
  | text hs => exact ⟨_, .text (by rw [hsplit, hs]), [], p, q, [], rfl, by simp, by simp⟩
  | @tag _ body after tag pieces others ho hr hm =>
    obtain ⟨he, htext⟩ := plainText_append hat (Tag.split q).1
    refine ⟨_, .tag (by rw [hsplit, ho]) (by rw [hsplit, he]; exact hr) hm, [], p,
      plainText (Tag.split q).1, Piece.spellings (pieces ++ others), rfl, ?_, ?_⟩
    · simp [Piece.spellings_append, Piece.spellings_leading]
    · simp [hsplit, Piece.spellings_append, Piece.spellings_leading, htext]

/-- Two templates one after the other are cut as each of them is, but for the text at the seam. -/
theorem CutInto.append {p q : List Char} {ps qs : List Piece} (hp : CutInto p ps)
    (hq : CutInto q qs) (hl : ∀ c ∈ p.getLast?, c ≠ '{' ∧ c ≠ '@') :
    ∃ both, CutInto (p ++ q) both ∧
      Seam (Piece.spellings ps) (Piece.spellings qs) (Piece.spellings both) := by
  induction hp with
  | text hs => exact text_append hs hl hq
  | @tag p body after tag pieces others ho hr _ ih =>
    have hlast : ∀ c ∈ after.getLast?, c ∈ p.getLast? := by
      obtain ⟨inner, _, rfl⟩ := Tag.read_cover hr.read
      intro c hc
      rw [← Tag.split_append p, ← Tag.open?_spec ho]
      simp only [List.getLast?_append, Option.mem_def] at hc ⊢
      simp [hc]
    obtain ⟨both, hboth, hseam⟩ := ih fun c hc => hl c (hlast c hc)
    have hsplit := Tag.split_append_open (s := p) (by simp [ho]) q
    refine ⟨Piece.leading (Tag.split p).1 ++ pieces ++ both, ?_, ?_⟩
    · have hopen : Tag.open? (Tag.split (p ++ q)).2 = some (tag, body ++ q) := by
        rw [hsplit]
        exact Tag.open?_append ho q
      have hreads : tag.Reads (body ++ q) (escapes (Tag.split (p ++ q)).1) pieces (after ++ q) := by
        rw [hsplit]
        exact hr.append q
      have hmore := CutInto.tag hopen hreads hboth
      rwa [hsplit] at hmore
    · rw [Piece.spellings_append, Piece.spellings_append _ both]
      exact hseam.ahead _

end Stencil
