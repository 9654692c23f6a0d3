import Stencil.Proofs.Pieces
import Stencil.Proofs.Scanning
import Stencil.Proofs.Stops
/-!
The layout of a template: which pieces may follow each other. A template that can be cut is made of
texts, of tags with blanks and lexemes inside them, and of what is passed over: comments, the tags
around verbatim blocks, and the at sign before an escaped tag. Brackets are closed inside the tag
that opened them.
-/
set_option autoImplicit false

namespace Stencil

def partners : List (Char × Char) := [('(', ')'), ('[', ']'), ('{', '}')]

def bracket (c : Char) : Spelling := (.punctuation, [c])

/-- Every bracket is closed by its partner, and what is opened inside is closed inside. -/
inductive Nested : List Spelling → Prop where
  | nil : Nested []
  | other {l : Spelling} {more : List Spelling}
      (hl : ∀ p ∈ partners, l ≠ bracket p.1 ∧ l ≠ bracket p.2) (hm : Nested more) :
      Nested (l :: more)
  | pair {p : Char × Char} {inner more : List Spelling} (hp : p ∈ partners) (hi : Nested inner)
      (hm : Nested more) : Nested (bracket p.1 :: (inner ++ bracket p.2 :: more))

/-- Lexemes that close the brackets open before them, the innermost first, and all of their own. -/
def Unwinds : List OpenBracket → List Spelling → Prop
  | [], ls => Nested ls
  | b :: outer, ls => ∃ inner more, ls = inner ++ bracket b.close :: more ∧ Nested inner ∧
      Unwinds outer more

theorem Unwinds.ahead {pre : List Spelling} (hpre : ∀ more, Nested more → Nested (pre ++ more))
    {opened : List OpenBracket} {ls : List Spelling} (h : Unwinds opened ls) :
    Unwinds opened (pre ++ ls) := by
  cases opened with
  | nil => exact hpre ls h
  | cons b outer =>
    obtain ⟨inner, more, rfl, hi, hm⟩ := h
    exact ⟨pre ++ inner, more, by simp, hpre inner hi, hm⟩

theorem Unwinds.opens {b : OpenBracket} (hb : (b.bracket, b.close) ∈ partners)
    {opened : List OpenBracket} {ls : List Spelling} (h : Unwinds (b :: opened) ls) :
    Unwinds opened (bracket b.bracket :: ls) := by
  obtain ⟨inner, more, rfl, hi, hm⟩ := h
  have hpre : ∀ rest, Nested rest →
      Nested (bracket b.bracket :: inner ++ [bracket b.close] ++ rest) := by
    intro rest hr
    simpa using Nested.pair hb hi hr
  simpa using hm.ahead hpre

theorem OpenBracket.track_ok {opened inner : List OpenBracket} {c : Char} {rest : List Char}
    (h : track opened (c :: rest) = .ok inner) :
    (∃ b : OpenBracket, b.bracket = c ∧ (c, b.close) ∈ partners ∧ inner = b :: opened) ∨
    (∃ b, opened = b :: inner ∧ b.close = c) ∨
    ((∀ p ∈ partners, c ≠ p.1 ∧ c ≠ p.2) ∧ inner = opened) := by
  unfold track at h
  dsimp only at h
  split at h
  · rename_i hc
    simp only [Except.ok.injEq] at h
    refine .inl ⟨⟨c, c :: rest⟩, rfl, ?_, h.symm⟩
    simp only [List.contains_eq_mem, List.mem_cons, List.not_mem_nil, or_false,
      decide_eq_true_eq] at hc
    rcases hc with rfl | rfl | rfl <;> simp [close, partners]
  · rename_i hopen
    split at h
    · split at h
      · simp at h
      · rename_i b outer
        split at h
        · rename_i hb
          simp only [Except.ok.injEq] at h
          exact .inr (.inl ⟨b, by rw [h], hb⟩)
        · simp at h
    · rename_i hclose
      simp only [Except.ok.injEq] at h
      refine .inr (.inr ⟨?_, h.symm⟩)
      simp_all [partners]

theorem lexeme?_punctuation {c : Char} {rest text after : List Char}
    (h : lexeme? (c :: rest) = some (.punctuation, text, after)) : text = [c] := by
  unfold lexeme? at h
  split at h
  · simp at h
  · simp at h
  · rename_i heq
    simp only [List.cons.injEq] at heq
    obtain ⟨rfl, rfl⟩ := heq
    split at h
    · simp only [Option.some.injEq, Prod.mk.injEq] at h
      obtain ⟨hk, _⟩ := h
      split at hk <;> simp at hk
    · split at h
      · simp at h
      · split at h
        · obtain ⟨_, _, he⟩ := Option.map_eq_some_iff.1 h
          simp at he
        · split at h
          · simp only [Option.some.injEq, Prod.mk.injEq] at h
            exact h.2.1.symm
          · simp at h

inductive Round.Reads (closer : Closer) (opened : List OpenBracket) (input : List Char) :
    Round → Prop where
  | closes {rest : List Char} (ho : opened = [])
      (hd : Text.dropBlanks input = closer.text ++ rest) : Reads closer opened input
      (.done [.gap (Text.leadingBlanks input), .token closer.kind closer.text] rest)
  | lexeme {c : Char} {rest text after : List Char} {kind : Token.Kind} {inner : List OpenBracket}
      (hd : Text.dropBlanks input = c :: rest) (he : closer.endsAt opened (c :: rest) = false)
      (hl : lexeme? (c :: rest) = some (kind, text, after))
      (ht : (if kind = .punctuation then OpenBracket.track opened (c :: rest) else .ok opened)
        = .ok inner) :
      Reads closer opened input
        (.more [.gap (Text.leadingBlanks input), .token kind text] inner after)

theorem Round.reads_of_read {closer : Closer} {origin : List Char} {opened : List OpenBracket}
    {input : List Char} {r : Round} (h : read (some closer) origin opened input = .ok r) :
    Reads closer opened input r := by
  unfold read at h
  dsimp only at h
  split at h
  · simp [atEnd] at h
  · rename_i c rest hd
    split at h
    · rename_i close hc
      obtain ⟨he, hend⟩ := Option.filter_eq_some_iff.1 hc
      obtain rfl := Option.some.inj he
      obtain ⟨_, hnone, rfl⟩ := map_eq_ok h
      have ho : opened = [] := by
        cases opened with
        | nil => rfl
        | cons b outer => simp [OpenBracket.checkNone] at hnone
      simp only [Closer.endsAt, Bool.and_eq_true] at hend
      obtain ⟨tail, ht⟩ := List.isPrefixOf_iff_prefix.1 hend.1
      rw [← ht, List.drop_left]
      exact .closes ho (hd.trans ht.symm)
    · rename_i hc
      unfold atLexeme at h
      split at h
      · simp at h
      · rename_i kind text after hl
        obtain ⟨inner, ht, rfl⟩ := map_eq_ok h
        refine .lexeme hd ?_ hl ht
        simpa [Option.filter] using hc

inductive Piece.Inner : Piece → Prop where
  | blanks {s : List Char} (hs : Text.Blanks s) : Inner (.gap s)
  | lexeme {kind : Token.Kind} {s : List Char} (hk : Lexeme.Form kind s) (hs : s ≠ []) :
      Inner (.token kind s)

/-- A lexeme opens a bracket, closes the innermost one, or leaves the brackets alone. -/
theorem Round.Reads.unwinds {closer : Closer} {opened inner : List OpenBracket}
    {input after : List Char} {ps : List Piece}
    (h : Reads closer opened input (.more ps inner after)) {ls : List Spelling}
    (hls : Unwinds inner ls) : Unwinds opened (Piece.spellings ps ++ ls) := by
  cases h with
  | @lexeme c rest text _ kind _ hd he hl ht =>
    show Unwinds opened ((kind, text) :: ls)
    have hother (hno : ∀ p ∈ partners, (kind, text) ≠ bracket p.1 ∧ (kind, text) ≠ bracket p.2)
        (hsame : inner = opened) : Unwinds opened ((kind, text) :: ls) := by
      subst hsame
      have hpre : ∀ more, Nested more → Nested ([(kind, text)] ++ more) :=
        fun _ hm => .other hno hm
      exact hls.ahead hpre
    by_cases hk : kind = .punctuation
    · subst hk
      rw [if_pos rfl] at ht
      obtain rfl := lexeme?_punctuation hl
      obtain ⟨b, rfl, hb, rfl⟩ | ⟨b, rfl, rfl⟩ | ⟨hno, hsame⟩ := OpenBracket.track_ok ht
      · exact hls.opens hb
      · -- nothing stands between the last lexeme and the bracket that closes the innermost one
        exact ⟨[], ls, rfl, .nil, hls⟩
      · exact hother (by simpa [bracket] using hno) hsame
    · rw [if_neg hk, Except.ok.injEq] at ht
      exact hother (by simp [bracket, hk]) ht.symm

theorem Round.Reads.inner {closer : Closer} {opened inner : List OpenBracket}
    {input after : List Char} {ps : List Piece}
    (h : Reads closer opened input (.more ps inner after)) : ∀ p ∈ ps, p.Inner := by
  cases h with
  | lexeme _ _ hl _ =>
    have hlexeme := Piece.Inner.lexeme (Lexeme.form_of_lexeme? hl) (lexeme?_spec hl).2
    have hblanks := Piece.Inner.blanks (Text.blanks_leadingBlanks input)
    intro p hp
    simp only [List.mem_cons, List.not_mem_nil, or_false] at hp
    rcases hp with rfl | rfl
    · exact hblanks
    · exact hlexeme

/-- The interior of a tag is blanks and lexemes up to its closer, with all brackets closed. -/
theorem interior_layout {closer : Closer} {origin : List Char} {opened : List OpenBracket}
    {input left : List Char} {pieces : List Piece}
    (h : interior (some closer) origin opened input = .ok (pieces, left)) :
    ∃ inside, pieces = inside ++ [.token closer.kind closer.text] ∧ (∀ p ∈ inside, p.Inner) ∧
      Unwinds opened (Piece.spellings inside) := by
  fun_induction interior (some closer) origin opened input generalizing pieces left with
  | case1 => simp at h
  | case2 opened input ps l hr =>
    simp only [Except.ok.injEq, Prod.mk.injEq] at h
    obtain ⟨rfl, rfl⟩ := h
    cases Round.reads_of_read hr with
    | closes ho hd =>
      subst ho
      refine ⟨[.gap (Text.leadingBlanks input)], rfl, ?_, .nil⟩
      intro p hp
      obtain rfl := List.mem_singleton.1 hp
      exact .blanks (Text.blanks_leadingBlanks input)
  | case3 => simp at h
  | case4 opened input ps inner after hr others l hi ih =>
    simp only [Except.ok.injEq, Prod.mk.injEq] at h
    obtain ⟨rfl, rfl⟩ := h
    obtain ⟨inside, rfl, hinner, hunwinds⟩ := ih hi
    have hreads := Round.reads_of_read hr
    refine ⟨ps ++ inside, by simp, List.forall_mem_append.2 ⟨hreads.inner, hinner⟩, ?_⟩
    rw [Piece.spellings_append]
    exact hreads.unwinds hunwinds

def enclosures : List (Spelling × Spelling) :=
  [((.valueStart, Tag.value.opening), (.valueEnd, Tag.value.closing)),
    ((.blockStart, Tag.block.opening), (.blockEnd, Tag.block.closing))]

/-- What is passed over between tags: a whole comment, or a tag around a verbatim block. -/
inductive Skipped : List Char → Prop where
  | comment {body : List Char} (hb : Tag.comment.Closes body) :
      Skipped (Tag.comment.opening ++ body ++ Tag.comment.closing)
  | verbatim {word m : List Char} (hw : word = verbatim ∨ word = endVerbatim)
      (hm : Lone word m) : Skipped (Tag.block.opening ++ m)

inductive Layout : List Piece → Prop where
  | nil : Layout []
  | text {s : List Char} {more : List Piece} (hs : s ≠ []) (hm : Layout more) :
      Layout (.token .text s :: more)
  | skipped {s : List Char} {more : List Piece} (hs : Skipped s) (hm : Layout more) :
      Layout (.gap s :: more)
  | escaped {tag : Tag} {body : List Char} {more : List Piece} (hb : tag.Closes body)
      (hm : Layout more) : Layout (.gap ['@'] ::
        .token .text (tag.opening ++ body ++ tag.closing) :: more)
  | tag {p : Spelling × Spelling} {inside more : List Piece} (hp : p ∈ enclosures)
      (hi : ∀ q ∈ inside, q.Inner) (hn : Nested (Piece.spellings inside)) (hm : Layout more) :
      Layout (.token p.1.1 p.1.2 :: (inside ++ .token p.2.1 p.2.2 :: more))

theorem Layout.literal {more : List Piece} (hm : Layout more) (s : List Char) :
    Layout (Piece.literal s ++ more) := by
  cases s with
  | nil => exact hm
  | cons c rest => exact .text (by simp) hm

namespace Tag

variable {body after : List Char} {pieces more : List Piece}

theorem layout_of_interior {closer : Closer} {opening : Spelling} {origin : List Char}
    (hp : (opening, (closer.kind, closer.text)) ∈ enclosures)
    (h : interior (some closer) origin [] body = .ok (pieces, after)) (hm : Layout more) :
    Layout (.token opening.1 opening.2 :: pieces ++ more) := by
  obtain ⟨inside, rfl, hi, hn⟩ := interior_layout h
  simpa using Layout.tag hp hi hn hm

theorem Reads.layout {tag : Tag} {run : List Char} (h : tag.Reads body (escapes run) pieces after)
    (hm : Layout more) : Layout (Piece.leading run ++ pieces ++ more) := by
  generalize he : escapes run = escaped at h
  have hplain (hf : escaped = false) (hl : Layout (pieces ++ more)) :
      Layout (Piece.leading run ++ pieces ++ more) := by
    rw [Piece.leading, he, hf, List.append_assoc]
    exact hl.literal run
  cases h with
  | escaped hs =>
    obtain ⟨rfl, hb⟩ := closes_of_seek hs
    simpa [Piece.leading, he] using Layout.literal (.escaped hb hm) run.dropLast
  | comment hs =>
    obtain ⟨rfl, hb⟩ := closes_of_seek hs
    exact hplain rfl (.skipped (.comment hb) hm)
  | value hi =>
    have hp : ((.valueStart, Tag.value.opening), (Closer.value.kind, Closer.value.text))
        ∈ enclosures := by simp [enclosures, Closer.value, closing]
    exact hplain rfl (layout_of_interior hp hi hm)
  | @verbatim _ word _ inside _ _ hw hs =>
    have hopen : Skipped (Tag.block.opening ++ word) :=
      .verbatim (.inl rfl) (stops_verbatim.eq_some_iff.1 hw).1
    obtain ⟨⟨m, hlone, rfl⟩, _⟩ := stops_endVerbatim.seek_spec hs
    have hclose : Skipped (Tag.block.opening ++ m) := .verbatim (.inr rfl) hlone
    have hinside := Layout.literal (.skipped hclose hm) inside
    exact hplain rfl (by simpa using Layout.skipped hopen hinside)
  | block _ hi =>
    have hp : ((.blockStart, Tag.block.opening), (Closer.block.kind, Closer.block.text))
        ∈ enclosures := by simp [enclosures, Closer.block, closing]
    exact hplain rfl (layout_of_interior hp hi hm)

end Tag

theorem CutInto.layout {input : List Char} {pieces : List Piece} (h : CutInto input pieces) :
    Layout pieces := by
  induction h with
  | @text input => simpa using Layout.literal .nil input
  | tag _ hr _ ih => exact hr.layout ih

end Stencil
