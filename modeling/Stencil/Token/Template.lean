import Stencil.Text.Line
import Stencil.Token.Piece
/-!
Cutting a whole template. Text runs up to the next `{{`, `{%` or `{#`; an at sign directly before a
tag turns that tag into text, a comment is a gap, and a verbatim block keeps its content as text.
-/
set_option autoImplicit false

namespace Stencil

inductive Tag where
  | value | block | comment
  deriving DecidableEq, Repr

namespace Tag

def opening : Tag → List Char
  | value => ['{', '{']
  | block => ['{', '%']
  | comment => ['{', '#']

def closing : Tag → List Char
  | value => ['}', '}']
  | block => ['%', '}']
  | comment => ['#', '}']

def open? : List Char → Option (Tag × List Char)
  | '{' :: '{' :: rest => some (value, rest)
  | '{' :: '%' :: rest => some (block, rest)
  | '{' :: '#' :: rest => some (comment, rest)
  | _ => none

theorem open?_spec {s rest : List Char} {tag : Tag} (h : open? s = some (tag, rest)) :
    tag.opening ++ rest = s := by
  unfold open? at h
  split at h <;> simp_all [opening] <;> obtain ⟨rfl, rfl⟩ := h <;> rfl

def split : List Char → List Char × List Char
  | [] => ([], [])
  | c :: rest =>
    if (open? (c :: rest)).isSome then ([], c :: rest)
    else
      let more := split rest
      (c :: more.1, more.2)

theorem split_append (s : List Char) : (split s).1 ++ (split s).2 = s := by
  induction s with
  | nil => rfl
  | cons c rest ih => rw [split]; dsimp only; split <;> simp [ih]

theorem split_open? (s : List Char) (h : open? (split s).2 = none) : (split s).2 = [] := by
  induction s with
  | nil => rfl
  | cons c rest ih =>
    rw [split] at h ⊢
    dsimp only at h ⊢
    split
    · rename_i hs; simp [hs] at h; simp [h] at hs
    · rename_i hs; simp [hs] at h; exact ih h

end Tag

def exactly (word s : List Char) : Option (List Char × List Char) :=
  if word.isPrefixOf s then some (word, s.drop word.length) else none

theorem exactly_append {word s m rest : List Char} (h : exactly word s = some (m, rest)) :
    m ++ rest = s := by
  unfold exactly at h
  split at h
  · rename_i hp
    obtain ⟨t, rfl⟩ := List.isPrefixOf_iff_prefix.1 hp
    simp_all
  · simp at h

/-- The first place where `stop` matches: the text before it, what it matches, and the rest. -/
def seek (stop : List Char → Option (List Char × List Char)) :
    List Char → Option (List Char × List Char × List Char)
  | [] => none
  | c :: rest =>
    match stop (c :: rest) with
    | some (m, after) => some ([], m, after)
    | none => (seek stop rest).map fun (before, m, after) => (c :: before, m, after)

theorem seek_append {stop : List Char → Option (List Char × List Char)}
    (hstop : ∀ {s m rest}, stop s = some (m, rest) → m ++ rest = s) {s before m after : List Char}
    (h : seek stop s = some (before, m, after)) : before ++ m ++ after = s := by
  induction s generalizing before with
  | nil => simp [seek] at h
  | cons c rest ih =>
    rw [seek] at h
    split at h
    · rename_i hs
      simp only [Option.some.injEq, Prod.mk.injEq] at h
      obtain ⟨rfl, rfl, rfl⟩ := h
      simpa using hstop hs
    · obtain ⟨⟨b, m', a⟩, hr, he⟩ := Option.map_eq_some_iff.1 h
      simp only [Prod.mk.injEq] at he
      obtain ⟨rfl, rfl, rfl⟩ := he
      simpa using ih hr

def loneWord (word s : List Char) : Option (List Char × List Char) :=
  match exactly word (Text.dropBlanks s) with
  | none => none
  | some (_, rest) =>
    (exactly Tag.block.closing (Text.dropBlanks rest)).map fun (closing, after) =>
      (Text.leadingBlanks s ++ word ++ Text.leadingBlanks rest ++ closing, after)

theorem loneWord_append {word s m rest : List Char} (h : loneWord word s = some (m, rest)) :
    m ++ rest = s := by
  unfold loneWord at h
  split at h
  · simp at h
  · rename_i w inner hw
    obtain ⟨⟨closing, after⟩, hc, he⟩ := Option.map_eq_some_iff.1 h
    simp only [Prod.mk.injEq] at he
    obtain ⟨rfl, rfl⟩ := he
    have hm : w = word := by
      unfold exactly at hw
      split at hw <;> simp_all
    have h1 := Text.leadingBlanks_append_dropBlanks s
    have h2 := Text.leadingBlanks_append_dropBlanks inner
    rw [← exactly_append hw, hm] at h1
    rw [← exactly_append hc] at h2
    simpa [h2] using h1

def verbatim : List Char := ['v', 'e', 'r', 'b', 'a', 't', 'i', 'm']
def endVerbatim : List Char := ['e', 'n', 'd'] ++ verbatim

def endVerbatimTag (s : List Char) : Option (List Char × List Char) :=
  match exactly Tag.block.opening s with
  | none => none
  | some (opening, rest) => (loneWord endVerbatim rest).map fun (m, after) => (opening ++ m, after)

theorem endVerbatimTag_append {s m rest : List Char} (h : endVerbatimTag s = some (m, rest)) :
    m ++ rest = s := by
  unfold endVerbatimTag at h
  split at h
  · simp at h
  · rename_i opening inner ho
    obtain ⟨⟨m', after⟩, hl, he⟩ := Option.map_eq_some_iff.1 h
    simp only [Prod.mk.injEq] at he
    obtain ⟨rfl, rfl⟩ := he
    rw [← exactly_append ho, ← loneWord_append hl, List.append_assoc]

namespace Tag

/-- An escaped tag is text up to and including the first occurrence of its closing. -/
def readEscaped (tag : Tag) (body : List Char) : Except Fault (List Piece × List Char) :=
  match seek (exactly tag.closing) body with
  | none => .error ⟨.unclosedTag (String.ofList tag.closing), tag.opening ++ body⟩
  | some (before, closing, after) => .ok ([.token .text (tag.opening ++ before ++ closing)], after)

def readComment (body : List Char) : Except Fault (List Piece × List Char) :=
  match seek (exactly comment.closing) body with
  | none => .error ⟨.unclosedTag (String.ofList comment.closing), comment.opening ++ body⟩
  | some (before, closing, after) => .ok ([.gap (comment.opening ++ before ++ closing)], after)

def readValue (body : List Char) : Except Fault (List Piece × List Char) :=
  match interior (some .value) (value.opening ++ body) [] body with
  | .error fault => .error fault
  | .ok (pieces, after) => .ok (.token .valueStart value.opening :: pieces, after)

def readBlock (body : List Char) : Except Fault (List Piece × List Char) :=
  match loneWord verbatim body with
  | some (word, content) =>
    match seek endVerbatimTag content with
    | none => .error ⟨.unclosedTag (String.ofList endVerbatim), block.opening ++ body⟩
    | some (inside, closing, after) =>
      .ok (.gap (block.opening ++ word) :: Piece.literal inside ++ [.gap closing], after)
  | none =>
    match interior (some .block) (block.opening ++ body) [] body with
    | .error fault => .error fault
    | .ok (pieces, after) => .ok (.token .blockStart block.opening :: pieces, after)

def read (tag : Tag) (escaped : Bool) (body : List Char) : Except Fault (List Piece × List Char) :=
  if escaped then tag.readEscaped body
  else match tag with
    | value => readValue body
    | block => readBlock body
    | comment => readComment body

theorem readEscaped_cover {tag : Tag} {body after : List Char} {pieces : List Piece}
    (h : tag.readEscaped body = .ok (pieces, after)) :
    ∃ inner, Piece.cover pieces = tag.opening ++ inner ∧ inner ++ after = body := by
  unfold readEscaped at h
  split at h
  · simp at h
  · rename_i before closing _ hs
    simp only [Except.ok.injEq, Prod.mk.injEq] at h
    obtain ⟨rfl, rfl⟩ := h
    exact ⟨before ++ closing, by simp [Piece.cover, Piece.text], seek_append exactly_append hs⟩

theorem readComment_cover {body after : List Char} {pieces : List Piece}
    (h : readComment body = .ok (pieces, after)) :
    ∃ inner, Piece.cover pieces = comment.opening ++ inner ∧ inner ++ after = body := by
  unfold readComment at h
  split at h
  · simp at h
  · rename_i before closing _ hs
    simp only [Except.ok.injEq, Prod.mk.injEq] at h
    obtain ⟨rfl, rfl⟩ := h
    exact ⟨before ++ closing, by simp [Piece.cover, Piece.text], seek_append exactly_append hs⟩

theorem readValue_cover {body after : List Char} {pieces : List Piece}
    (h : readValue body = .ok (pieces, after)) :
    ∃ inner, Piece.cover pieces = value.opening ++ inner ∧ inner ++ after = body := by
  unfold readValue at h
  split at h
  · simp at h
  · rename_i ps _ hi
    simp only [Except.ok.injEq, Prod.mk.injEq] at h
    obtain ⟨rfl, rfl⟩ := h
    exact ⟨Piece.cover ps, by simp [Piece.cover, Piece.text], interior_cover hi⟩

theorem readBlock_cover {body after : List Char} {pieces : List Piece}
    (h : readBlock body = .ok (pieces, after)) :
    ∃ inner, Piece.cover pieces = block.opening ++ inner ∧ inner ++ after = body := by
  unfold readBlock at h
  split at h
  · rename_i word content hw
    split at h
    · simp at h
    · rename_i inside closing after' hs
      simp only [Except.ok.injEq, Prod.mk.injEq] at h
      obtain ⟨rfl, rfl⟩ := h
      have h1 := seek_append endVerbatimTag_append hs
      have h2 := loneWord_append hw
      have h3 := Piece.cover_literal inside
      simp only [Piece.cover] at h3
      exact ⟨word ++ inside ++ closing, by simp [Piece.cover, Piece.text, h3], by simp [← h2, ← h1]⟩
  · split at h
    · simp at h
    · rename_i ps _ hi
      simp only [Except.ok.injEq, Prod.mk.injEq] at h
      obtain ⟨rfl, rfl⟩ := h
      exact ⟨Piece.cover ps, by simp [Piece.cover, Piece.text], interior_cover hi⟩

theorem read_cover {tag : Tag} {escaped : Bool} {body after : List Char} {pieces : List Piece}
    (h : tag.read escaped body = .ok (pieces, after)) :
    ∃ inner, Piece.cover pieces = tag.opening ++ inner ∧ inner ++ after = body := by
  unfold read at h
  split at h
  · exact readEscaped_cover h
  · cases tag
    · exact readValue_cover h
    · exact readBlock_cover h
    · exact readComment_cover h

end Tag

/-- Whether the text before a tag makes that tag text. -/
def escapes (run : List Char) : Bool := run.getLast? == some '@'

/-- The pieces of the text before a tag; an at sign that escapes the tag is a gap. -/
def Piece.leading (run : List Char) : List Piece :=
  if escapes run then literal run.dropLast ++ [.gap ['@']] else literal run

theorem Piece.cover_leading (run : List Char) : cover (leading run) = run := by
  unfold leading
  split
  · rename_i h
    simp only [escapes, beq_iff_eq] at h
    obtain ⟨before, rfl⟩ := List.getLast?_eq_some_iff.1 h
    rw [cover_append, cover_literal, List.dropLast_concat]
    simp [cover, Piece.text]
  · exact cover_literal run

def cut (input : List Char) : Except Fault (List Piece) :=
  match _ht : Tag.open? (Tag.split input).2 with
  | none => .ok (Piece.literal (Tag.split input).1)
  | some (tag, body) =>
    match _hr : tag.read (escapes (Tag.split input).1) body with
    | .error fault => .error fault
    | .ok (pieces, after) =>
      match cut after with
      | .error fault => .error fault
      | .ok others => .ok (Piece.leading (Tag.split input).1 ++ pieces ++ others)
termination_by input.length
decreasing_by
  have h1 := congrArg List.length (Tag.split_append input)
  have h2 := congrArg List.length (Tag.open?_spec _ht)
  obtain ⟨inner, _, h3⟩ := Tag.read_cover _hr
  have h4 := congrArg List.length h3
  have h5 : 0 < tag.opening.length := by cases tag <;> decide
  simp only [List.length_append] at h1 h2 h4
  omega

theorem cut_cover {input : List Char} {pieces : List Piece} (h : cut input = .ok pieces) :
    Piece.cover pieces = input := by
  fun_induction cut input generalizing pieces with
  | case1 input ht =>
    have hs := Tag.split_append input
    simp only [Except.ok.injEq] at h
    subst h
    rw [Tag.split_open? input ht, List.append_nil] at hs
    rw [Piece.cover_literal, hs]
  | case2 => simp at h
  | case3 => simp at h
  | case4 input tag body ht ps after hr others ho ih =>
    simp only [Except.ok.injEq] at h
    subst h
    obtain ⟨inner, hp, hb⟩ := Tag.read_cover hr
    rw [Piece.cover_append, Piece.cover_append, Piece.cover_leading, hp, ih ho]
    have hs := Tag.split_append input
    rw [← Tag.open?_spec ht, ← hb] at hs
    simpa using hs

def tokenize (text : String) : Except LexError (List Token) :=
  let input := Text.normalize text.toList
  match cut input with
  | .error fault => .error (fault.locate input)
  | .ok pieces =>
    .ok (Token.ofPieces 0 1 pieces ++ [⟨.eof, "", Text.size input, 1 + input.count '\n'⟩])

def tokenizeExpression (text : String) : Except LexError (List Token) :=
  let input := Text.normalize text.toList
  match interior none input [] input with
  | .error fault => .error (fault.locate input)
  | .ok (pieces, _) => .ok (Token.ofPieces 0 1 pieces)

end Stencil
