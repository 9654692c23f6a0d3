import Stencil.Outcome
import Stencil.Text.Blank
import Stencil.Text.Position
import Stencil.Token.Lexeme
/-!
Pieces: a text cut into tokens and the gaps between them, with no places attached. A reader that
fails reports what is wrong together with the input from the offending character on; the place of
a piece or of a fault is computed from the text alone.
-/
set_option autoImplicit false

namespace Stencil

inductive LexError.Cause where
  | unclosedTag (expected : String)
  | unclosedBracket (bracket : Char)
  | mismatchedBracket (found : Char) (expected : Option Char)
  | unexpectedCharacter (found : Char)
  deriving DecidableEq, Repr

def LexError.Cause.message : Cause → String
  | unclosedTag expected => "unclosed tag, expected `" ++ expected ++ "`"
  | unclosedBracket bracket => "unclosed bracket `" ++ bracket.toString ++ "`"
  | mismatchedBracket found (some expected) =>
    "mismatched bracket `" ++ found.toString ++ "`, expected `" ++ expected.toString ++ "`"
  | mismatchedBracket found none =>
    "mismatched bracket `" ++ found.toString ++ "`, no bracket is open"
  | unexpectedCharacter found => "unexpected character `" ++ found.toString ++ "`"

structure LexError where
  cause : LexError.Cause
  line : Nat
  deriving DecidableEq, Repr

def LexError.message (e : LexError) : String := e.cause.message

/-- What is wrong, and the input from there on. -/
structure Fault where
  cause : LexError.Cause
  input : List Char
  deriving DecidableEq, Repr

def Fault.locate (text : List Char) (f : Fault) : LexError := ⟨f.cause, Text.lineAt text f.input⟩

inductive Piece where
  | token (kind : Token.Kind) (text : List Char)
  | gap (text : List Char)
  deriving DecidableEq, Repr

namespace Piece

def text : Piece → List Char
  | token _ text => text
  | gap text => text

def cover (pieces : List Piece) : List Char := pieces.flatMap text

/-- Literal text becomes a token unless it is empty. -/
def literal : List Char → List Piece
  | [] => []
  | s => [token .text s]

theorem cover_literal (s : List Char) : cover (literal s) = s := by
  cases s <;> simp [cover, literal, text]

theorem cover_append (a b : List Piece) : cover (a ++ b) = cover a ++ cover b := by simp [cover]

end Piece

def Token.ofPieces (offset line : Nat) : List Piece → List Token
  | [] => []
  | .gap text :: more => ofPieces (offset + Text.size text) (line + text.count '\n') more
  | .token kind text :: more =>
    ⟨kind, String.ofList text, offset, line⟩ ::
      ofPieces (offset + Text.size text) (line + text.count '\n') more

structure Closer where
  kind : Token.Kind
  text : List Char
  deriving DecidableEq, Repr

def Closer.value : Closer := ⟨.valueEnd, ['}', '}']⟩
def Closer.block : Closer := ⟨.blockEnd, ['%', '}']⟩

/-- A bracket waiting for its partner, and the input from it on. -/
structure OpenBracket where
  bracket : Char
  input : List Char

def OpenBracket.close (b : OpenBracket) : Char :=
  if b.bracket = '(' then ')' else if b.bracket = '[' then ']' else '}'

/-- A brace that closes an open brace does not begin a closer. -/
def Closer.endsAt (close : Closer) (opened : List OpenBracket) (input : List Char) : Bool :=
  close.text.isPrefixOf input &&
    !(close.text.head? == some '}' && opened.head?.any (·.bracket == '{'))

def OpenBracket.track (opened : List OpenBracket) : List Char → Except Fault (List OpenBracket)
  | [] => .ok opened
  | c :: rest =>
    if ['(', '[', '{'].contains c then .ok (⟨c, c :: rest⟩ :: opened)
    else if [')', ']', '}'].contains c then
      match opened with
      | [] => .error ⟨.mismatchedBracket c none, c :: rest⟩
      | b :: outer =>
        if b.close = c then .ok outer
        else .error ⟨.mismatchedBracket c (some b.close), c :: rest⟩
    else .ok opened

def OpenBracket.checkNone : List OpenBracket → Except Fault Unit
  | [] => .ok ()
  | b :: _ => .error ⟨.unclosedBracket b.bracket, b.input⟩

/-- What one round of cutting an interior comes to: its end, or one more lexeme. -/
inductive Round where
  | done (pieces : List Piece) (left : List Char)
  | more (pieces : List Piece) (opened : List OpenBracket) (left : List Char)

namespace Round

def pieces : Round → List Piece
  | done pieces _ | more pieces _ _ => pieces

def left : Round → List Char
  | done _ left | more _ _ left => left

def atEnd (close : Option Closer) (origin : List Char) (opened : List OpenBracket)
    (gap : Piece) : Except Fault Round :=
  match close with
  | some c => .error ⟨.unclosedTag (String.ofList c.text), origin⟩
  | none => (OpenBracket.checkNone opened).map fun _ => done [gap] []

def atCloser (closer : Closer) (opened : List OpenBracket) (gap : Piece) (input : List Char) :
    Except Fault Round :=
  (OpenBracket.checkNone opened).map fun _ =>
    done [gap, .token closer.kind closer.text] (input.drop closer.text.length)

def atLexeme (opened : List OpenBracket) (gap : Piece) (c : Char) (rest : List Char) :
    Except Fault Round :=
  match lexeme? (c :: rest) with
  | none => .error ⟨.unexpectedCharacter c, c :: rest⟩
  | some (kind, text, after) =>
    (if kind = .punctuation then OpenBracket.track opened (c :: rest) else .ok opened).map
      fun inner => more [gap, .token kind text] inner after

/-- One round: blanks, then the closer, if it is there, or a lexeme. -/
def read (close : Option Closer) (origin : List Char) (opened : List OpenBracket)
    (input : List Char) : Except Fault Round :=
  let gap := Piece.gap (Text.leadingBlanks input)
  match Text.dropBlanks input with
  | [] => atEnd close origin opened gap
  | c :: rest =>
    match close.filter (·.endsAt opened (c :: rest)) with
    | some closer => atCloser closer opened gap (c :: rest)
    | none => atLexeme opened gap c rest

theorem read_cover {close : Option Closer} {origin : List Char} {opened : List OpenBracket}
    {input : List Char} {r : Round} (h : read close origin opened input = .ok r) :
    Piece.cover r.pieces ++ r.left = input := by
  have hi := Text.leadingBlanks_append_dropBlanks input
  unfold read at h
  dsimp only at h
  split at h
  · rename_i hb
    cases close with
    | some c => simp [atEnd] at h
    | none =>
      obtain ⟨_, _, rfl⟩ := map_eq_ok h
      simpa [pieces, left, Piece.cover, Piece.text, hb] using hi
  · rename_i c rest hb
    rw [hb] at hi
    split at h
    · rename_i closer hc
      obtain ⟨_, _, rfl⟩ := map_eq_ok h
      obtain ⟨_, he⟩ := Option.filter_eq_some_iff.1 hc
      simp only [Closer.endsAt, Bool.and_eq_true] at he
      obtain ⟨t, ht⟩ := List.isPrefixOf_iff_prefix.1 he.1
      refine Eq.trans ?_ hi
      rw [← ht]
      simp [pieces, left, Piece.cover, Piece.text]
    · unfold atLexeme at h
      split at h
      · simp at h
      · rename_i kind text after hl
        obtain ⟨_, _, rfl⟩ := map_eq_ok h
        simp [pieces, left, Piece.cover, Piece.text, (lexeme?_spec hl).1, hi]

theorem length_lt_of_read {close : Option Closer} {origin : List Char}
    {opened inner : List OpenBracket} {input after : List Char} {ps : List Piece}
    (h : read close origin opened input = .ok (.more ps inner after)) :
    after.length < input.length := by
  have hi := Text.length_dropBlanks_le input
  unfold read at h
  dsimp only at h
  split at h
  · cases close with
    | some c => simp [atEnd] at h
    | none => obtain ⟨_, _, he⟩ := map_eq_ok h; simp at he
  · rename_i c rest hb
    rw [hb] at hi
    split at h
    · obtain ⟨_, _, he⟩ := map_eq_ok h; simp at he
    · unfold atLexeme at h
      split at h
      · simp at h
      · rename_i hl
        obtain ⟨_, _, he⟩ := map_eq_ok h
        simp only [more.injEq] at he
        obtain ⟨_, _, rfl⟩ := he
        exact Nat.lt_of_lt_of_le (length_lexeme?_lt hl) hi

end Round

/-- Cuts the interior of a tag up to and including its closer, or up to the end of the input if
none is asked for. A missing closer is reported at `origin`. -/
def interior (close : Option Closer) (origin : List Char) (opened : List OpenBracket)
    (input : List Char) : Except Fault (List Piece × List Char) :=
  match _h : Round.read close origin opened input with
  | .error fault => .error fault
  | .ok (.done pieces left) => .ok (pieces, left)
  | .ok (.more pieces inner after) =>
    match interior close origin inner after with
    | .error fault => .error fault
    | .ok (others, left) => .ok (pieces ++ others, left)
termination_by input.length
decreasing_by exact Round.length_lt_of_read _h

theorem interior_cover {close : Option Closer} {origin : List Char} {opened : List OpenBracket}
    {input left : List Char} {pieces : List Piece}
    (h : interior close origin opened input = .ok (pieces, left)) :
    Piece.cover pieces ++ left = input := by
  fun_induction interior close origin opened input generalizing pieces left with
  | case1 => simp at h
  | case2 opened input ps l hr =>
    simp only [Except.ok.injEq, Prod.mk.injEq] at h
    obtain ⟨rfl, rfl⟩ := h
    exact Round.read_cover hr
  | case3 => simp at h
  | case4 opened input ps inner after hr others l hi ih =>
    simp only [Except.ok.injEq, Prod.mk.injEq] at h
    obtain ⟨rfl, rfl⟩ := h
    have hc : Piece.cover ps ++ after = input := Round.read_cover hr
    rw [← ih hi] at hc
    simpa [Piece.cover_append] using hc

end Stencil
