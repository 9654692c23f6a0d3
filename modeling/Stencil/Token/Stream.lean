import Stencil.ParseError
/-!
A cursor over tokens. The tokens end with the end of the template, and the cursor never passes the
first such end.
-/
set_option autoImplicit false

namespace Stencil

/-- Positions are counted in words of 64 bits; a sum past the largest one starts again at zero. -/
def wordSize : Nat := 0x10000000000000000

structure TokenStream where
  tokens : List Token
  cursor : Nat
  ends : tokens.getLast?.any (·.kind == .eof)
  reads : ∀ t ∈ tokens.take cursor, t.kind ≠ .eof

namespace TokenStream

theorem cursor_lt (s : TokenStream) : s.cursor < s.tokens.length := by
  have he := s.ends
  have hr := s.reads
  cases hl : s.tokens.getLast? with
  | none => simp [hl] at he
  | some t =>
    have hk : t.kind = .eof := by simpa [hl] using he
    apply Classical.byContradiction
    intro hc
    rw [List.take_of_length_le (by omega)] at hr
    exact hr t (List.mem_of_getLast? hl) hk

def endAfter (last : Option Token) : Token :=
  match last with
  | none => ⟨.eof, "", 0, 1⟩
  | some t => ⟨.eof, "", (t.offset + t.value.utf8ByteSize) % wordSize, t.line⟩

/-- Tokens that do not end with the end of the template get one. -/
def closeTokens (tokens : List Token) : List Token :=
  if tokens.getLast?.any (·.kind == .eof) then tokens else tokens ++ [endAfter tokens.getLast?]

theorem closeTokens_ends (tokens : List Token) :
    (closeTokens tokens).getLast?.any (·.kind == .eof) = true := by
  unfold closeTokens
  split
  · assumption
  · cases h : tokens.getLast? <;> simp [endAfter]

def ofTokens (tokens : List Token) : TokenStream where
  tokens := closeTokens tokens
  cursor := 0
  ends := closeTokens_ends tokens
  reads := by simp

def current (s : TokenStream) : Token := s.tokens.get ⟨s.cursor, s.cursor_lt⟩

def previous (s : TokenStream) : Token :=
  s.tokens.get ⟨s.cursor - 1, Nat.lt_of_le_of_lt (Nat.sub_le _ _) s.cursor_lt⟩

/-- The token `n` places ahead, or the last one if there are not so many. -/
def peek (s : TokenStream) (n : Nat) : Token :=
  s.tokens.get ⟨min ((s.cursor + n) % wordSize) (s.tokens.length - 1), by
    have := s.cursor_lt
    omega⟩

def isEof (s : TokenStream) : Bool := s.current.kind == .eof

theorem reads_succ (s : TokenStream) (h : s.isEof = false) :
    ∀ t ∈ s.tokens.take (s.cursor + 1), t.kind ≠ .eof := by
  intro t ht
  rw [List.take_succ_eq_append_getElem s.cursor_lt, List.mem_append, List.mem_singleton] at ht
  cases ht with
  | inl ht => exact s.reads t ht
  | inr ht => subst ht; simpa [isEof, current] using h

def advance (s : TokenStream) (h : s.isEof = false) : TokenStream :=
  { s with cursor := s.cursor + 1, reads := s.reads_succ h }

def atEnd (line : Nat) : ParseError := ⟨.endOfTemplate none, line⟩

def next (s : TokenStream) : Except ParseError Token × TokenStream :=
  if h : s.isEof = false then (.ok s.current, s.advance h) else (.error (atEnd s.current.line), s)

/-- Reads through the first token of a kind and gives those before it. When none is left, the
cursor stops at the end. -/
def takeUntil (kind : Token.Kind) (s : TokenStream) :
    Except ParseError (List Token) × TokenStream :=
  if h : s.isEof = false then
    if s.current.kind = kind then (.ok [], s.advance h)
    else
      let rest := takeUntil kind (s.advance h)
      (rest.1.map (s.current :: ·), rest.2)
  else (.error (atEnd s.current.line), s)
termination_by s.tokens.length - s.cursor
decreasing_by
  have := s.cursor_lt
  simp only [advance]
  omega

def length (s : TokenStream) : Nat := s.tokens.length

def isEmpty (s : TokenStream) : Bool := s.tokens.length ≤ 1

def toString (s : TokenStream) : String := String.join (s.tokens.map (·.value))

def unread (s : TokenStream) : List Token :=
  (s.tokens.drop s.cursor).takeWhile (·.kind != .eof)

def endLine (s : TokenStream) : Nat :=
  (((s.tokens.drop s.cursor).find? (·.kind == .eof)).getD s.current).line

end TokenStream

end Stencil
