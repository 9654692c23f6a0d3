import Stencil.Proofs.Compiling
import Stencil.Proofs.Layout
import Stencil.Proofs.Statement.Errors
set_option autoImplicit false

namespace Stencil

def innerKinds : List Token.Kind := [.name, .number, .string, .operator, .punctuation]

inductive Shape : List Spelling → Prop where
  | nil : Shape []
  | text {s : List Char} {more : List Spelling} (hm : Shape more) : Shape ((.text, s) :: more)
  | tag {p : Spelling × Spelling} {inside more : List Spelling} (hp : p ∈ enclosures)
      (hi : ∀ l ∈ inside, l.1 ∈ innerKinds) (hn : Nested inside) (hm : Shape more) :
      Shape (p.1 :: (inside ++ p.2 :: more))

/-- Tokens of this shape, with the end of the template as the last one. -/
def Shaped (tokens : List Token) : Prop :=
  ∃ inner last, tokens = inner ++ [last] ∧ last.kind = .eof ∧ Shape (inner.map Token.spelling)

theorem Shape.ne_eof {ls : List Spelling} (h : Shape ls) : ∀ l ∈ ls, l.1 ≠ .eof := by
  induction h with
  | nil => simp
  | text _ ih => simpa using ih
  | @tag p inside more hp hi _ _ ih =>
    have hends : p.1.1 ≠ .eof ∧ p.2.1 ≠ .eof := by
      simp only [enclosures, List.mem_cons, List.not_mem_nil, or_false] at hp
      rcases hp with rfl | rfl <;> simp
    intro l hl
    simp only [List.mem_cons, List.mem_append] at hl
    rcases hl with rfl | hl | rfl | hl
    · exact hends.1
    · intro heq
      exact absurd (heq ▸ hi l hl) (by simp [innerKinds])
    · exact hends.2
    · exact ih l hl

theorem Piece.innerKinds_of_inner {inside : List Piece} (hi : ∀ p ∈ inside, p.Inner) :
    ∀ l ∈ spellings inside, l.1 ∈ innerKinds := by
  induction inside with
  | nil => simp [spellings]
  | cons p inside ih =>
    have hrest := ih fun q hq => hi q (by simp [hq])
    cases hi p (by simp) with
    | blanks => exact hrest
    | @lexeme kind s hk _ =>
      have hkind : kind ∈ innerKinds := by
        cases kind <;> first | exact hk.elim | simp [innerKinds]
      intro l hl
      cases hl with
      | head => exact hkind
      | tail _ hl => exact hrest l hl

theorem Layout.shape {pieces : List Piece} (h : Layout pieces) :
    Shape (Piece.spellings pieces) := by
  induction h with
  | nil => exact .nil
  | text _ _ ih => exact .text ih
  | skipped _ _ ih => exact ih
  | escaped _ _ ih => exact .text ih
  | tag hp hi hn _ ih =>
    rw [Piece.spellings, Piece.spellings_append]
    exact .tag hp (Piece.innerKinds_of_inner hi) hn ih

namespace Segment

theorem split_error {line : Nat} {t : Token} {rest : List Token} {e : ParseError}
    (h : read line t rest = .error e) : split line (t :: rest) = ([], some e) := by
  rw [split]
  split
  · rename_i hr
    rw [h, Except.error.injEq] at hr
    rw [hr]
  · rename_i hr
    simp [h] at hr

theorem read_tag {p : Spelling × Spelling} (hp : p ∈ enclosures) {opening close : Token}
    {inside : List Token} (ho : opening.spelling = p.1) (hc : close.spelling = p.2)
    (hi : ∀ t ∈ inside, t.kind ∈ innerKinds) (line : Nat) (more : List Token) :
    (∃ s, read line opening (inside ++ close :: more) = .ok (s, more)) ∨
      ∃ t, read line opening (inside ++ close :: more) = .error (ParseError.unexpected t) := by
  have hne {kind : Token.Kind} (hk : kind ∉ innerKinds) : ∀ t ∈ inside, t.kind ≠ kind :=
    fun t ht heq => hk (heq ▸ hi t ht)
  simp only [enclosures, List.mem_cons, List.not_mem_nil, or_false] at hp
  rcases hp with rfl | rfl
  · obtain ⟨hopen, _⟩ := Prod.mk.inj ho
    obtain ⟨hclose, _⟩ := Prod.mk.inj hc
    obtain ⟨t, rest, heq, hr⟩ := (Covers.value hopen (hne (by simp [innerKinds])) hclose).read
      line more
    simp only [List.cons_append, List.append_assoc, List.nil_append, List.cons.injEq] at heq
    obtain ⟨rfl, rfl⟩ := heq
    exact .inl ⟨_, hr⟩
  · obtain ⟨hopen, _⟩ := Prod.mk.inj ho
    obtain ⟨hclose, _⟩ := Prod.mk.inj hc
    cases inside with
    | nil => exact .inr ⟨close, by simp [read, hopen, hclose]⟩
    | cons keyword args =>
      by_cases hk : keyword.kind = .name
      · have hargs : ∀ t ∈ args, t.kind ≠ .blockEnd :=
          fun t ht => hne (by simp [innerKinds]) t (.tail _ ht)
        obtain ⟨t, rest, heq, hr⟩ := (Covers.block hopen hk hargs hclose).read line more
        simp only [List.cons_append, List.append_assoc, List.nil_append, List.cons.injEq] at heq
        obtain ⟨rfl, rfl⟩ := heq
        exact .inl ⟨_, hr⟩
      · exact .inr ⟨keyword, by simp [read, hopen, hk]⟩

/-- Tokens of a good shape are not cut short: what stops their cutting is told of. -/
theorem split_told {ls : List Spelling} (h : Shape ls) {ts : List Token}
    (hts : ts.map Token.spelling = ls) (line : Nat) :
    ∀ e ∈ (split line ts).2, ParseError.Told e := by
  induction h generalizing ts with
  | nil =>
    obtain rfl := List.map_eq_nil_iff.1 hts
    simp [split]
  | text hm ih =>
    obtain ⟨t, rest, rfl, ht, hrest⟩ := List.map_eq_cons_iff.1 hts
    have hread : read line t rest = .ok (.text t.value, rest) := by
      simp [read, (Prod.mk.inj ht).1]
    rw [split_ok hread]
    exact ih hrest
  | @tag p inside more hp hi hn hm ih =>
    obtain ⟨opening, rest, rfl, ho, hrest⟩ := List.map_eq_cons_iff.1 hts
    obtain ⟨is, rest, rfl, his, hrest⟩ := List.map_eq_append_iff.1 hrest
    obtain ⟨close, rest, rfl, hc, hrest⟩ := List.map_eq_cons_iff.1 hrest
    have hkinds : ∀ t ∈ is, t.kind ∈ innerKinds := by
      intro t ht
      exact hi t.spelling (his ▸ List.mem_map_of_mem ht)
    obtain ⟨s, hr⟩ | ⟨t, hr⟩ := read_tag hp ho hc hkinds line rest
    · rw [split_ok hr]
      exact ih hrest
    · rw [split_error hr]
      rintro e ⟨⟩
      exact ParseError.told_unexpected t

end Segment

namespace Draft

theorem finish_told (d : Draft) (line : Nat) : FailsAs ParseError.Told (d.finish line) := by
  unfold finish
  split
  · exact .ok _
  · exact .error (by simp [ParseError.Told])

end Draft

/-- A tree of tokens of a good shape is not refused because the template ends, unless a tag that is
still open is told of. -/
theorem Shaped.parse_told {tokens : List Token} (h : Shaped tokens) :
    FailsAs ParseError.Told (Tree.parse (TokenStream.ofTokens tokens)) := by
  obtain ⟨inner, last, rfl, hl, hshape⟩ := h
  have hu : (TokenStream.ofTokens (inner ++ [last])).unread = inner :=
    unread_ofTokens (fun t ht => hshape.ne_eof t.spelling (List.mem_map_of_mem ht)) hl
  unfold Tree.parse Tree.ofSegments
  rw [hu]
  refine .bind (Draft.addAll_told _ _) fun d => ?_
  have htold := Segment.split_told hshape rfl
  split
  · rename_i e he
    exact .error (htold _ e he)
  · exact d.finish_told _

/-- The tokens of a template have a good shape, and tokens of a good shape are never cut short. -/
theorem tokenize_shaped : (∀ text tokens, tokenize text = .ok tokens → Shaped tokens) ∧
    ∀ tokens, Shaped tokens →
      FailsAs ParseError.Told (Tree.parse (TokenStream.ofTokens tokens)) := by
  refine ⟨fun text tokens h => ?_, fun tokens h => h.parse_told⟩
  obtain ⟨pieces, hc, rfl⟩ := tokenize_ok h
  refine ⟨_, _, rfl, rfl, ?_⟩
  rw [Piece.spelling_ofPieces]
  exact (cutInto_of_cut hc).layout.shape

def openText : String := "a\x7b\x7b f(\x7b\x7b1: [x % 2]\x7d\x7d) \x7d\x7d\x7b% if '%\x7d' %\x7d"

def openTokens : List Token :=
  [⟨.text, "a", 0, 1⟩, ⟨.valueStart, "\x7b\x7b", 1, 1⟩, ⟨.name, "f", 4, 1⟩,
    ⟨.punctuation, "(", 5, 1⟩, ⟨.punctuation, "\x7b", 6, 1⟩, ⟨.punctuation, "\x7b", 7, 1⟩,
    ⟨.number, "1", 8, 1⟩, ⟨.punctuation, ":", 9, 1⟩, ⟨.punctuation, "[", 11, 1⟩,
    ⟨.name, "x", 12, 1⟩, ⟨.operator, "%", 14, 1⟩, ⟨.number, "2", 16, 1⟩,
    ⟨.punctuation, "]", 17, 1⟩, ⟨.punctuation, "\x7d", 18, 1⟩, ⟨.punctuation, "\x7d", 19, 1⟩,
    ⟨.punctuation, ")", 20, 1⟩, ⟨.valueEnd, "\x7d\x7d", 22, 1⟩, ⟨.blockStart, "\x7b%", 24, 1⟩,
    ⟨.name, "if", 27, 1⟩, ⟨.string, "'%\x7d'", 30, 1⟩, ⟨.blockEnd, "%\x7d", 35, 1⟩,
    ⟨.eof, "", 37, 1⟩]

theorem openText_shaped : tokenize openText = .ok openTokens ∧ Shaped openTokens ∧
    FailsAs ParseError.Told (Tree.parse (TokenStream.ofTokens openTokens)) :=
  have h : tokenize openText = .ok openTokens := by decide +kernel
  have hs : Shaped openTokens := tokenize_shaped.1 openText openTokens h
  ⟨h, hs, tokenize_shaped.2 openTokens hs⟩

end Stencil
