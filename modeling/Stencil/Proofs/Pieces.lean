import Stencil.Proofs.Lexeme
import Stencil.Token.Template
set_option autoImplicit false

namespace Stencil

namespace Piece

def Lexical : Piece → Prop
  | token .name s => Lexeme.Name s
  | token .number s => Lexeme.Numeral s
  | token .string s => Lexeme.Quotation s
  | token .text s => s ≠ []
  | token .eof _ => False
  | token .blockStart _ | token .blockEnd _ | token .valueStart _ | token .valueEnd _
  | token .operator _ | token .punctuation _ | gap _ => True

theorem lexical_gap (s : List Char) : Lexical (gap s) := trivial

theorem lexical_of_form {kind : Token.Kind} {s : List Char} (h : Lexeme.Form kind s) :
    Lexical (token kind s) := by
  cases kind <;> first | exact h | exact trivial | exact h.elim

theorem literal_lexical (s : List Char) : ∀ p ∈ literal s, p.Lexical := by
  cases s <;> simp [literal, Lexical]

theorem leading_lexical (run : List Char) : ∀ p ∈ leading run, p.Lexical := by
  intro p hp
  unfold leading at hp
  split at hp
  · cases List.mem_append.1 hp with
    | inl hp => exact literal_lexical _ p hp
    | inr hp => rw [List.mem_singleton.1 hp]; trivial
  · exact literal_lexical _ p hp

end Piece

theorem Round.read_lexical {close : Option Closer} {origin : List Char} {opened : List OpenBracket}
    {input : List Char} {r : Round} (hc : ∀ c ∈ close, c.kind = .valueEnd ∨ c.kind = .blockEnd)
    (h : read close origin opened input = .ok r) : ∀ p ∈ r.pieces, p.Lexical := by
  unfold read at h
  dsimp only at h
  split at h
  · cases close with
    | some c => simp [atEnd] at h
    | none =>
      obtain ⟨_, _, rfl⟩ := map_eq_ok h
      simp [pieces, Piece.lexical_gap]
  · split at h
    · rename_i closer hf
      obtain ⟨_, _, rfl⟩ := map_eq_ok h
      have hk := hc closer (Option.filter_eq_some_iff.1 hf).1
      rcases hk with hk | hk <;> simp [pieces, Piece.Lexical, hk]
    · unfold atLexeme at h
      split at h
      · simp at h
      · rename_i kind text after hl
        obtain ⟨_, _, rfl⟩ := map_eq_ok h
        have hp := Piece.lexical_of_form (Lexeme.form_of_lexeme? hl)
        simp [pieces, hp, Piece.lexical_gap]

theorem interior_lexical {close : Option Closer} {origin : List Char} {opened : List OpenBracket}
    {input left : List Char} {pieces : List Piece}
    (hc : ∀ c ∈ close, c.kind = .valueEnd ∨ c.kind = .blockEnd)
    (h : interior close origin opened input = .ok (pieces, left)) : ∀ p ∈ pieces, p.Lexical := by
  fun_induction interior close origin opened input generalizing pieces left with
  | case1 => simp at h
  | case2 opened input ps l hr =>
    simp only [Except.ok.injEq, Prod.mk.injEq] at h
    obtain ⟨rfl, rfl⟩ := h
    exact Round.read_lexical hc hr
  | case3 => simp at h
  | case4 opened input ps inner after hr others l hi ih =>
    simp only [Except.ok.injEq, Prod.mk.injEq] at h
    obtain ⟨rfl, rfl⟩ := h
    have hp : ∀ p ∈ ps, p.Lexical := Round.read_lexical hc hr
    intro p hm
    cases List.mem_append.1 hm with
    | inl hm => exact hp p hm
    | inr hm => exact ih hi p hm

namespace Tag

inductive Reads : Tag → List Char → Bool → List Piece → List Char → Prop where
  | escaped {tag : Tag} {body before closing after : List Char}
      (hs : seek (exactly tag.closing) body = some (before, closing, after)) :
      Reads tag body true [.token .text (tag.opening ++ before ++ closing)] after
  | comment {body before closing after : List Char}
      (hs : seek (exactly comment.closing) body = some (before, closing, after)) :
      Reads comment body false [.gap (comment.opening ++ before ++ closing)] after
  | value {body after : List Char} {pieces : List Piece}
      (hi : interior (some .value) (value.opening ++ body) [] body = .ok (pieces, after)) :
      Reads value body false (.token .valueStart value.opening :: pieces) after
  | verbatim {body word content inside closing after : List Char}
      (hw : loneWord verbatim body = some (word, content))
      (hs : seek endVerbatimTag content = some (inside, closing, after)) :
      Reads block body false
        (.gap (block.opening ++ word) :: Piece.literal inside ++ [.gap closing]) after
  | block {body after : List Char} {pieces : List Piece} (hw : loneWord verbatim body = none)
      (hi : interior (some .block) (block.opening ++ body) [] body = .ok (pieces, after)) :
      Reads block body false (.token .blockStart block.opening :: pieces) after

variable {tag : Tag} {escaped : Bool} {body after : List Char} {pieces : List Piece}

theorem reads_of_read (h : tag.read escaped body = .ok (pieces, after)) :
    tag.Reads body escaped pieces after := by
  cases escaped with
  | true =>
    simp only [read, readEscaped, if_true] at h
    split at h
    · simp at h
    · rename_i hs
      simp only [Except.ok.injEq, Prod.mk.injEq] at h
      obtain ⟨rfl, rfl⟩ := h
      exact .escaped hs
  | false =>
    simp only [read, Bool.false_eq_true, if_false] at h
    cases tag with
    | value =>
      simp only [readValue] at h
      split at h
      · simp at h
      · rename_i hi
        simp only [Except.ok.injEq, Prod.mk.injEq] at h
        obtain ⟨rfl, rfl⟩ := h
        exact .value hi
    | comment =>
      simp only [readComment] at h
      split at h
      · simp at h
      · rename_i hs
        simp only [Except.ok.injEq, Prod.mk.injEq] at h
        obtain ⟨rfl, rfl⟩ := h
        exact .comment hs
    | block =>
      simp only [readBlock] at h
      split at h
      · rename_i hw
        split at h
        · simp at h
        · rename_i hs
          simp only [Except.ok.injEq, Prod.mk.injEq] at h
          obtain ⟨rfl, rfl⟩ := h
          exact .verbatim hw hs
      · rename_i hw
        split at h
        · simp at h
        · rename_i hi
          simp only [Except.ok.injEq, Prod.mk.injEq] at h
          obtain ⟨rfl, rfl⟩ := h
          exact .block hw hi

theorem Reads.read (h : tag.Reads body escaped pieces after) :
    tag.read escaped body = .ok (pieces, after) := by
  cases h with
  | escaped hs => simp [Tag.read, readEscaped, hs]
  | comment hs => simp [Tag.read, readComment, hs]
  | value hi => simp [Tag.read, readValue, hi]
  | verbatim hw hs => simp [Tag.read, readBlock, hw, hs]
  | block hw hi => simp [Tag.read, readBlock, hw, hi]

theorem Reads.lexical (h : tag.Reads body escaped pieces after) : ∀ p ∈ pieces, p.Lexical := by
  cases h with
  | escaped => cases tag <;> simp [Piece.Lexical, opening]
  | comment => simp [Piece.lexical_gap]
  | value hi =>
    have hp := interior_lexical (by simp [Closer.value]) hi
    exact List.forall_mem_cons.2 ⟨trivial, hp⟩
  | @verbatim _ _ _ inside =>
    have hp := Piece.literal_lexical inside
    intro p hm
    simp only [List.cons_append, List.mem_cons, List.mem_append, List.not_mem_nil, or_false] at hm
    rcases hm with rfl | hm | rfl
    · trivial
    · exact hp p hm
    · trivial
  | block _ hi =>
    have hp := interior_lexical (by simp [Closer.block]) hi
    exact List.forall_mem_cons.2 ⟨trivial, hp⟩

end Tag

theorem cut_eq (input : List Char) : cut input = match Tag.open? (Tag.split input).2 with
    | none => .ok (Piece.literal (Tag.split input).1)
    | some (tag, body) => match tag.read (escapes (Tag.split input).1) body with
      | .error fault => .error fault
      | .ok (pieces, after) =>
        (cut after).map fun others => Piece.leading (Tag.split input).1 ++ pieces ++ others := by
  rw [cut]
  split
  · rename_i h
    simp [h]
  · rename_i tag body h
    simp only [h]
    split
    · rename_i hr
      simp [hr]
    · rename_i pieces after hr
      simp only [hr]
      cases cut after <;> rfl

/-- How a template is cut: the last text, or a text, a tag, and all that follows the tag. -/
inductive CutInto : List Char → List Piece → Prop where
  | text {input : List Char} (hs : (Tag.split input).2 = []) :
      CutInto input (Piece.literal input)
  | tag {input body after : List Char} {tag : Tag} {pieces others : List Piece}
      (ho : Tag.open? (Tag.split input).2 = some (tag, body))
      (hr : tag.Reads body (escapes (Tag.split input).1) pieces after)
      (hm : CutInto after others) :
      CutInto input (Piece.leading (Tag.split input).1 ++ pieces ++ others)

theorem cutInto_of_cut {input : List Char} {pieces : List Piece} (h : cut input = .ok pieces) :
    CutInto input pieces := by
  fun_induction cut input generalizing pieces with
  | case1 input ht =>
    have hs := Tag.split_open? input ht
    have hrun := Tag.split_append input
    rw [hs, List.append_nil] at hrun
    simp only [hrun, Except.ok.injEq] at h
    subst h
    exact .text hs
  | case2 => simp at h
  | case3 => simp at h
  | case4 input tag body ht ps after hr others ho ih =>
    simp only [Except.ok.injEq] at h
    subst h
    exact .tag ht (Tag.reads_of_read hr) (ih ho)

theorem CutInto.cut {input : List Char} {pieces : List Piece} (h : CutInto input pieces) :
    cut input = .ok pieces := by
  induction h with
  | @text input hs =>
    have hrun := Tag.split_append input
    rw [hs, List.append_nil] at hrun
    rw [cut_eq, hs, hrun]
    rfl
  | tag ho hr _ ih =>
    rw [cut_eq, ho]
    simp only [hr.read, ih, Except.map]

theorem CutInto.lexical {input : List Char} {pieces : List Piece} (h : CutInto input pieces) :
    ∀ p ∈ pieces, p.Lexical := by
  induction h with
  | text => exact Piece.literal_lexical _
  | @tag input _ _ _ _ _ _ hr _ ih =>
    have hrun := Piece.leading_lexical (Tag.split input).1
    exact List.forall_mem_append.2 ⟨List.forall_mem_append.2 ⟨hrun, hr.lexical⟩, ih⟩

theorem tokenize_ok {text : String} {tokens : List Token} (h : tokenize text = .ok tokens) :
    ∃ pieces, cut (Text.normalize text.toList) = .ok pieces ∧
      tokens = Token.ofPieces 0 1 pieces ++ [⟨.eof, "", Text.size (Text.normalize text.toList),
        1 + (Text.normalize text.toList).count '\n'⟩] := by
  unfold tokenize at h
  dsimp only at h
  split at h
  · simp at h
  · rename_i pieces hc
    simp only [Except.ok.injEq] at h
    exact ⟨pieces, hc, h.symm⟩

theorem Token.mem_ofPieces {pieces : List Piece} {offset line : Nat} {t : Token}
    (h : t ∈ ofPieces offset line pieces) :
    ∃ s, t.value = String.ofList s ∧ Piece.token t.kind s ∈ pieces := by
  induction pieces generalizing offset line with
  | nil => simp [ofPieces] at h
  | cons p more ih =>
    cases p with
    | gap text =>
      obtain ⟨s, hv, hm⟩ := ih h
      exact ⟨s, hv, by simp [hm]⟩
    | token kind text =>
      cases h with
      | head => exact ⟨text, rfl, by simp⟩
      | tail _ h =>
        obtain ⟨s, hv, hm⟩ := ih h
        exact ⟨s, hv, by simp [hm]⟩

theorem Piece.subset_cover {pieces : List Piece} {p : Piece} (h : p ∈ pieces) :
    p.text ⊆ cover pieces := by
  intro c hc
  exact List.mem_flatMap.2 ⟨p, h, hc⟩

theorem kind_ne_eof {input : List Char} {pieces : List Piece} (h : cut input = .ok pieces)
    {offset line : Nat} {t : Token} (ht : t ∈ Token.ofPieces offset line pieces) :
    t.kind ≠ .eof := by
  obtain ⟨s, _, hm⟩ := Token.mem_ofPieces ht
  intro hk
  rw [hk] at hm
  exact (cutInto_of_cut h).lexical _ hm

end Stencil
