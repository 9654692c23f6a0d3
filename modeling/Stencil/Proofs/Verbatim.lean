import Stencil.Proofs.Cutting
import Stencil.Proofs.LineEnds
import Stencil.Proofs.Spans
set_option autoImplicit false

namespace Stencil

/-- A template behind a text that is cut off by itself. -/
theorem tokenize_behind {p : List Char} {pieces : List Piece} (hp : '\r' ∉ p)
    (hcut : ∀ tail, cut (p ++ tail) = (cut tail).map (pieces ++ ·)) {r : String}
    {tokens : List Token} (h : tokenize r = .ok tokens) :
    tokenize (String.ofList p ++ r)
      = .ok (Token.ofPieces 0 1 pieces ++
        tokens.map (Token.moved (Text.size p) (p.count '\n'))) := by
  obtain ⟨others, hr, rfl⟩ := tokenize_ok h
  have hcover : Piece.cover pieces = p := by
    have hnil : cut [] = .ok [] := (CutInto.text rfl).cut
    have hone := hcut []
    rw [hnil, List.append_nil] at hone
    simpa using cut_cover hone
  have hinput : Text.normalize (String.ofList p ++ r).toList = p ++ Text.normalize r.toList := by
    rw [String.toList_append, String.toList_ofList,
      Text.normalize_append fun hm => hp (List.mem_of_mem_getLast? hm),
      Text.normalize_of_not_mem hp]
  have hboth : cut (p ++ Text.normalize r.toList) = .ok (pieces ++ others) := by
    rw [hcut, hr]
    rfl
  have hline : 1 + p.count '\n' = p.count '\n' + 1 := Nat.add_comm _ _
  have hplace := Token.ofPieces_moved (Text.size p) (p.count '\n') 0 1 others
  simp only [tokenize, hinput, hboth, Token.ofPieces_append, hcover, Nat.zero_add, hline,
    List.map_append, ← hplace]
  simp [Token.moved, Text.size_append, Nat.add_left_comm]

theorem Statement.writeVerbatim_no_return {s : List Char} (h : '\r' ∉ s) :
    '\r' ∉ writeVerbatim s := by
  have hopen : '\r' ∉ blockTag verbatim := by decide
  have hclose : '\r' ∉ blockTag endVerbatim := by decide
  simp [writeVerbatim, hopen, hclose, guardTags_no_return h]

theorem join_of_spelling {texts : List (List Char)} {ts : List Token}
    (h : ts.map Token.spelling = texts.map fun t => (Token.Kind.text, t)) :
    (∀ t ∈ ts, t.kind = .text) ∧ String.join (ts.map (·.value)) = String.ofList texts.flatten := by
  induction texts generalizing ts with
  | nil =>
    obtain rfl := List.map_eq_nil_iff.1 h
    exact ⟨by simp, rfl⟩
  | cons s texts ih =>
    obtain ⟨t, rest, rfl, ht, hrest⟩ := List.map_eq_cons_iff.1 h
    obtain ⟨hkind, hvalue⟩ := Prod.mk.inj ht
    obtain ⟨hkinds, hjoin⟩ := ih hrest
    refine ⟨List.forall_mem_cons.2 ⟨hkind, hkinds⟩, ?_⟩
    rw [List.map_cons, String.join_cons, hjoin, List.flatten_cons, String.ofList_append, ← hvalue,
      String.ofList_toList]

/-- Text in verbatim blocks is read as text tokens that make it up, and what follows the blocks is
read as if it stood alone. -/
theorem tokenize_writeVerbatim {s r : String} {tokens : List Token} (hs : s ≠ "")
    (hn : '\r' ∉ s.toList) (h : tokenize r = .ok tokens) :
    ∃ texts : List Token, texts ≠ [] ∧ (∀ t ∈ texts, t.kind = .text) ∧
      String.join (texts.map (·.value)) = s ∧
      tokenize (String.ofList (Statement.writeVerbatim s.toList) ++ r)
        = .ok (texts ++ tokens.map (Token.moved (Text.size (Statement.writeVerbatim s.toList))
          ((Statement.writeVerbatim s.toList).count '\n'))) := by
  obtain ⟨texts, pieces, hflat, hspell, hcut⟩ := Statement.cut_writeVerbatim s.toList
  have hts := (Piece.spelling_ofPieces pieces 0 1).trans hspell
  obtain ⟨hkinds, hjoin⟩ := join_of_spelling hts
  rw [hflat, String.ofList_toList] at hjoin
  refine ⟨Token.ofPieces 0 1 pieces, ?_, hkinds, hjoin,
    tokenize_behind (Statement.writeVerbatim_no_return hn) hcut h⟩
  intro hnil
  rw [hnil] at hjoin
  exact hs hjoin.symm

def guardedText : String := "\x7b\x7b%\x7b% endverbatim %\x7d\n@\x7b"

/-- A template whose text goes on where a brace before it would open a tag. -/
def guardedRest : String := "% endverbatim %\x7d\n\x7b# #\x7d\x7b\x7b x \x7d\x7d"

def guardedTokens : List Token :=
  [⟨.text, "% endverbatim %\x7d\n", 0, 1⟩, ⟨.valueStart, "\x7b\x7b", 22, 2⟩, ⟨.name, "x", 25, 2⟩,
    ⟨.valueEnd, "\x7d\x7d", 27, 2⟩, ⟨.eof, "", 29, 2⟩]

theorem tokenize_guardedText : tokenize guardedRest = .ok guardedTokens ∧
    ∃ texts : List Token, texts ≠ [] ∧ (∀ t ∈ texts, t.kind = .text) ∧
      String.join (texts.map (·.value)) = guardedText ∧
      tokenize (String.ofList (Statement.writeVerbatim guardedText.toList) ++ guardedRest)
        = .ok (texts ++ guardedTokens.map
          (Token.moved (Text.size (Statement.writeVerbatim guardedText.toList))
            ((Statement.writeVerbatim guardedText.toList).count '\n'))) :=
  have h : tokenize guardedRest = .ok guardedTokens := by decide +kernel
  ⟨h, tokenize_writeVerbatim (by decide) (by decide) h⟩

-- a brace at the end of the text and a percent sign behind it are not one tag
example : tokenize (String.ofList (Statement.writeVerbatim ['{']) ++ "% x %\x7d") = .ok
    [⟨.text, "\x7b", 14, 1⟩, ⟨.text, "% x %\x7d", 32, 1⟩, ⟨.eof, "", 38, 1⟩] := by decide +kernel

end Stencil
