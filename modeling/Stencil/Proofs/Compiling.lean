import Stencil.Diagnostic
import Stencil.Proofs.Pieces
import Stencil.Proofs.Statement.Item
set_option autoImplicit false

namespace Stencil

theorem unread_ofTokens {ts : List Token} {last : Token} (hts : ∀ t ∈ ts, t.kind ≠ .eof)
    (hl : last.kind = .eof) : (TokenStream.ofTokens (ts ++ [last])).unread = ts := by
  have hc : TokenStream.closeTokens (ts ++ [last]) = ts ++ [last] := by
    simp [TokenStream.closeTokens, hl]
  have hall : (ts ++ [last]).takeWhile (·.kind != .eof) = ts := by
    rw [List.takeWhile_append_of_pos (by simpa using hts)]
    simp [hl]
  simp [TokenStream.unread, TokenStream.ofTokens, hc, hall]

theorem Source.compile_eq_ok_iff {s : Source} {radius : Nat} {t : Tree} :
    s.compile radius = .ok t ↔ ∃ pieces items body,
      cut (Text.normalize s.text.toList) = .ok pieces ∧
      Spells (Token.ofPieces 0 1 pieces) items ∧
      t.statements = body.reverse ∧ Draft.empty.Steps items ⟨[], body, t.extend⟩ := by
  cases hc : cut (Text.normalize s.text.toList) with
  | error f => simp [compile, parse, tokenize, hc, mapError_error]
  | ok pieces =>
    have hu : ∀ last : Token, last.kind = .eof →
        (TokenStream.ofTokens (Token.ofPieces 0 1 pieces ++ [last])).unread
          = Token.ofPieces 0 1 pieces :=
      fun last hl => unread_ofTokens (fun _ ht => kind_ne_eof hc ht) hl
    have hp : s.compile radius = .ok t ↔ Tree.parse (TokenStream.ofTokens
        (Token.ofPieces 0 1 pieces ++ [⟨.eof, "", Text.size (Text.normalize s.text.toList),
          1 + (Text.normalize s.text.toList).count '\n'⟩])) = .ok t := by
      simp only [compile, parse, tokenize, hc]
      generalize Tree.parse _ = r
      cases r <;> simp [mapError_ok, mapError_error]
    rw [hp, Tree.parse_eq_ok_iff, hu _ rfl]
    simp

end Stencil
