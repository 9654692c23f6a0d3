import Mathlib.Data.List.Nodup
import Stencil.Diagnostic
import Stencil.Proofs.Faults
import Stencil.Proofs.Spans
import Stencil.Proofs.Statement.Errors
import Stencil.Proofs.Statement.Item
import Stencil.Proofs.Statement.Normal
set_option autoImplicit false

namespace Stencil

variable {L : Token → Prop}

theorem Segment.Covers.tokens_subset {s : Segment} {ts : List Token} (h : s.Covers ts) :
    s.tokens ⊆ ts := by
  cases h with
  | text => simp [tokens]
  | value | block => simp [tokens]

theorem Segment.read_at {last : Token} (hl : L last) {t : Token} {rest : List Token}
    (ht : ∀ u ∈ t :: rest, L u) : Ensures (ParseError.At L)
      (fun r => (∀ u ∈ r.1.tokens, L u) ∧ ∀ u ∈ r.2, L u) (read last.line t rest) := by
  have hend : ParseError.At L ⟨.endOfTemplate none, last.line⟩ := ⟨⟨last, hl, rfl⟩, by simp⟩
  refine ⟨?_, ?_⟩
  · obtain ⟨hfirst, hrest⟩ := List.forall_mem_cons.1 ht
    unfold read
    dsimp only
    split
    · exact .ok _
    · split
      · exact .error hend
      · exact .ok _
    · split
      · exact .error hend
      · split
        · exact .error (ParseError.unexpected_toldAt (hrest _ (by simp))).toAt
        · split
          · exact .error hend
          · exact .ok _
    · exact .error (ParseError.unexpected_toldAt hfirst).toAt
  · rintro ⟨s, after⟩ hr
    obtain ⟨ts, heq, hc⟩ := covers_of_read hr
    rw [← heq] at ht
    obtain ⟨hts, hafter⟩ := List.forall_mem_append.1 ht
    exact ⟨fun u hu => hts u (hc.tokens_subset hu), hafter⟩

theorem Segment.split_at {last : Token} (hl : L last) {ts : List Token} (ht : ∀ t ∈ ts, L t) :
    (∀ s ∈ (split last.line ts).1, ∀ t ∈ s.tokens, L t) ∧
      ∀ e ∈ (split last.line ts).2, e.At L := by
  fun_induction split last.line ts with
  | case1 => simp
  | case2 t rest e hr =>
    have herror : e.At L := (read_at hl ht).fails e hr
    simpa using herror
  | case3 t rest s after hr more ih =>
    obtain ⟨hs, hafter⟩ := (read_at hl ht).gives _ hr
    obtain ⟨hsegments, herror⟩ := ih hafter
    exact ⟨List.forall_mem_cons.2 ⟨hs, hsegments⟩, herror⟩

namespace TokenStream

theorem current_mem (s : TokenStream) : s.current ∈ s.tokens := List.get_mem _ _

theorem unread_subset (s : TokenStream) : s.unread ⊆ s.tokens := fun _ ht =>
  List.mem_of_mem_drop (List.takeWhile_subset _ ht)

theorem exists_endLine (s : TokenStream) : ∃ t ∈ s.tokens, s.endLine = t.line := by
  unfold endLine
  cases hf : (s.tokens.drop s.cursor).find? (·.kind == .eof) with
  | none => exact ⟨_, s.current_mem, rfl⟩
  | some t => exact ⟨t, List.mem_of_mem_drop (List.mem_of_find?_eq_some hf), rfl⟩

end TokenStream

/-- An error of the reader of statements is found at one of the tokens. -/
theorem Tree.parse_at {s : TokenStream} (ht : ∀ t ∈ s.tokens, L t) :
    FailsAs (ParseError.At L) (Tree.parse s) := by
  obtain ⟨last, hm, hend⟩ := s.exists_endLine
  have hlast := ht last hm
  obtain ⟨hsegments, herror⟩ := Segment.split_at hlast fun t hm => ht t (s.unread_subset hm)
  unfold Tree.parse Tree.ofSegments
  rw [hend]
  refine .bind (fun e he => (Draft.addAll_toldAt hsegments _ e he).toAt) fun d => ?_
  split
  · rename_i e he
    exact .error (herror e he)
  · unfold Draft.finish
    split
    · exact .ok _
    · exact .error ⟨⟨last, hlast, rfl⟩, by simp⟩

theorem Tree.parse_ne_panic {s : TokenStream} (h : Token.Legible s.tokens) :
    FailsAs (·.cause ≠ .panic) (Tree.parse s) := by
  intro e he hp
  obtain ⟨t, ht, hu⟩ := (parse_at h e he).panic hp
  simp [hu] at ht

namespace Source

def lines (s : Source) : List (List Char) := Text.lines (Text.normalize s.text.toList)

/-- The tokens of a text stand at places of it, and their strings have content. -/
theorem tokens_of_tokenize {text : String} {tokens : List Token} (h : tokenize text = .ok tokens) :
    (TokenStream.ofTokens tokens).tokens = tokens ∧ Token.Legible tokens ∧
      ∀ t ∈ tokens, Text.LineOf (Text.normalize text.toList) t.line := by
  obtain ⟨pieces, hcut, rfl⟩ := tokenize_ok h
  refine ⟨by simp [TokenStream.ofTokens, TokenStream.closeTokens], ?_, fun t hm => ?_⟩
  · have hlexical := @lexical_of_cut _ _ hcut (Text.not_mem_normalize _) 0 1
    exact List.forall_mem_append.2 ⟨fun t ht => (hlexical t ht).content, by simp [Token.unquote]⟩
  · have hspans := (cutInto_of_cut hcut).layout.spans (cut_cover hcut)
    obtain ⟨before, after, htext, -, hline⟩ := hspans.stands t hm
    exact ⟨before, t.value.toList ++ after, by rw [htext, List.append_assoc], hline⟩

theorem parse_on (s : Source) :
    FailsAs (fun e => Text.LineOf (Text.normalize s.text.toList) e.line) s.parse := by
  unfold parse
  split
  · rename_i e he
    exact .error (tokenize_on s.text e he)
  · rename_i tokens ht
    obtain ⟨htokens, -, hlines⟩ := tokens_of_tokenize ht
    rw [← htokens] at hlines
    refine (Tree.parse_at hlines).mapError fun e he => ?_
    obtain ⟨t, hline, heq⟩ := he.line
    rw [heq] at hline
    exact hline

/-- Compiling a source never makes the program panic. -/
theorem compile_ne_panic {s : Source} {radius : Nat} {d : Diagnostic}
    (h : s.compile radius = .error d) (line : Nat) : d.error ≠ .parse ⟨.panic, line⟩ := by
  have hpanic : FailsAs (fun e => ∀ line, e ≠ CompileError.parse ⟨.panic, line⟩) s.parse := by
    unfold parse
    split
    · exact .error (by simp)
    · rename_i tokens ht
      obtain ⟨htokens, hlegible, -⟩ := tokens_of_tokenize ht
      rw [← htokens] at hlegible
      refine (Tree.parse_ne_panic hlegible).mapError fun e he line heq => he ?_
      rw [CompileError.parse.inj heq]
  have hcompile : FailsAs (fun d => ∀ line, d.error ≠ .parse ⟨.panic, line⟩) (s.compile radius) :=
    hpanic.mapError fun _ he => he
  exact hcompile d h line

end Source

def numbersFrom (first last : Nat) : List Nat := List.range' first (last + 1 - first)

theorem numbersFrom_succ {first last : Nat} (h : first ≤ last + 1) :
    numbersFrom first (last + 1) = numbersFrom first last ++ [last + 1] := by
  have hcount : last + 1 + 1 - first = last + 1 - first + 1 := by omega
  have hlast : first + (last + 1 - first) = last + 1 := by omega
  rw [numbersFrom, hcount, List.range'_1_concat, hlast, numbersFrom]

theorem numbersFrom_eq_nil {first last : Nat} (h : last < first) : numbersFrom first last = [] := by
  have hcount : last + 1 - first = 0 := by omega
  rw [numbersFrom, hcount, List.range'_zero]

theorem filter_numbers (count first last : Nat) :
    (List.range' 1 count).filter (fun n => first ≤ n && n ≤ last)
      = numbersFrom (max 1 first) (min count last) := by
  induction count with
  | zero =>
    rw [Nat.zero_min, numbersFrom_eq_nil (by omega)]
    rfl
  | succ count ih =>
    rw [List.range'_1_concat, List.filter_append, ih, Nat.add_comm 1 count]
    by_cases hlast : last ≤ count
    · have hout : [count + 1].filter (fun n => first ≤ n && n ≤ last) = [] := by
        simp
        omega
      rw [Nat.min_eq_right hlast, Nat.min_eq_right (by omega), hout, List.append_nil]
    · rw [Nat.min_eq_left (by omega : count ≤ last), Nat.min_eq_left (by omega : count + 1 ≤ last)]
      by_cases hfirst : first ≤ count + 1
      · have hin : first ≤ count + 1 ∧ count + 1 ≤ last := by omega
        rw [numbersFrom_succ (by omega)]
        simp [hin]
      · have hout : [count + 1].filter (fun n => first ≤ n && n ≤ last) = [] := by
          simp
          omega
        rw [numbersFrom_eq_nil (by omega), numbersFrom_eq_nil (by omega), hout, List.append_nil]

theorem filter_numbersFrom {first last n : Nat} (hf : first ≤ n) (hl : n ≤ last) :
    (numbersFrom first last).filter (· == n) = [n] := by
  have hmem : n ∈ numbersFrom first last := List.mem_range'_1.2 (by omega)
  have hnodup : (numbersFrom first last).Nodup := List.nodup_range'
  rw [List.filter_beq, List.count_eq_one_of_mem hnodup hmem]
  rfl

namespace Source

variable (s : Source) (line radius : Nat)

theorem numbers_context : (s.context line radius).map (·.number)
    = numbersFrom (max 1 (line - radius)) (min s.lines.length (line + radius)) := by
  have hnumbers : (s.lines.zipIdx 1).map Prod.snd = List.range' 1 s.lines.length :=
    List.zipIdx_map_snd 1 s.lines
  rw [← filter_numbers, ← hnumbers, List.filter_map, context, List.map_map]
  rfl

theorem text_context {l : ContextLine} (h : l ∈ s.context line radius) :
    s.lines[l.number - 1]? = some l.text.toList := by
  obtain ⟨⟨text, number⟩, hm, rfl⟩ := List.mem_map.1 h
  have hm := (List.mem_filter.1 hm).1
  rw [String.toList_ofList]
  exact (List.mk_mem_zipIdx_iff_le_and_getElem?_sub.1 hm).2

theorem flagged_of_mem_context {l : ContextLine} (h : l ∈ s.context line radius) :
    l.flagged = (l.number == line) := by
  obtain ⟨⟨text, number⟩, -, rfl⟩ := List.mem_map.1 h
  rfl

theorem flagged_context (h : 1 ≤ line ∧ line ≤ s.lines.length) :
    ((s.context line radius).filter (·.flagged)).map (·.number) = [line] := by
  have hflags : (s.context line radius).filter (·.flagged)
      = (s.context line radius).filter ((· == line) ∘ (·.number)) :=
    List.filter_congr fun l hl => s.flagged_of_mem_context line radius hl
  rw [hflags, ← List.filter_map, numbers_context]
  exact filter_numbersFrom (by omega) (by omega)

end Source

/-- A diagnostic of a source: it names the source and one of its lines, and shows the lines around
that line, which alone is flagged. -/
structure Diagnostic.PointsInto (d : Diagnostic) (s : Source) (radius : Nat) : Prop where
  identity : d.identity = s.identity
  one_le_line : 1 ≤ d.line
  line_le : d.line ≤ s.lines.length
  numbers : d.context.map (·.number)
    = numbersFrom (max 1 (d.line - radius)) (min s.lines.length (d.line + radius))
  texts : ∀ l ∈ d.context, s.lines[l.number - 1]? = some l.text.toList
  flagged : (d.context.filter (·.flagged)).map (·.number) = [d.line]

/-- Whatever is wrong with a source, its diagnostic points into it. -/
theorem Source.pointsInto_of_compile {s : Source} {radius : Nat} {d : Diagnostic}
    (h : s.compile radius = .error d) : d.PointsInto s radius := by
  have hpoints : FailsAs (·.PointsInto s radius) (s.compile radius) := by
    refine s.parse_on.mapError fun e he => ?_
    obtain ⟨hfirst, hlast⟩ := he.bounds
    exact ⟨rfl, hfirst, hlast, s.numbers_context e.line radius,
      fun _ hl => s.text_context e.line radius hl, s.flagged_context e.line radius ⟨hfirst, hlast⟩⟩
  exact hpoints d h

def brokenSource : Source := Source.named "page" "a\r\nb\r\x7b\x7b x + \x7d\x7d\n"

def brokenDiagnostic : Diagnostic where
  identity := "page"
  error := .parse ⟨.missingOperand, 3⟩
  context := [⟨1, "a", false⟩, ⟨2, "b", false⟩, ⟨3, "\x7b\x7b x + \x7d\x7d", true⟩, ⟨4, "", false⟩]

theorem pointsInto_brokenSource :
    brokenSource.compile 0xffffffffffffffff = .error brokenDiagnostic ∧
      brokenDiagnostic.PointsInto brokenSource 0xffffffffffffffff :=
  have h : brokenSource.compile 0xffffffffffffffff = .error brokenDiagnostic := by decide +kernel
  ⟨h, Source.pointsInto_of_compile h⟩

end Stencil
