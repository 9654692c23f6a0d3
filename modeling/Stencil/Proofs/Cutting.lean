import Stencil.Proofs.Pieces
import Stencil.Proofs.Statement.Printed
set_option autoImplicit false

namespace Stencil

namespace Tag

theorem isSome_open? (c d : Char) (rest : List Char) : (open? (c :: d :: rest)).isSome =
    (c == '{' && (d == '{' || d == '%' || d == '#')) := by
  by_cases hc : c = '{'
  · subst hc
    by_cases hv : d = '{'
    · simp [hv, open?]
    · by_cases hb : d = '%'
      · simp [hb, open?]
      · by_cases hn : d = '#'
        · simp [hn, open?]
        · simp [open?, hv, hb, hn]
  · simp [open?, hc]

theorem open?_of_ne {c : Char} (hc : c ≠ '{') (rest : List Char) : open? (c :: rest) = none := by
  cases rest <;> simp [open?, hc]

end Tag

def Fresh (tail : List Char) : Prop := tail = [] ∨ (Tag.open? tail).isSome = true

theorem split_fresh {tail : List Char} (h : Fresh tail) : Tag.split tail = ([], tail) := by
  cases tail with
  | nil => rfl
  | cons c rest =>
    have ho : (Tag.open? (c :: rest)).isSome = true := by
      rcases h with h | h
      · simp at h
      · exact h
    simp [Tag.split, ho]

/-- No tag begins where none did, unless the brace that begins it was the last character. -/
theorem Tag.open?_append_none {c : Char} {rest : List Char} (h : (open? (c :: rest)).isSome = false)
    (hr : rest = [] → c ≠ '{') (tail : List Char) :
    (open? (c :: (rest ++ tail))).isSome = false := by
  cases rest with
  | nil => simp [open?_of_ne (hr rfl)]
  | cons d rest =>
    rw [isSome_open?] at h
    rw [List.cons_append, isSome_open?, h]

/-- Text without tags goes on up to the next tag, unless its last brace makes one. -/
theorem split_append_text {s : List Char} (hs : (Tag.split s).2 = [])
    (hl : s.getLast? ≠ some '{') (tail : List Char) :
    Tag.split (s ++ tail) = (s ++ (Tag.split tail).1, (Tag.split tail).2) := by
  induction s with
  | nil => rfl
  | cons c rest ih =>
    rw [Tag.split] at hs
    split at hs
    · simp at hs
    · rename_i hc
      have hne : rest = [] → c ≠ '{' := by
        rintro rfl
        simpa using hl
      have hopen := Tag.open?_append_none (by simpa using hc) hne tail
      have hlast : rest.getLast? ≠ some '{' := by
        cases rest with
        | nil => simp
        | cons d rest => simpa [List.getLast?_cons_cons] using hl
      rw [List.cons_append, Tag.split, ih hs hlast]
      simp [hopen]

theorem split_append_fresh {s tail : List Char} (hs : (Tag.split s).2 = [])
    (hl : s.getLast? ≠ some '{') (ht : Fresh tail) : Tag.split (s ++ tail) = (s, tail) := by
  rw [split_append_text hs hl, split_fresh ht, List.append_nil]

def parings (input : List Char) : Except Fault (List Spelling) :=
  (cut input).map Piece.spellings

theorem map_prefix (ls ms : List Spelling) (x : Except Fault (List Spelling)) :
    (x.map (ms ++ ·)).map (ls ++ ·) = x.map (ls ++ ms ++ ·) := by
  cases x <;> simp [Except.map]

theorem parings_nil : parings [] = .ok [] := by
  rw [parings, cut_eq]
  rfl

theorem cut_tag (tag : Tag) (body : List Char) : cut (tag.opening ++ body) =
    match tag.read false body with
    | .error fault => .error fault
    | .ok (pieces, after) => (cut after).map (pieces ++ ·) := by
  have ho : Tag.open? (tag.opening ++ body) = some (tag, body) := by cases tag <;> rfl
  have hs : Tag.split (tag.opening ++ body) = ([], tag.opening ++ body) :=
    split_fresh (.inr (by simp [ho]))
  have he : escapes [] = false := rfl
  have hlead : Piece.leading [] = [] := rfl
  rw [cut_eq, hs]
  cases hr : tag.read false body with
  | error fault => simp [ho, he, hr]
  | ok r => simp [ho, he, hlead, hr]

theorem parings_tag {input body after : List Char} {tag : Tag} {pieces : List Piece}
    (ho : Tag.open? input = some (tag, body)) (hr : tag.read false body = .ok (pieces, after)) :
    parings input = (parings after).map (Piece.spellings pieces ++ ·) := by
  rw [parings, ← Tag.open?_spec ho, cut_tag, hr, parings]
  dsimp only
  cases cut after <;> simp [Except.map, Piece.spellings_append]

theorem parings_text {s tail : List Char} (hs : s ≠ []) (hn : Statement.needsVerbatim s = false)
    (ht : Fresh tail) : parings (s ++ tail) = (parings tail).map ([(.text, s)] ++ ·) := by
  simp only [Statement.needsVerbatim, Bool.or_eq_false_iff, Bool.not_eq_false',
    List.isEmpty_iff, beq_eq_false_iff_ne] at hn
  obtain ⟨⟨hsplit, hbrace⟩, hat⟩ := hn
  have he : escapes s = false := by simpa [escapes] using hat
  have he' : escapes [] = false := rfl
  have hlead : Piece.spellings (Piece.leading s) = [(.text, s)] := by
    simp [Piece.leading, he, Piece.spellings_literal, hs]
  rw [parings, parings, cut_eq, cut_eq tail, split_append_fresh hsplit hbrace ht, split_fresh ht]
  cases ho : Tag.open? tail with
  | none => simp [Except.map, Piece.spellings_literal, hs]
  | some t =>
    obtain ⟨tag, body⟩ := t
    simp only [he, he']
    cases tag.read false body with
    | error f => rfl
    | ok r =>
      obtain ⟨pieces, after⟩ := r
      have hnone : Piece.leading [] = [] := rfl
      simp only [hnone]
      cases cut after <;> simp [Except.map, Piece.spellings_append, hlead]

def Worded (w : List Char) : Prop :=
  ∃ c more, w = c :: more ∧ Text.isBlank c = false ∧ c ≠ 'v'

theorem Worded.loneWord {w : List Char} (h : Worded w) (rest : List Char) :
    loneWord verbatim (' ' :: (w ++ rest)) = none := by
  obtain ⟨c, more, rfl, hb, hv⟩ := h
  have hd : Text.dropBlanks (' ' :: (c :: more ++ rest)) = c :: (more ++ rest) := by
    have hblank : Text.isBlank ' ' = true := by decide
    simp [Text.dropBlanks, hb, hblank]
  have hx : exactly verbatim (c :: (more ++ rest)) = none := by
    simp [exactly, verbatim, List.isPrefixOf, Ne.symm hv]
  simp only [Stencil.loneWord, hd, hx]

theorem lexemes_of_scans {f : List Char → List Char} {ls : List Spelling} {closer : Closer}
    (hc : closer = .value ∨ closer = .block)
    (hf : ∀ tail, Parted tail → ∀ closer, closer = Closer.value ∨ closer = Closer.block →
      ∀ origin opened, lexemes closer origin opened (f tail)
        = (lexemes closer origin opened tail).map (ahead ls)) (origin tail : List Char) :
    lexemes closer origin [] (f (' ' :: (closer.text ++ tail)))
      = .ok (ls ++ [(closer.kind, closer.text)], tail) := by
  rw [hf _ ⟨' ', _, rfl, by decide⟩ closer hc, lexemes_blank (by decide), lexemes_closer hc]
  rfl

theorem interior_of_scans {f : List Char → List Char} {ls : List Spelling} {closer : Closer}
    (hc : closer = .value ∨ closer = .block)
    (hf : ∀ tail, Parted tail → ∀ closer, closer = Closer.value ∨ closer = Closer.block →
      ∀ origin opened, lexemes closer origin opened (f tail)
        = (lexemes closer origin opened tail).map (ahead ls)) (origin tail : List Char) :
    ∃ pieces, interior (some closer) origin [] (' ' :: f (' ' :: (closer.text ++ tail)))
        = .ok (pieces, tail) ∧ Piece.spellings pieces = ls ++ [(closer.kind, closer.text)] := by
  have hl := lexemes_of_scans hc hf origin tail
  rw [← lexemes_blank (b := ' ') (by decide)] at hl
  obtain ⟨⟨pieces, left⟩, hi, he⟩ := map_eq_ok hl
  simp only [Prod.mk.injEq] at he
  obtain ⟨hp, rfl⟩ := he
  exact ⟨pieces, hi, hp⟩

/-- What is written by `f` is cut off and spells items with a property, if what follows is as `A`
asks for. No carriage return is written. -/
def Cuts (A : List Char → Prop) (f : List Char → List Char) (Q : List Item → Prop) : Prop :=
  ∃ (ls : List Spelling) (items : List Item), (∀ tail, '\r' ∈ f tail → '\r' ∈ tail) ∧
    (∀ tail, A tail → parings (f tail) = (parings tail).map (ls ++ ·)) ∧
    (∀ ts : List Token, ts.map Token.spelling = ls → Spells ts items) ∧ Q items

namespace Cuts

variable {A B : List Char → Prop} {f g : List Char → List Char} {P Q : List Item → Prop}

theorem mono (h : Cuts A f P) (hA : ∀ tail, B tail → A tail) (hPQ : ∀ items, P items → Q items) :
    Cuts B f Q := by
  obtain ⟨ls, items, hr, hf, hsp, hp⟩ := h
  exact ⟨ls, items, hr, fun tail ht => hf tail (hA tail ht), hsp, hPQ items hp⟩

theorem nothing : Cuts A (fun tail => tail) (· = []) := by
  refine ⟨[], [], fun _ h => h, ?_, ?_, rfl⟩
  · intro tail _
    cases parings tail <;> simp [Except.map]
  · intro ts hts
    obtain rfl := List.map_eq_nil_iff.1 hts
    exact .nil

theorem append (hf : Cuts A f P) (hg : Cuts B g Q) (h : ∀ tail, B tail → A (g tail)) :
    Cuts B (fun tail => f (g tail)) fun items => ∃ xs ys, items = xs ++ ys ∧ P xs ∧ Q ys := by
  obtain ⟨ls, xs, hfr, hf, hxs, hp⟩ := hf
  obtain ⟨ms, ys, hgr, hg, hys, hq⟩ := hg
  refine ⟨ls ++ ms, xs ++ ys, fun tail ht => hgr tail (hfr (g tail) ht), ?_, ?_,
    xs, ys, rfl, hp, hq⟩
  · intro tail ht
    rw [hf (g tail) (h tail ht), hg tail ht, map_prefix]
  · intro ts hts
    obtain ⟨us, vs, rfl, hus, hvs⟩ := List.map_eq_append_iff.1 hts
    exact (hxs us hus).append (hys vs hvs)

theorem of_enclosed {ls : List Spelling} {opening closing : Spelling} {ts : List Token}
    (h : ts.map Token.spelling = opening :: ls ++ [closing]) :
    ∃ first inside last, ts = first :: inside ++ [last] ∧ first.kind = opening.1 ∧
      inside.map Token.spelling = ls ∧ last.kind = closing.1 := by
  obtain ⟨us, vs, rfl, hus, hvs⟩ := List.map_eq_append_iff.1 h
  obtain ⟨first, inside, rfl, ho, hi⟩ := List.map_eq_cons_iff.1 hus
  obtain ⟨last, rest, rfl, hc, hrest⟩ := List.map_eq_cons_iff.1 hvs
  obtain rfl := List.map_eq_nil_iff.1 hrest
  exact ⟨first, inside, last, rfl, congrArg Prod.fst ho, hi, congrArg Prod.fst hc⟩

theorem value {e : Expression} (h : e.Normal) :
    Cuts A (Statement.value e).write (· = [.value e]) := by
  obtain ⟨ls, hr, hf, hp⟩ := Expression.scans_write e h
  have hw : ∀ tail, (Statement.value e).write tail
      = '{' :: '{' :: ' ' :: e.write (' ' :: (Closer.value.text ++ tail)) := by
    intro tail
    simp [Statement.write, Tag.opening, Tag.closing, Closer.value]
  refine ⟨(.valueStart, ['{', '{']) :: ls ++ [(.valueEnd, ['}', '}'])], [.value e], ?_, ?_, ?_, rfl⟩
  · intro tail ht
    rw [hw] at ht
    have he := hr (' ' :: (Closer.value.text ++ tail)) (by simpa using ht)
    simpa [Closer.value] using he
  · intro tail _
    obtain ⟨pieces, hi, hps⟩ := interior_of_scans (.inl rfl) hf
      (Tag.value.opening ++ ' ' :: e.write (' ' :: (Closer.value.text ++ tail))) tail
    have hread : Tag.value.read false (' ' :: e.write (' ' :: (Closer.value.text ++ tail)))
        = .ok (.token .valueStart Tag.value.opening :: pieces, tail) := by
      simp only [Tag.read, Tag.readValue, hi]
      rfl
    rw [hw, parings_tag rfl hread, Piece.spellings, hps]
    rfl
  · intro ts hts
    obtain ⟨first, inside, last, rfl, hfirst, hinside, hlast⟩ := of_enclosed hts
    have hspelt := hp inside hinside
    have hcover := Segment.Covers.value hfirst (fun t ht => (hspelt.inner t ht).value) hlast
    have hsays : Segment.Says (.value inside last) (.value e) :=
      .value (Directive.expression_of_spelt hspelt last)
    simpa using Spells.cons hcover hsays .nil

theorem block {w : List Char} {dir : Directive} (h : Scans (w ++ ·) (Directive.Tells dir))
    (hv : Worded w) : Cuts A (blockTag w ++ ·) (· = [.tag dir]) := by
  obtain ⟨ls, hr, hf, hp⟩ := h
  have hw : ∀ tail, blockTag w ++ tail
      = '{' :: '%' :: ' ' :: (w ++ ' ' :: (Closer.block.text ++ tail)) := by
    intro tail
    simp [blockTag, Tag.opening, Tag.closing, Closer.block]
  refine ⟨(.blockStart, ['{', '%']) :: ls ++ [(.blockEnd, ['%', '}'])], [.tag dir], ?_, ?_, ?_, rfl⟩
  · intro tail ht
    dsimp only at ht
    rw [hw] at ht
    have he := hr (' ' :: (Closer.block.text ++ tail)) (by simpa using ht)
    simpa [Closer.block] using he
  · intro tail _
    obtain ⟨pieces, hi, hps⟩ := interior_of_scans (.inr rfl) hf
      (Tag.block.opening ++ ' ' :: (w ++ ' ' :: (Closer.block.text ++ tail))) tail
    have hread : Tag.block.read false (' ' :: (w ++ ' ' :: (Closer.block.text ++ tail)))
        = .ok (.token .blockStart Tag.block.opening :: pieces, tail) := by
      simp only [Tag.read, Tag.readBlock, hv.loneWord, hi]
      rfl
    dsimp only
    rw [hw, parings_tag rfl hread, Piece.spellings, hps]
    rfl
  · intro ts hts
    obtain ⟨first, inside, last, rfl, hfirst, hinside, hlast⟩ := of_enclosed hts
    obtain ⟨keyword, args, rfl, hk, ha, hd⟩ := hp inside hinside
    have hcover := Segment.Covers.block hfirst hk ha hlast
    have hsays : Segment.Says (.block keyword args last) (.tag dir) :=
      .block (Directive.parse_eq_ok_iff.2 (hd last))
    simpa using Spells.cons hcover hsays .nil

end Cuts

namespace Statement

theorem guardTags_no_return {s : List Char} (h : '\r' ∉ s) : '\r' ∉ guardTags s := by
  have htags : '\r' ∉ blockTag endVerbatim ++ blockTag verbatim := by decide
  fun_induction guardTags s with
  | case1 => simp
  | case2 rest ih =>
    have hrest := ih (by simp_all)
    simp_all
  | case3 c rest _ ih =>
    simp only [List.mem_cons, not_or] at h ⊢
    exact ⟨h.1, ih h.2⟩

theorem head?_guardTags (s : List Char) : (guardTags s).head? = s.head? := by
  fun_induction guardTags s <;> simp

theorem endVerbatimTag_eq_none {c d : Char} (h : c = '{' → d ≠ '%') (tail : List Char) :
    endVerbatimTag (c :: d :: tail) = none := by
  have hp : ['{', '%'].isPrefixOf (c :: d :: tail) = false := by
    by_cases hc : c = '{'
    · simp [List.isPrefixOf, Ne.symm (h hc)]
    · simp [List.isPrefixOf, Ne.symm hc]
  simp [endVerbatimTag, exactly, Tag.opening, hp]

theorem seek_end (tail : List Char) : seek endVerbatimTag (blockTag endVerbatim ++ tail)
    = some ([], blockTag endVerbatim, tail) := rfl

theorem seek_cons {stop : List Char → Option (List Char × List Char)} {c : Char}
    {s before m after : List Char} (hc : stop (c :: s) = none)
    (hs : seek stop s = some (before, m, after)) :
    seek stop (c :: s) = some (c :: before, m, after) := by
  simp [seek, hc, hs]

/-- In guarded text a verbatim block ends where the text does, or in the middle of the first block
tag, after which the next verbatim block begins. -/
theorem seek_guardTags (s : List Char) :
    (∃ before rest, s = before ++ '{' :: '%' :: rest ∧
      ∀ tail, seek endVerbatimTag (guardTags s ++ tail) = some (before ++ ['{'],
        blockTag endVerbatim, blockTag verbatim ++ (guardTags ('%' :: rest) ++ tail))) ∨
    ∀ tail, seek endVerbatimTag (guardTags s ++ (blockTag endVerbatim ++ tail))
      = some (s, blockTag endVerbatim, tail) := by
  fun_induction guardTags s with
  | case1 => exact .inr fun tail => seek_end tail
  | case2 rest ih =>
    refine .inl ⟨[], rest, rfl, fun tail => ?_⟩
    have hpass : ∀ more, endVerbatimTag ('{' :: (blockTag endVerbatim ++ more)) = none :=
      fun _ => endVerbatimTag_eq_none (by decide) _
    have hseek := seek_cons (hpass _)
      (seek_end (blockTag verbatim ++ '%' :: guardTags rest ++ tail))
    simpa [guardTags] using hseek
  | case3 c rest hc ih =>
    -- the next character is that of the text, or the brace of the closing tag
    have hpass : ∀ tail, (rest = [] → tail.head? = some '{') →
        endVerbatimTag (c :: (guardTags rest ++ tail)) = none := by
      intro tail ht
      cases rest with
      | nil =>
        obtain ⟨more, rfl⟩ := List.head?_eq_some_iff.1 (ht rfl)
        exact endVerbatimTag_eq_none (by simp) more
      | cons d rest =>
        obtain ⟨more, hm⟩ := List.head?_eq_some_iff.1 (head?_guardTags (d :: rest))
        rw [hm]
        exact endVerbatimTag_eq_none (fun hb hd => hc rest hb (by rw [hd])) _
    obtain ⟨before, left, hrest, hseek⟩ | hseek := ih
    · refine .inl ⟨c :: before, left, by simp [hrest], fun tail => ?_⟩
      exact seek_cons (hpass tail (by simp [hrest])) (hseek tail)
    · exact .inr fun tail => seek_cons (hpass _ fun _ => rfl) (hseek tail)

def verbatimBlock (inside : List Char) : List Piece :=
  .gap (blockTag verbatim) :: Piece.literal inside ++ [.gap (blockTag endVerbatim)]

theorem spellings_verbatimBlock (inside : List Char) :
    Piece.spellings (verbatimBlock inside) = if inside = [] then [] else [(.text, inside)] := by
  simp [verbatimBlock, Piece.spellings, Piece.spellings_append, Piece.spellings_literal]

theorem cut_verbatim {content inside after : List Char}
    (h : seek endVerbatimTag content = some (inside, blockTag endVerbatim, after)) :
    cut (blockTag verbatim ++ content) = (cut after).map (verbatimBlock inside ++ ·) := by
  have hword : loneWord verbatim (' ' :: (verbatim ++ ' ' :: '%' :: '}' :: content))
      = some (' ' :: (verbatim ++ [' ', '%', '}']), content) := rfl
  have hread : Tag.block.read false (' ' :: (verbatim ++ ' ' :: '%' :: '}' :: content))
      = .ok (verbatimBlock inside, after) := by
    simp [Tag.read, Tag.readBlock, hword, h, verbatimBlock, blockTag, Tag.closing]
  have hw : blockTag verbatim ++ content
      = Tag.block.opening ++ (' ' :: (verbatim ++ ' ' :: '%' :: '}' :: content)) := rfl
  rw [hw, cut_tag, hread]

theorem map_pieces (ps qs : List Piece) (x : Except Fault (List Piece)) :
    (x.map (qs ++ ·)).map (ps ++ ·) = x.map (ps ++ qs ++ ·) := by
  cases x <;> simp [Except.map]

theorem writeVerbatim_append (s tail : List Char) : writeVerbatim s ++ tail
    = blockTag verbatim ++ (guardTags s ++ (blockTag endVerbatim ++ tail)) := by
  simp [writeVerbatim]

/-- Text written in verbatim blocks comes back in parts that make it up, whatever follows. -/
theorem cut_writeVerbatim (s : List Char) : ∃ (texts : List (List Char)) (pieces : List Piece),
    texts.flatten = s ∧ Piece.spellings pieces = texts.map (fun t => (Token.Kind.text, t)) ∧
    ∀ tail, cut (writeVerbatim s ++ tail) = (cut tail).map (pieces ++ ·) := by
  induction hn : s.length using Nat.strongRecOn generalizing s with
  | ind n ih =>
    obtain ⟨before, rest, hs, hseek⟩ | hseek := seek_guardTags s
    · have hshort : rest.length + 1 < n := by
        simp [hs] at hn
        omega
      obtain ⟨texts, pieces, ht, hp, hrest⟩ := ih (rest.length + 1) hshort ('%' :: rest) rfl
      refine ⟨(before ++ ['{']) :: texts, verbatimBlock (before ++ ['{']) ++ pieces,
        by simp [ht, hs], ?_, fun tail => ?_⟩
      · simp [Piece.spellings_append, spellings_verbatimBlock, hp]
      · have hblock := cut_verbatim (hseek (blockTag endVerbatim ++ tail))
        rw [writeVerbatim_append, hblock, ← writeVerbatim_append, hrest, map_pieces]
    · refine ⟨if s = [] then [] else [s], verbatimBlock s, by split <;> simp_all, ?_,
        fun tail => ?_⟩
      · rw [spellings_verbatimBlock]
        split <;> rfl
      · rw [writeVerbatim_append, cut_verbatim (hseek tail)]

theorem parings_writeVerbatim (s : List Char) : ∃ texts : List (List Char), texts.flatten = s ∧
    ∀ tail, parings (writeVerbatim s ++ tail)
      = (parings tail).map (texts.map (fun t => (Token.Kind.text, t)) ++ ·) := by
  obtain ⟨texts, pieces, ht, hp, hcut⟩ := cut_writeVerbatim s
  refine ⟨texts, ht, fun tail => ?_⟩
  rw [parings, hcut, parings, ← hp]
  cases cut tail <;> simp [Except.map, Piece.spellings_append]

end Statement

theorem spells_texts {texts : List (List Char)} {ts : List Token}
    (h : ts.map Token.spelling = texts.map fun t => (Token.Kind.text, t)) :
    Spells ts (texts.map fun t => .text (String.ofList t)) := by
  induction texts generalizing ts with
  | nil =>
    obtain rfl := List.map_eq_nil_iff.1 h
    exact .nil
  | cons s texts ih =>
    obtain ⟨t, rest, rfl, ht, hrest⟩ := List.map_eq_cons_iff.1 h
    rw [Token.spelling, Prod.mk.injEq] at ht
    have hcover := Segment.Covers.text ht.1
    have hsays : Segment.Says (.text t.value) (.text (String.ofList s)) := by
      rw [← ht.2, String.ofList_toList]
      exact .text _
    exact .cons hcover hsays (ih hrest)

theorem Cuts.text {literal : String} (h : (Statement.text literal).Normal) :
    Cuts Fresh (Statement.text literal).write fun items => ∃ texts : List (List Char),
      items = texts.map (fun t => .text (String.ofList t)) ∧ texts.flatten = literal.toList := by
  obtain ⟨hne, hr⟩ := h
  have hne : literal.toList ≠ [] := by simpa using hne
  have hw : (Statement.text literal).write = (Statement.writeText literal.toList ++ ·) := by
    funext tail
    simp [Statement.write]
  rw [hw]
  cases hv : Statement.needsVerbatim literal.toList with
  | false =>
    have hplain : Statement.writeText literal.toList = literal.toList := by
      simp [Statement.writeText, hv]
    refine ⟨[(.text, literal.toList)], _, ?_, fun tail ht => ?_, fun ts hts => ?_,
      [literal.toList], rfl, by simp⟩
    · intro tail ht
      simpa [hplain, hr] using ht
    · dsimp only
      rw [hplain, parings_text hne hv ht]
    · exact spells_texts hts
  | true =>
    have hverb : Statement.writeText literal.toList = Statement.writeVerbatim literal.toList := by
      simp [Statement.writeText, hv]
    obtain ⟨texts, hflat, hcut⟩ := Statement.parings_writeVerbatim literal.toList
    refine ⟨texts.map fun t => (.text, t), _, ?_, fun tail _ => ?_, fun ts hts => ?_,
      texts, rfl, hflat⟩
    · intro tail ht
      have hv : '\r' ∉ blockTag verbatim := by decide
      have he : '\r' ∉ blockTag endVerbatim := by decide
      simpa [hverb, Statement.writeVerbatim, hv, he, Statement.guardTags_no_return hr] using ht
    · dsimp only
      rw [hverb, hcut]
    · exact spells_texts hts

end Stencil
