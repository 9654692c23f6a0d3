import Stencil.Token.Template
/-!
What ends a part of a template: the closing of a tag, or the tag that ends a verbatim block. Each is
a word with a brace at its end, and a search stops at the first place where one stands. So what
has been found stays found, whatever follows the text.
-/
set_option autoImplicit false

namespace Stencil

namespace Text

def Blanks (s : List Char) : Prop := ∀ c ∈ s, isBlank c = true

instance (s : List Char) : Decidable (Blanks s) :=
  decidable_of_iff (s.all isBlank = true) List.all_eq_true

theorem blanks_leadingBlanks (s : List Char) : Blanks (leadingBlanks s) :=
  List.all_eq_true.1 List.all_takeWhile

theorem dropBlanks_append {a s : List Char} (ha : Blanks a) :
    dropBlanks (a ++ s) = dropBlanks s := List.dropWhile_append_of_pos ha

theorem leadingBlanks_append {a s : List Char} (ha : Blanks a) :
    leadingBlanks (a ++ s) = a ++ leadingBlanks s := List.takeWhile_append_of_pos ha

theorem dropBlanks_cons {c : Char} (hc : isBlank c = false) (s : List Char) :
    dropBlanks (c :: s) = c :: s := by simp [dropBlanks, hc]

theorem leadingBlanks_cons {c : Char} (hc : isBlank c = false) (s : List Char) :
    leadingBlanks (c :: s) = [] := by simp [leadingBlanks, hc]

theorem Blanks.not_mem {s : List Char} (hs : Blanks s) {c : Char} (hc : isBlank c = false) :
    c ∉ s := fun hm => by simp [hs c hm] at hc

end Text

theorem exactly_eq_some_iff {word s m rest : List Char} :
    exactly word s = some (m, rest) ↔ m = word ∧ s = m ++ rest := by
  unfold exactly
  constructor
  · intro h
    split at h
    · rename_i hp
      obtain ⟨t, rfl⟩ := List.isPrefixOf_iff_prefix.1 hp
      simp only [List.drop_left, Option.some.injEq, Prod.mk.injEq] at h
      obtain ⟨rfl, rfl⟩ := h
      exact ⟨rfl, rfl⟩
    · simp at h
  · rintro ⟨rfl, rfl⟩
    have hp : m.isPrefixOf (m ++ rest) = true :=
      List.isPrefixOf_iff_prefix.2 (List.prefix_append m rest)
    simp [hp]

def Lone (word m : List Char) : Prop :=
  ∃ a b, Text.Blanks a ∧ Text.Blanks b ∧ m = a ++ word ++ b ++ Tag.block.closing

theorem loneWord_eq_some_iff {word s m rest : List Char}
    (hw : ∀ c ∈ word.head?, Text.isBlank c = false) (hne : word ≠ []) :
    loneWord word s = some (m, rest) ↔ Lone word m ∧ s = m ++ rest := by
  constructor
  · intro h
    have hs := loneWord_append h
    unfold loneWord at h
    split at h
    · simp at h
    · rename_i w inner hx
      obtain ⟨⟨closing, after⟩, hc, he⟩ := Option.map_eq_some_iff.1 h
      obtain ⟨rfl, hafter⟩ := exactly_eq_some_iff.1 hc
      simp only [Prod.mk.injEq] at he
      obtain ⟨rfl, rfl⟩ := he
      exact ⟨⟨_, _, Text.blanks_leadingBlanks s, Text.blanks_leadingBlanks inner, rfl⟩, hs.symm⟩
  · rintro ⟨⟨a, b, ha, hb, rfl⟩, rfl⟩
    obtain ⟨c, more, rfl⟩ := List.exists_cons_of_ne_nil hne
    have hc : Text.isBlank c = false := hw c (by simp)
    have hp : Text.isBlank '%' = false := by decide
    have hx : exactly (c :: more) (c :: (more ++ (b ++ '%' :: '}' :: rest)))
        = some (c :: more, b ++ '%' :: '}' :: rest) :=
      exactly_eq_some_iff.2 ⟨rfl, by simp⟩
    have hy : exactly Tag.block.closing ('%' :: '}' :: rest) = some (['%', '}'], rest) := rfl
    simp only [loneWord, List.append_assoc, List.cons_append, Tag.closing, List.nil_append,
      Text.dropBlanks_append ha, Text.leadingBlanks_append ha, Text.dropBlanks_cons hc,
      Text.leadingBlanks_cons hc, hx, Text.dropBlanks_append hb, Text.leadingBlanks_append hb,
      Text.dropBlanks_cons hp, Text.leadingBlanks_cons hp]
    simpa [Tag.closing] using hy

/-- A matcher that takes exactly the words of a class, each with a brace at its end and none
between its first character and that brace. -/
structure Stops (stop : List Char → Option (List Char × List Char)) (M : List Char → Prop) :
    Prop where
  eq_some_iff : ∀ {s m rest : List Char}, stop s = some (m, rest) ↔ M m ∧ s = m ++ rest
  form : ∀ {m : List Char}, M m → ∃ c inner, m = c :: inner ++ ['}'] ∧ '}' ∉ inner

theorem stops_closing (tag : Tag) : Stops (exactly tag.closing) (· = tag.closing) where
  eq_some_iff := exactly_eq_some_iff
  form := by
    rintro m rfl
    cases tag with
    | value => exact ⟨'}', [], rfl, by simp⟩
    | block => exact ⟨'%', [], rfl, by simp⟩
    | comment => exact ⟨'#', [], rfl, by simp⟩

theorem not_mem_lone {a b : List Char} (ha : Text.Blanks a) (hb : Text.Blanks b)
    {word : List Char} (hw : '}' ∉ word) : '}' ∉ a ++ word ++ b ++ ['%'] := by
  have hbrace : Text.isBlank '}' = false := by decide
  simp [ha.not_mem hbrace, hb.not_mem hbrace, hw]

theorem stops_verbatim : Stops (loneWord verbatim) (Lone verbatim) where
  eq_some_iff := loneWord_eq_some_iff (by rintro _ ⟨⟩; rfl) (by decide)
  form := by
    rintro m ⟨a, b, ha, hb, rfl⟩
    have hno := not_mem_lone ha hb (show '}' ∉ verbatim by decide)
    obtain ⟨c, inner, hci⟩ := List.exists_cons_of_ne_nil
      (show a ++ verbatim ++ b ++ ['%'] ≠ [] by simp)
    rw [hci] at hno
    refine ⟨c, inner, ?_, fun hm => hno (List.mem_cons_of_mem c hm)⟩
    rw [← hci]
    simp [Tag.closing]

theorem stops_endVerbatim : Stops endVerbatimTag
    fun m => ∃ inner, Lone endVerbatim inner ∧ m = Tag.block.opening ++ inner where
  eq_some_iff := by
    have hlone {s m rest : List Char} := @loneWord_eq_some_iff endVerbatim s m rest
      (by rintro _ ⟨⟩; rfl) (by decide)
    intro s m rest
    unfold endVerbatimTag
    constructor
    · intro h
      split at h
      · simp at h
      · rename_i opening inner ho
        obtain ⟨⟨word, after⟩, hl, he⟩ := Option.map_eq_some_iff.1 h
        simp only [Prod.mk.injEq] at he
        obtain ⟨rfl, rfl⟩ := he
        obtain ⟨rfl, rfl⟩ := exactly_eq_some_iff.1 ho
        obtain ⟨hword, rfl⟩ := hlone.1 hl
        exact ⟨⟨word, hword, rfl⟩, by simp⟩
    · rintro ⟨⟨inner, hi, rfl⟩, rfl⟩
      have ho : exactly Tag.block.opening (Tag.block.opening ++ inner ++ rest)
          = some (Tag.block.opening, inner ++ rest) := exactly_eq_some_iff.2 ⟨rfl, by simp⟩
      simp only [ho, hlone.2 ⟨hi, rfl⟩, Option.map_some]
  form := by
    rintro m ⟨inner, ⟨a, b, ha, hb, rfl⟩, rfl⟩
    have hno := not_mem_lone ha hb (show '}' ∉ endVerbatim by decide)
    refine ⟨'{', '%' :: (a ++ endVerbatim ++ b ++ ['%']), ?_, by simpa using hno⟩
    simp [Tag.opening, Tag.closing]

namespace Stops

variable {stop : List Char → Option (List Char × List Char)} {M : List Char → Prop}

theorem mem_brace (h : Stops stop M) {m : List Char} (hm : M m) : '}' ∈ m := by
  obtain ⟨c, inner, rfl, _⟩ := h.form hm
  simp

theorem none_append (h : Stops stop M) {s : List Char} (hn : stop s = none) (hb : '}' ∈ s.tail)
    (more : List Char) : stop (s ++ more) = none := by
  cases hs : stop (s ++ more) with
  | none => rfl
  | some r =>
    obtain ⟨m, rest⟩ := r
    obtain ⟨hm, heq⟩ := h.eq_some_iff.1 hs
    obtain ⟨x, rfl, hx⟩ | ⟨x, rfl, hx⟩ := List.append_eq_append_iff.1 heq
    · -- the match would end in `more`, so its last brace is not in `s`
      obtain ⟨c, inner, hci, hno⟩ := h.form hm
      obtain rfl | ⟨y, last, rfl⟩ := List.eq_nil_or_concat x
      · have hself : stop s = some (s ++ [], []) := h.eq_some_iff.2 ⟨hm, by simp⟩
        simp [hself] at hn
      · rw [List.concat_eq_append, ← List.append_assoc] at hci
        have hfront : s ++ y = c :: inner := (List.append_inj' hci rfl).1
        have htail : s.tail ⊆ inner := by
          cases s with
          | nil => simp
          | cons d s =>
            simp only [List.cons_append, List.cons.injEq] at hfront
            simp [← hfront.2]
        exact absurd (htail hb) hno
    · have hself : stop (m ++ x) = some (m, x) := h.eq_some_iff.2 ⟨hm, rfl⟩
      simp [hself] at hn

theorem seek_spec (h : Stops stop M) {s before m after : List Char}
    (hs : seek stop s = some (before, m, after)) : M m ∧ s = before ++ m ++ after := by
  have hstop : ∀ {s m rest : List Char}, stop s = some (m, rest) → m ++ rest = s :=
    fun hm => (h.eq_some_iff.1 hm).2.symm
  refine ⟨?_, (seek_append hstop hs).symm⟩
  induction s generalizing before with
  | nil => simp [seek] at hs
  | cons c rest ih =>
    rw [seek] at hs
    split at hs
    · rename_i hm
      simp only [Option.some.injEq, Prod.mk.injEq] at hs
      obtain ⟨_, rfl, rfl⟩ := hs
      exact (h.eq_some_iff.1 hm).1
    · obtain ⟨⟨b, m', a⟩, hr, he⟩ := Option.map_eq_some_iff.1 hs
      simp only [Prod.mk.injEq] at he
      obtain ⟨_, rfl, rfl⟩ := he
      exact ih hr

/-- What is found is found at the same place when the text goes on. -/
theorem seek_more (h : Stops stop M) {s before m after : List Char}
    (hs : seek stop s = some (before, m, after)) (more : List Char) :
    seek stop (s ++ more) = some (before, m, after ++ more) := by
  induction s generalizing before with
  | nil => simp [seek] at hs
  | cons c rest ih =>
    rw [seek] at hs
    rw [List.cons_append, seek]
    split at hs
    · rename_i m' after' hm
      simp only [Option.some.injEq, Prod.mk.injEq] at hs
      obtain ⟨rfl, rfl, rfl⟩ := hs
      obtain ⟨hword, heq⟩ := h.eq_some_iff.1 hm
      have hmore : stop (c :: (rest ++ more)) = some (m', after' ++ more) :=
        h.eq_some_iff.2 ⟨hword, by rw [← List.cons_append, heq, List.append_assoc]⟩
      simp only [hmore]
    · rename_i hn
      obtain ⟨⟨b, m', a⟩, hr, he⟩ := Option.map_eq_some_iff.1 hs
      simp only [Prod.mk.injEq] at he
      obtain ⟨rfl, rfl, rfl⟩ := he
      obtain ⟨hword, hrest⟩ := h.seek_spec hr
      have hbrace : '}' ∈ rest := by
        rw [hrest]
        simp [h.mem_brace hword]
      have hnone : stop (c :: (rest ++ more)) = none := h.none_append hn hbrace more
      simp [hnone, ih hr]

theorem seek_first {s before m after : List Char} (hs : seek stop s = some (before, m, after))
    {x y : List Char} (hxy : s = x ++ y) (hx : x.length < before.length) : stop y = none := by
  induction s generalizing before x with
  | nil => simp [seek] at hs
  | cons c rest ih =>
    rw [seek] at hs
    split at hs
    · simp only [Option.some.injEq, Prod.mk.injEq] at hs
      obtain ⟨rfl, _⟩ := hs
      simp at hx
    · rename_i hn
      obtain ⟨⟨b, m', a⟩, hr, he⟩ := Option.map_eq_some_iff.1 hs
      simp only [Prod.mk.injEq] at he
      obtain ⟨rfl, rfl, rfl⟩ := he
      cases x with
      | nil =>
        rw [List.nil_append] at hxy
        rw [← hxy]
        exact hn
      | cons d x =>
        simp only [List.cons_append, List.cons.injEq] at hxy
        exact ih hr hxy.2 (by simpa using hx)

end Stops

def Tag.Closes (tag : Tag) (body : List Char) : Prop :=
  ∀ x y, body ++ tag.closing = x ++ tag.closing ++ y → y = []

theorem Tag.closes_of_seek {tag : Tag} {s before m after : List Char}
    (h : seek (exactly tag.closing) s = some (before, m, after)) :
    m = tag.closing ∧ tag.Closes before := by
  obtain ⟨rfl, hs⟩ := (stops_closing tag).seek_spec h
  refine ⟨rfl, fun x y hxy => Classical.byContradiction fun hy => ?_⟩
  have hlen := congrArg List.length hxy
  simp only [List.length_append] at hlen
  have hpos := List.length_pos_iff.2 hy
  have hshort : x.length < before.length := by omega
  have hsplit : s = x ++ (tag.closing ++ y ++ after) := by
    rw [hs, hxy]
    simp
  have hnone := Stops.seek_first h hsplit hshort
  have hsome : exactly tag.closing (tag.closing ++ y ++ after)
      = some (tag.closing, y ++ after) := exactly_eq_some_iff.2 ⟨rfl, by simp⟩
  rw [hsome] at hnone
  simp at hnone

end Stencil
