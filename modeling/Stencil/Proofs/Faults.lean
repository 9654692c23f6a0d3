import Stencil.Proofs.Pieces
set_option autoImplicit false

namespace Stencil

def Text.LineOf (text : List Char) (line : Nat) : Prop :=
  ∃ before after, text = before ++ after ∧ line = 1 + before.count '\n'

theorem Text.LineOf.bounds {text : List Char} {line : Nat} (h : LineOf text line) :
    1 ≤ line ∧ line ≤ (lines text).length := by
  obtain ⟨before, after, rfl, rfl⟩ := h
  rw [length_lines, List.count_append]
  omega

def Fault.In (text : List Char) (f : Fault) : Prop := f.input <:+ text

def OpenBracket.AllIn (text : List Char) (opened : List OpenBracket) : Prop :=
  ∀ b ∈ opened, b.input <:+ text

def Round.In (text : List Char) : Round → Prop
  | done _ left => left <:+ text
  | more _ opened left => OpenBracket.AllIn text opened ∧ left <:+ text

variable {text : List Char}

namespace OpenBracket

theorem track_in {opened : List OpenBracket} (ho : AllIn text opened) {input : List Char}
    (hi : input <:+ text) : Ensures (Fault.In text) (AllIn text) (track opened input) := by
  unfold track
  split
  · exact .ok ho
  · split
    · exact .ok (List.forall_mem_cons.2 ⟨hi, ho⟩)
    · split
      · split
        · exact .error hi
        · split
          · exact .ok (List.forall_mem_cons.1 ho).2
          · exact .error hi
      · exact .ok ho

theorem checkNone_in {opened : List OpenBracket} (ho : AllIn text opened) :
    Ensures (Fault.In text) (fun _ => True) (checkNone opened) := by
  cases opened with
  | nil => exact .ok trivial
  | cons b outer => exact .error (ho b (by simp))

end OpenBracket

variable {close : Option Closer} {origin input : List Char} {opened : List OpenBracket}

namespace Round

theorem atLexeme_in (ho : OpenBracket.AllIn text opened) (gap : Piece) {c : Char}
    {rest : List Char} (hi : c :: rest <:+ text) :
    Ensures (Fault.In text) (Round.In text) (atLexeme opened gap c rest) := by
  unfold atLexeme
  split
  · exact .error hi
  · rename_i kind word after hl
    have hafter : after <:+ c :: rest := ⟨word, (lexeme?_spec hl).1⟩
    refine Ensures.map (Q := OpenBracket.AllIn text) ?_
      fun inner hinner => ⟨hinner, hafter.trans hi⟩
    split
    · exact OpenBracket.track_in ho hi
    · exact .ok ho

theorem read_in (horigin : origin <:+ text) (ho : OpenBracket.AllIn text opened)
    (hi : input <:+ text) :
    Ensures (Fault.In text) (Round.In text) (read close origin opened input) := by
  have hdrop : Text.dropBlanks input <:+ text := (List.dropWhile_suffix _).trans hi
  unfold read
  dsimp only
  split
  · cases close with
    | some c => exact .error horigin
    | none => exact .map (OpenBracket.checkNone_in ho) fun _ _ => List.nil_suffix
  · rename_i c rest hd
    rw [hd] at hdrop
    split
    · exact .map (OpenBracket.checkNone_in ho) fun _ _ => (List.drop_suffix _ _).trans hdrop
    · exact atLexeme_in ho _ hdrop

end Round

theorem interior_in (horigin : origin <:+ text) (ho : OpenBracket.AllIn text opened)
    (hi : input <:+ text) : FailsAs (Fault.In text) (interior close origin opened input) := by
  fun_induction interior close origin opened input with
  | case1 opened input f hr => exact .error ((Round.read_in horigin ho hi).fails f hr)
  | case2 => exact .ok _
  | case3 opened input ps inner after hr f hf ih =>
    obtain ⟨hinner, hafter⟩ := (Round.read_in horigin ho hi).gives _ hr
    exact .error (ih hinner hafter f hf)
  | case4 => exact .ok _

namespace Tag

/-- A tag that cannot be read is refused at its opening or at a place behind it. -/
theorem read_in (tag : Tag) (escaped : Bool) {body : List Char}
    (hb : tag.opening ++ body <:+ text) : FailsAs (Fault.In text) (tag.read escaped body) := by
  have hbody : body <:+ text := (List.suffix_append _ _).trans hb
  have hinterior (c : Closer) :
      FailsAs (Fault.In text) (interior (some c) (tag.opening ++ body) [] body) :=
    interior_in hb (by simp [OpenBracket.AllIn]) hbody
  cases escaped with
  | true =>
    simp only [read, readEscaped, if_true]
    split
    · exact .error hb
    · exact .ok _
  | false =>
    simp only [read, Bool.false_eq_true, if_false]
    cases tag with
    | comment =>
      simp only [readComment]
      split
      · exact .error hb
      · exact .ok _
    | value =>
      simp only [readValue]
      split
      · rename_i f hf
        exact .error (hinterior .value f hf)
      · exact .ok _
    | block =>
      simp only [readBlock]
      split
      · split
        · exact .error hb
        · exact .ok _
      · split
        · rename_i f hf
          exact .error (hinterior .block f hf)
        · exact .ok _

end Tag

theorem cut_in (hi : input <:+ text) : FailsAs (Fault.In text) (cut input) := by
  have htag {input body : List Char} {tag : Tag}
      (ht : Tag.open? (Tag.split input).2 = some (tag, body)) : tag.opening ++ body <:+ input := by
    rw [Tag.open?_spec ht]
    exact ⟨_, Tag.split_append input⟩
  fun_induction cut input with
  | case1 => exact .ok _
  | case2 input tag body ht f hf => exact .error (tag.read_in _ ((htag ht).trans hi) f hf)
  | case3 input tag body ht ps after hr f hf ih =>
    obtain ⟨inner, _, rfl⟩ := Tag.read_cover hr
    have hrest : after <:+ tag.opening ++ (inner ++ after) := ⟨tag.opening ++ inner, by simp⟩
    exact .error (ih (hrest.trans ((htag ht).trans hi)) f hf)
  | case4 => exact .ok _

/-- A text that cannot be cut is refused on the line of one of its places. -/
theorem tokenize_on (text : String) :
    FailsAs (fun e => Text.LineOf (Text.normalize text.toList) e.line) (tokenize text) := by
  have hcut := cut_in (List.suffix_refl (Text.normalize text.toList))
  unfold tokenize
  dsimp only
  split
  · rename_i f hf
    obtain ⟨before, hbefore⟩ := hcut f hf
    refine .error ⟨before, f.input, hbefore.symm, ?_⟩
    simp only [Fault.locate]
    rw [← hbefore, Text.lineAt_append]
  · exact .ok _

end Stencil
