import Stencil.Proofs.Expression.Lines
import Stencil.Statement.Draft
/-!
What the reader of statements complains about, and where. A tag that is read apart is refused for
what stands in it; that the template ends too early is an error only where a tag is cut short, and
where it is told of which tag is still open. An error is found at a token of the tag, so what those
tokens have in common holds of the token of the error.
-/
set_option autoImplicit false

namespace Stencil

/-- An error that is not the end of the template with no tag told of. -/
def ParseError.Told (e : ParseError) : Prop := e.cause ≠ .endOfTemplate none

structure ParseError.At (L : Token → Prop) (e : ParseError) : Prop where
  line : ∃ t, L t ∧ t.line = e.line
  panic : e.cause = .panic → ∃ t, L t ∧ t.unquote = none

structure ParseError.ToldAt (L : Token → Prop) (e : ParseError) : Prop extends e.At L where
  told : e.Told

namespace ParseError

variable {L : Token → Prop} {t : Token}

theorem told_unexpected (t : Token) : (unexpected t).Told := by
  simp [Told, unexpected]

theorem unexpected_toldAt (ht : L t) : (unexpected t).ToldAt L :=
  ⟨⟨⟨t, ht, rfl⟩, by simp [unexpected]⟩, told_unexpected t⟩

theorem told_ofExpression (e : ExpressionError) : (ofExpression e).Told := by
  unfold Told ofExpression
  split <;> simp

theorem line_ofExpression (e : ExpressionError) : (ofExpression e).line = e.line := by
  unfold ofExpression
  split <;> rfl

theorem panic_of_ofExpression {e : ExpressionError} (h : (ofExpression e).cause = .panic) :
    e.cause = .panic := by
  unfold ofExpression at h
  split at h <;> simp_all

theorem ofExpression_toldAt {e : ExpressionError} (h : e.At L) : (ofExpression e).ToldAt L where
  line := by rw [line_ofExpression]; exact h.line
  panic hp := h.panic (panic_of_ofExpression hp)
  told := told_ofExpression e

end ParseError

variable {L : Token → Prop}

theorem Expression.parseIn_toldAt {tokens : List Token} (hn : tokens ≠ [])
    (ht : ∀ t ∈ tokens, L t) : FailsAs (ParseError.ToldAt L) (parseIn tokens) :=
  (parse_on hn ht).mapError fun _ hf => ParseError.ofExpression_toldAt hf

namespace Assignment

theorem invalid_toldAt (fault : AssignmentFault) {t : Token} (ht : L t) :
    (invalid fault t.line).ToldAt L :=
  ⟨⟨⟨t, ht, rfl⟩, by simp [invalid]⟩, by simp [ParseError.Told, invalid]⟩

theorem parseValue_toldAt (target : Token) {opToken : Token} (hop : L opToken) (op : SetOp)
    {rest : List Token} (ht : ∀ t ∈ rest, L t) :
    FailsAs (ParseError.ToldAt L) (parseValue target opToken op rest) := by
  cases hv : op.takesValue with
  | true =>
    cases rest with
    | nil =>
      simp only [parseValue, hv]
      exact .error (invalid_toldAt _ hop)
    | cons first more =>
      simp only [parseValue, hv]
      exact .map (Expression.parseIn_toldAt (by simp) ht) _
  | false =>
    cases rest with
    | nil =>
      simp only [parseValue, hv]
      exact .ok none
    | cons first more =>
      simp only [parseValue, hv]
      exact .error (invalid_toldAt _ (ht first (by simp)))

theorem parse_toldAt {first : Token} (hf : L first) {tokens : List Token}
    (ht : ∀ t ∈ tokens, L t) : FailsAs (ParseError.ToldAt L) (parse first.line tokens) := by
  unfold parse
  split
  · exact .error (invalid_toldAt _ hf)
  · rename_i target rest
    obtain ⟨htarget, hrest⟩ := List.forall_mem_cons.1 ht
    split
    · exact .error (invalid_toldAt _ htarget)
    · split
      · exact .error (invalid_toldAt _ htarget)
      · rename_i opToken more
        obtain ⟨hop, hmore⟩ := List.forall_mem_cons.1 hrest
        split
        · exact .error (invalid_toldAt _ hop)
        · exact .map (parseValue_toldAt target hop _ hmore) _

end Assignment

namespace Directive

variable {closing : Token} {args : List Token}

theorem expression_toldAt (hc : L closing) (ha : ∀ t ∈ args, L t) :
    FailsAs (ParseError.ToldAt L) (expression closing args) := by
  unfold expression
  split
  · exact .error (ParseError.unexpected_toldAt hc)
  · rename_i hne
    exact Expression.parseIn_toldAt (by simpa using hne) ha

theorem expression?_toldAt (ha : ∀ t ∈ args, L t) :
    FailsAs (ParseError.ToldAt L) (expression? args) := by
  unfold expression?
  split
  · exact .ok none
  · rename_i hne
    exact .map (Expression.parseIn_toldAt (by simpa using hne) ha) _

theorem assignment?_toldAt (ha : ∀ t ∈ args, L t) :
    FailsAs (ParseError.ToldAt L) (assignment? args) := by
  cases args with
  | nil => exact .ok none
  | cons first rest => exact .map (Assignment.parse_toldAt (ha first (by simp)) ha) _

theorem noArgs_toldAt (ha : ∀ t ∈ args, L t) :
    FailsAs (ParseError.ToldAt L) (noArgs args) := by
  cases args with
  | nil => exact .ok ()
  | cons extra rest => exact .error (ParseError.unexpected_toldAt (ha extra (by simp)))

theorem onlyArg_toldAt (kind : Token.Kind) (hc : L closing) (ha : ∀ t ∈ args, L t) :
    Ensures (ParseError.ToldAt L) L (onlyArg kind closing args) := by
  unfold onlyArg
  split
  · exact .error (ParseError.unexpected_toldAt hc)
  · split
    · exact .ok (ha _ (by simp))
    · exact .error (ParseError.unexpected_toldAt (ha _ (by simp)))
  · exact .error (ParseError.unexpected_toldAt (ha _ (by simp)))

theorem separate_on {p : Token → Bool} (ha : ∀ t ∈ args, L t) {parts : List (List Token)}
    (hs : separate p args = parts) : ∀ part ∈ parts, ∀ t ∈ part, L t :=
  fun _ hp t ht => ha t (mem_of_mem_separate (hs ▸ hp) ht)

theorem parseLoop_toldAt (hc : L closing) (ha : ∀ t ∈ args, L t) :
    FailsAs (ParseError.ToldAt L) (parseLoop closing args) := by
  unfold parseLoop
  split
  · rename_i test hs
    have htest := separate_on ha hs test (by simp)
    exact .bind (expression?_toldAt htest) fun _ => .ok _
  · rename_i start test step hs
    have hstart := separate_on ha hs start (by simp)
    have htest := separate_on ha hs test (by simp)
    have hstep := separate_on ha hs step (by simp)
    exact .bind (assignment?_toldAt hstart) fun _ => .bind (expression?_toldAt htest) fun _ =>
      .bind (assignment?_toldAt hstep) fun _ => .ok _
  · split
    · rename_i t hf
      have hm : t ∈ args := List.mem_reverse.1 (List.mem_of_find?_eq_some hf)
      exact .error (ParseError.unexpected_toldAt (ha t hm))
    · exact .error ⟨⟨⟨closing, hc, rfl⟩, by simp⟩, by simp [ParseError.Told]⟩

theorem mem_of_misplaced? {names : List Token} {t : Token} (h : misplaced? names = some t) :
    t ∈ names := by
  unfold misplaced? at h
  split at h
  · simp at h
  · split at h
    · simp_all
    · split at h
      · simp at h
      · rename_i comma names _
        split at h
        · have hm := List.mem_of_find?_eq_some h
          simp [hm]
        · simp_all

theorem bindings_toldAt {equals : Token} (he : L equals) {names : List Token}
    (hn : ∀ t ∈ names, L t) : FailsAs (ParseError.ToldAt L) (bindings equals names) := by
  unfold bindings
  split
  · rename_i t hm
    exact .error (ParseError.unexpected_toldAt (hn t (mem_of_misplaced? hm)))
  · exact .ok _
  · exact .ok _
  · exact .error (ParseError.unexpected_toldAt he)

theorem parseRange_toldAt (hc : L closing) (ha : ∀ t ∈ args, L t) :
    FailsAs (ParseError.ToldAt L) (parseRange closing args) := by
  unfold parseRange
  split
  · rename_i names equals source hb
    obtain ⟨rfl, -, -⟩ := breakAt?_eq_some hb
    obtain ⟨hnames, hrest⟩ := List.forall_mem_append.1 ha
    obtain ⟨hequals, hsource⟩ := List.forall_mem_cons.1 hrest
    exact .bind (bindings_toldAt hequals hnames) fun _ =>
      .bind (expression_toldAt hc hsource) fun _ => .ok _
  · exact .error (ParseError.unexpected_toldAt hc)
  · rename_i first rest _
    refine .error (ParseError.unexpected_toldAt ?_)
    split
    · exact hc
    · exact ha first (by simp)

theorem parseParams_toldAt {clauses : List (List Token)}
    (hl : ∀ clause ∈ clauses, ∀ t ∈ clause, L t) :
    FailsAs (ParseError.ToldAt L) (parseParams clauses) := by
  induction clauses with
  | nil => exact .ok []
  | cons clause rest ih =>
    obtain ⟨hclause, hrest⟩ := List.forall_mem_cons.1 hl
    refine .bind (assignment?_toldAt hclause) fun a => ?_
    cases a with
    | none => exact ih hrest
    | some b => exact .bind (ih hrest) fun _ => .ok _

theorem template_toldAt {t : Token} (ht : L t) :
    Ensures (ParseError.ToldAt L) (fun _ => True) (template t) := by
  unfold template
  split
  · exact .ok trivial
  · exact .error ⟨⟨⟨t, ht, rfl⟩, fun _ => ⟨t, ht, ‹_›⟩⟩, by simp [ParseError.Told]⟩

theorem parseInclusion_toldAt (hc : L closing) (ha : ∀ t ∈ args, L t) :
    FailsAs (ParseError.ToldAt L) (parseInclusion closing args) := by
  unfold parseInclusion
  split
  · exact .error (ParseError.unexpected_toldAt hc)
  · rename_i template rest
    obtain ⟨htemplate, hrest⟩ := List.forall_mem_cons.1 ha
    split
    · exact .error (ParseError.unexpected_toldAt htemplate)
    · refine .bind (template_toldAt htemplate).fails fun name => ?_
      split
      · exact .ok _
      · rename_i word clauses
        obtain ⟨hword, hclauses⟩ := List.forall_mem_cons.1 hrest
        by_cases hw : word.isName "with" = true
        · simp only [hw, Bool.not_true, Bool.false_eq_true, if_false]
          refine .bind (parseParams_toldAt (separate_on hclauses rfl)) fun params => ?_
          cases params with
          | nil => exact .error (ParseError.unexpected_toldAt hword)
          | cons a rest => exact .ok _
        · simp only [hw, Bool.not_false, if_true]
          exact .error (ParseError.unexpected_toldAt hword)

theorem parse_toldAt {keyword : Token} (hk : L keyword) (hc : L closing)
    (ha : ∀ t ∈ args, L t) :
    FailsAs (ParseError.ToldAt L) (parse keyword args closing) := by
  unfold parse
  split
  · exact .map (expression_toldAt hc ha) _
  · exact .map (expression_toldAt hc ha) _
  · exact .map (noArgs_toldAt ha) _
  · exact parseLoop_toldAt hc ha
  · exact parseRange_toldAt hc ha
  · exact .map (onlyArg_toldAt _ hc ha).fails _
  · exact .map (Assignment.parse_toldAt hk ha) _
  · exact parseInclusion_toldAt hc ha
  · refine (Ensures.bind (R := fun _ => True) (onlyArg_toldAt _ hc ha) fun t ht => ?_).fails
    exact .bind (template_toldAt ht) fun name _ => .ok trivial
  · split
    · exact .map (noArgs_toldAt ha) _
    · exact .error (ParseError.unexpected_toldAt hk)

end Directive

def Segment.tokens : Segment → List Token
  | text _ => []
  | value inside close => inside ++ [close]
  | block keyword args close => keyword :: (args ++ [close])

namespace Draft

theorem nextArm_toldAt (d : Draft) {keyword : Token} (hk : L keyword)
    (test : Option Expression) : FailsAs (ParseError.ToldAt L) (d.nextArm keyword test) := by
  unfold nextArm
  split
  · exact .ok _
  · exact .error (ParseError.unexpected_toldAt hk)

theorem closeTag_toldAt (d : Draft) {keyword : Token} (hk : L keyword)
    (construct : Construct) : FailsAs (ParseError.ToldAt L) (d.closeTag keyword construct) := by
  unfold closeTag
  split
  · exact .error (ParseError.unexpected_toldAt hk)
  · split
    · exact .error (ParseError.unexpected_toldAt hk)
    · split
      · exact .error (ParseError.unexpected_toldAt hk)
      · exact .ok _

theorem accept_toldAt (d : Draft) {keyword : Token} (hk : L keyword) (dir : Directive) :
    FailsAs (ParseError.ToldAt L) (d.accept keyword dir) := by
  cases dir with
  | elseIf test => exact d.nextArm_toldAt hk (some test)
  | otherwise => exact d.nextArm_toldAt hk none
  | close construct => exact d.closeTag_toldAt hk construct
  | openIf | openLoop | openRange | openBlock | assign | inclusion | extend => exact .ok _

theorem add_toldAt (d : Draft) {s : Segment} (hs : ∀ t ∈ s.tokens, L t) :
    FailsAs (ParseError.ToldAt L) (d.add s) := by
  cases s with
  | text literal => exact .ok _
  | value inside close =>
    obtain ⟨hinside, hclose⟩ := List.forall_mem_append.1 hs
    have hvalue := Directive.expression_toldAt (hclose close (by simp)) hinside
    exact .bind hvalue fun _ => .ok _
  | block keyword args close =>
    obtain ⟨hkeyword, hrest⟩ := List.forall_mem_cons.1 hs
    obtain ⟨hargs, hclose⟩ := List.forall_mem_append.1 hrest
    rw [add]
    split
    · exact .error (ParseError.unexpected_toldAt hkeyword)
    · have hparse := Directive.parse_toldAt hkeyword (hclose close (by simp)) hargs
      exact .bind hparse fun dir => d.accept_toldAt hkeyword dir

theorem addAll_toldAt {segments : List Segment} (hs : ∀ s ∈ segments, ∀ t ∈ s.tokens, L t)
    (d : Draft) : FailsAs (ParseError.ToldAt L) (segments.foldlM add d) := by
  induction segments generalizing d with
  | nil => exact .ok d
  | cons s rest ih =>
    obtain ⟨hfirst, hrest⟩ := List.forall_mem_cons.1 hs
    rw [List.foldlM_cons]
    exact .bind (d.add_toldAt hfirst) fun e => ih hrest e

theorem addAll_told (segments : List Segment) (d : Draft) :
    FailsAs ParseError.Told (segments.foldlM add d) :=
  fun e he => (addAll_toldAt (L := fun _ => True) (by simp) d e he).told

end Draft

end Stencil
