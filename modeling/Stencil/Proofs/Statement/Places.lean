import Stencil.Proofs.Expression.Places
import Stencil.Proofs.Statement.Item
set_option autoImplicit false

namespace Stencil

namespace SameTokens

theorem append_inv {ts more us : List Token} (h : SameTokens (ts ++ more) us) :
    ∃ vs others, us = vs ++ others ∧ SameTokens ts vs ∧ SameTokens more others := by
  induction ts generalizing us with
  | nil => exact ⟨[], us, rfl, .nil, h⟩
  | cons t ts ih =>
    cases h with
    | cons ht hrest =>
      obtain ⟨vs, others, rfl, hvs, hothers⟩ := ih hrest
      exact ⟨_ :: vs, others, rfl, .cons ht hvs, hothers⟩

theorem forall_mem {P : Token → Prop} (hP : ∀ t u : Token, t.Same u → P t → P u)
    {ts us : List Token} (h : SameTokens ts us) (hts : ∀ t ∈ ts, P t) : ∀ u ∈ us, P u := by
  induction h with
  | nil => simp
  | @cons t u ts us ht _ ih =>
    obtain ⟨hfirst, hmore⟩ := List.forall_mem_cons.1 hts
    exact List.forall_mem_cons.2 ⟨hP t u ht hfirst, ih hmore⟩

theorem separate {p : Token → Bool} (hp : ∀ t u : Token, t.Same u → p t = p u)
    {ts us : List Token} (h : SameTokens ts us) :
    List.Forall₂ SameTokens (Stencil.separate p ts) (Stencil.separate p us) := by
  induction h with
  | nil => exact .cons .nil .nil
  | @cons t u ts us ht _ ih =>
    rw [Stencil.separate, Stencil.separate, hp t u ht]
    split
    · exact .cons .nil ih
    · generalize Stencil.separate p ts = parts at ih
      generalize Stencil.separate p us = others at ih
      cases ih with
      | nil => exact .cons (.cons ht .nil) .nil
      | cons hpart hmore => exact .cons (.cons ht hpart) hmore

theorem breakAt? {p : Token → Bool} (hp : ∀ t u : Token, t.Same u → p t = p u)
    {ts us before after : List Token} {b : Token} (h : SameTokens ts us)
    (hb : Stencil.breakAt? p ts = some (before, b, after)) : ∃ before' b' after',
      Stencil.breakAt? p us = some (before', b', after') ∧ SameTokens before before' ∧
      SameTokens after after' := by
  obtain ⟨rfl, hb, hbefore⟩ := breakAt?_eq_some hb
  obtain ⟨before', rest, rfl, hsame, hrest⟩ := h.append_inv
  cases hrest with
  | @cons _ b' _ after' ht hafter =>
    have hnone : ∀ t ∈ before', p t = false :=
      hsame.forall_mem (fun t u ht h => by rwa [← hp t u ht]) hbefore
    exact ⟨before', b', after', breakAt?_append hnone (by rwa [← hp b b' ht]), hsame, hafter⟩

end SameTokens

theorem Expression.parseIn_same {ts us : List Token} (h : SameTokens ts us) :
    Carries Eq (parseIn ts) (parseIn us) := (parse_same h).mapError _ _

namespace Assignment

theorem parseValue_same {ts us : List Token} (h : SameTokens ts us) (t t' op op' : Token)
    (o : SetOp) : Carries Eq (parseValue t op o ts) (parseValue t' op' o us) := by
  unfold parseValue
  cases h with
  | nil =>
    cases o.takesValue with
    | true => exact .error _
    | false => exact .ok rfl
  | cons ht hrest =>
    cases o.takesValue with
    | true =>
      exact .map (Expression.parseIn_same (.cons ht hrest)) fun _ _ he => congrArg some he
    | false => exact .error _

theorem parse_same {ts us : List Token} (h : SameTokens ts us) (line line' : Nat) :
    Carries Eq (parse line ts) (parse line' us) := by
  cases h with
  | nil => exact .error _
  | cons htarget hrest =>
    unfold parse
    dsimp only
    rw [htarget.kind]
    refine .ite (.error _) ?_
    cases hrest with
    | nil => exact .error _
    | @cons op op' value value' hop hvalue =>
      have ho : operator? op = operator? op' := by rw [operator?, operator?, hop.kind, hop.value]
      dsimp only
      rw [ho]
      cases operator? op' with
      | none => exact .error _
      | some o =>
        refine .map (parseValue_same hvalue _ _ _ _ o) ?_
        rintro value _ rfl
        rw [htarget.value]

end Assignment

namespace Directive

theorem expression_same {ts us : List Token} (h : SameTokens ts us) (close close' : Token) :
    Carries Eq (expression close ts) (expression close' us) := by
  cases h with
  | nil => exact .error _
  | cons ht hrest => exact Expression.parseIn_same (.cons ht hrest)

theorem expression?_same {ts us : List Token} (h : SameTokens ts us) :
    Carries Eq (expression? ts) (expression? us) := by
  cases h with
  | nil => exact .ok rfl
  | cons ht hrest =>
    exact .map (Expression.parseIn_same (.cons ht hrest)) fun _ _ he => congrArg some he

theorem assignment?_same {ts us : List Token} (h : SameTokens ts us) :
    Carries Eq (assignment? ts) (assignment? us) := by
  cases h with
  | nil => exact .ok rfl
  | cons ht hrest =>
    exact .map (Assignment.parse_same (.cons ht hrest) _ _) fun _ _ he => congrArg some he

theorem parseParams_same {ts us : List (List Token)} (h : List.Forall₂ SameTokens ts us) :
    Carries Eq (parseParams ts) (parseParams us) := by
  induction h with
  | nil => exact .ok rfl
  | cons hpart _ ih =>
    refine .bind (assignment?_same hpart) ?_
    rintro (_ | a) _ rfl
    · exact ih
    · refine .bind ih ?_
      rintro rest _ rfl
      exact .ok rfl

theorem Clauses.same {parts others : List (List Token)} {start step : Option Assignment}
    {test : Option Expression} (h : Clauses parts start test step)
    (hs : List.Forall₂ SameTokens parts others) : Clauses others start test step := by
  cases h with
  | one ht =>
    cases hs with
    | cons hts hrest =>
      cases hrest
      exact .one ((expression?_same hts).eq_ok ht)
  | three hstart ht hp =>
    cases hs with
    | cons hts hrest =>
      cases hrest with
      | cons hus hrest =>
        cases hrest with
        | cons hvs hrest =>
          cases hrest
          exact .three ((assignment?_same hts).eq_ok hstart) ((expression?_same hus).eq_ok ht)
            ((assignment?_same hvs).eq_ok hp)

theorem clauses_same {ts us : List Token} (h : SameTokens ts us) :
    List.Forall₂ SameTokens (separate (·.isPunct ";") ts) (separate (·.isPunct ";") us) :=
  h.separate fun _ _ ht => ht.isPunct ";"

theorem binding_same {t u : Token} (h : t.Same u) : binding t = binding u := by
  rw [binding, binding, h.value]

theorem bindings_same {equals equals' : Token} {ts us : List Token} (h : SameTokens ts us) :
    Carries Eq (bindings equals ts) (bindings equals' us) := by
  rintro ⟨key, value⟩ hb
  obtain ⟨k, rfl, hk, rfl, rfl⟩ | ⟨k, comma, v, rfl, hk, hc, hv, rfl, rfl⟩ := bindings_ok hb
  · cases h with
    | @cons _ k' _ _ hkey hrest =>
      cases hrest
      rw [hkey.kind] at hk
      have heq : bindings equals' [k'] = .ok (binding k', none) := by
        simp [bindings, misplaced?, hk]
      exact ⟨_, heq, by rw [binding_same hkey]⟩
  · cases h with
    | @cons _ k' _ _ hkey hrest =>
      cases hrest with
      | @cons _ comma' _ _ hcomma hrest =>
        cases hrest with
        | @cons _ v' _ _ hvalue hrest =>
          cases hrest
          rw [hkey.kind] at hk
          rw [hcomma.isPunct] at hc
          rw [hvalue.kind] at hv
          have heq : bindings equals' [k', comma', v'] = .ok (binding k', binding v') := by
            simp [bindings, misplaced?, hk, hc, hv]
          exact ⟨_, heq, by rw [binding_same hkey, binding_same hvalue]⟩

theorem Parsed.same {keyword keyword' closing closing' : Token} {args args' : List Token}
    {d : Directive} (h : Parsed keyword closing args d) (hk : keyword.Same keyword')
    (ha : SameTokens args args') : Parsed keyword' closing' args' d := by
  cases h with
  | openIf hw he => exact .openIf (hk.value ▸ hw) ((expression_same ha _ _).eq_ok he)
  | elseIf hw he => exact .elseIf (hk.value ▸ hw) ((expression_same ha _ _).eq_ok he)
  | otherwise hw =>
    cases ha
    exact .otherwise (hk.value ▸ hw)
  | openLoop hw hc => exact .openLoop (hk.value ▸ hw) (hc.same (clauses_same ha))
  | openRange hw hb hn he =>
    obtain ⟨names, equals, source, hb, hnames, hsource⟩ :=
      ha.breakAt? (fun _ _ ht => ht.isOperator "=") hb
    exact .openRange (hk.value ▸ hw) hb ((bindings_same hnames).eq_ok hn)
      ((expression_same hsource _ _).eq_ok he)
  | openBlock hw ht =>
    cases ha with
    | cons hname hrest =>
      cases hrest
      rw [hname.value]
      exact .openBlock (hk.value ▸ hw) (hname.kind ▸ ht)
  | close hw =>
    cases ha
    exact .close (hk.value ▸ hw)
  | assign hw h => exact .assign (hk.value ▸ hw) ((Assignment.parse_same ha _ _).eq_ok h)
  | inclusion hw ht hu hp =>
    cases ha with
    | cons htemplate hrest =>
      refine .inclusion (hk.value ▸ hw) (htemplate.kind ▸ ht) (htemplate.unquote ▸ hu) ?_
      cases hp with
      | none =>
        cases hrest
        exact .none
      | some hword hne hp =>
        cases hrest with
        | cons hsame hrest =>
          exact .some (hsame.isName "with" ▸ hword) hne
            ((parseParams_same (clauses_same hrest)).eq_ok hp)
  | extend hw ht hu =>
    cases ha with
    | cons htemplate hrest =>
      cases hrest
      exact .extend (hk.value ▸ hw) (htemplate.kind ▸ ht) (htemplate.unquote ▸ hu)

end Directive

theorem Segment.Covers.same {s : Segment} {ts us : List Token} {item : Item} (hc : s.Covers ts)
    (hs : s.Says item) (h : SameTokens ts us) : ∃ g : Segment, g.Covers us ∧ g.Says item := by
  have hkinds {kind : Token.Kind} {ts us : List Token} (h : SameTokens ts us)
      (hts : ∀ t ∈ ts, t.kind ≠ kind) : ∀ u ∈ us, u.kind ≠ kind :=
    h.forall_mem (fun _ _ ht hne => ht.kind ▸ hne) hts
  cases hc with
  | text ht =>
    cases h with
    | cons hsame hrest =>
      cases hrest
      cases hs
      rw [hsame.value]
      exact ⟨_, .text (hsame.kind ▸ ht), .text _⟩
  | value ho hi hc =>
    cases h with
    | cons hopen hrest =>
      obtain ⟨inside, rest, rfl, hinside, hend⟩ := SameTokens.append_inv hrest
      cases hend with
      | cons hclose hnil =>
        cases hnil
        cases hs with
        | value he =>
          exact ⟨_, .value (hopen.kind ▸ ho) (hkinds hinside hi) (hclose.kind ▸ hc),
            .value ((Directive.expression_same hinside _ _).eq_ok he)⟩
  | block ho hk ha hc =>
    cases h with
    | cons hopen hrest =>
      cases hrest with
      | cons hkeyword hrest =>
        obtain ⟨args, rest, rfl, hargs, hend⟩ := SameTokens.append_inv hrest
        cases hend with
        | cons hclose hnil =>
          cases hnil
          cases hs with
          | block hd =>
            exact ⟨_, .block (hopen.kind ▸ ho) (hkeyword.kind ▸ hk) (hkinds hargs ha)
              (hclose.kind ▸ hc), .block (Directive.parse_eq_ok_iff.2
                ((Directive.parse_eq_ok_iff.1 hd).same hkeyword hargs))⟩

/-- Tokens that differ in nothing but their places spell the same items. -/
theorem Spells.same {ts us : List Token} {items : List Item} (h : Spells ts items)
    (hs : SameTokens ts us) : Spells us items := by
  induction h generalizing us with
  | nil =>
    cases hs
    exact .nil
  | cons hc hsays _ ih =>
    obtain ⟨vs, others, rfl, hfirst, hrest⟩ := hs.append_inv
    obtain ⟨g, hcovers, hsays⟩ := hc.same hsays hfirst
    exact .cons hcovers hsays (ih hrest)

end Stencil
