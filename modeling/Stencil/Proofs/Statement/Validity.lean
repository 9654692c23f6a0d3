import Stencil.Proofs.Expression.Contents
import Stencil.Proofs.Statement.Item
set_option autoImplicit false

namespace Stencil

def Expression.Accepted (tokens : List Token) : Prop :=
  tokens ≠ [] ∧ ∃ e, Expression.parse tokens = .ok e

theorem Expression.Accepted.legible {tokens : List Token} (h : Accepted tokens) :
    Token.Legible tokens := legible_of_parse h.2.choose_spec

inductive Assignment.Formed : List Token → Prop where
  | valued {target op : Token} {value : List Token} {o : SetOp} (ht : target.kind = .name)
      (ho : op.isOperator o.symbol = true) (htakes : o.takesValue = true)
      (hv : Expression.Accepted value) : Formed (target :: op :: value)
  | counted {target op : Token} {o : SetOp} (ht : target.kind = .name)
      (ho : op.isOperator o.symbol = true) (htakes : o.takesValue = false) : Formed [target, op]

theorem Assignment.Formed.legible {tokens : List Token} (h : Formed tokens) :
    Token.Legible tokens := by
  cases h with
  | valued ht ho _ hv =>
    simp [Token.content_of_kind, ht, Token.content_of_isOperator ho, hv.legible]
  | counted ht ho => simp [Token.content_of_kind, ht, Token.content_of_isOperator ho]

def clauses (tokens : List Token) : List (List Token) := separate (·.isPunct ";") tokens

theorem legible_of_clauses {tokens : List Token} (h : ∀ c ∈ clauses tokens, Token.Legible c) :
    Token.Legible tokens := by
  intro t ht
  cases hp : t.isPunct ";" with
  | true => exact Token.content_of_isPunct hp
  | false =>
    obtain ⟨c, hc, hm⟩ := exists_mem_separate (p := (·.isPunct ";")) ht hp
    exact h c hc t hm

/-- The arguments that each keyword takes. -/
inductive Directive.Valid : String → List Token → Prop where
  | test {word : String} {args : List Token} (hw : word = "if" ∨ word = "elseif")
      (ht : Expression.Accepted args) : Valid word args
  | otherwise : Valid "else" []
  | close (c : Construct) : Valid c.closer []
  | loopTest {args test : List Token} (hc : clauses args = [test])
      (ht : test = [] ∨ Expression.Accepted test) : Valid "for" args
  | loop {args start test step : List Token} (hc : clauses args = [start, test, step])
      (hs : start = [] ∨ Assignment.Formed start) (ht : test = [] ∨ Expression.Accepted test)
      (hp : step = [] ∨ Assignment.Formed step) : Valid "for" args
  | rangeKey {key equals : Token} {source : List Token} (hk : key.kind = .name)
      (he : equals.isOperator "=" = true) (hs : Expression.Accepted source) :
      Valid "range" (key :: equals :: source)
  | rangePair {key comma value equals : Token} {source : List Token} (hk : key.kind = .name)
      (hc : comma.isPunct "," = true) (hv : value.kind = .name)
      (he : equals.isOperator "=" = true) (hs : Expression.Accepted source) :
      Valid "range" (key :: comma :: value :: equals :: source)
  | block {name : Token} (hn : name.kind = .name) : Valid "block" [name]
  | assign {args : List Token} (ha : Assignment.Formed args) : Valid "set" args
  | inclusion {template : Token} (ht : template.kind = .string) : Valid "include" [template]
  | inclusionWith {template word : Token} {params : List Token} (ht : template.kind = .string)
      (hw : word.isName "with" = true) (hp : ∀ c ∈ clauses params, c = [] ∨ Assignment.Formed c)
      (hne : ∃ c ∈ clauses params, c ≠ []) : Valid "include" (template :: word :: params)
  | extend {template : Token} (ht : template.kind = .string) : Valid "extend" [template]

def Segment.Valid : Segment → Prop
  | .text _ => True
  | .value inside _ => Expression.Accepted inside
  | .block keyword args _ => Directive.Valid keyword.value args

namespace Directive

theorem parseIn_eq_ok_iff {tokens : List Token} {e : Expression} :
    Expression.parseIn tokens = .ok e ↔ Expression.parse tokens = .ok e := by
  unfold Expression.parseIn
  cases Expression.parse tokens <;> simp [mapError_ok, mapError_error]

theorem expression_accepts (close : Token) (tokens : List Token) :
    (∃ e, expression close tokens = .ok e) ↔ Expression.Accepted tokens := by
  constructor
  · rintro ⟨e, h⟩
    obtain ⟨hne, he⟩ := expression_ok h
    exact ⟨hne, e, parseIn_eq_ok_iff.1 he⟩
  · rintro ⟨hne, e, he⟩
    exact ⟨e, by simp [expression, hne, parseIn_eq_ok_iff.2 he]⟩

theorem expression?_accepts (tokens : List Token) :
    (∃ test, expression? tokens = .ok test) ↔ tokens = [] ∨ Expression.Accepted tokens := by
  constructor
  · rintro ⟨test, h⟩
    by_cases hne : tokens = []
    · exact .inl hne
    · obtain ⟨rfl, _⟩ | ⟨e, _, he⟩ := expression?_ok h
      · exact .inl rfl
      · exact .inr ⟨hne, e, parseIn_eq_ok_iff.1 he⟩
  · rintro (rfl | ⟨hne, e, he⟩)
    · exact ⟨none, rfl⟩
    · exact ⟨some e, by simp [expression?, hne, parseIn_eq_ok_iff.2 he, Except.map]⟩

end Directive

namespace Assignment

theorem operator?_eq_some_iff {t : Token} {op : SetOp} :
    operator? t = some op ↔ t.isOperator op.symbol = true := by
  simp only [operator?, Token.isOperator, Bool.and_eq_true, beq_iff_eq]
  constructor
  · intro h
    split at h
    · rename_i hk
      have hs := List.find?_some (p := fun op => SetOp.symbol op == t.value) h
      exact ⟨hk, (by simpa using hs : op.symbol = t.value).symm⟩
    · simp at h
  · rintro ⟨hk, hv⟩
    rw [if_pos hk, hv, SetOp.ofSymbol?_symbol]

theorem parse_accepts (line : Nat) (tokens : List Token) :
    (∃ a, parse line tokens = .ok a) ↔ Formed tokens := by
  constructor
  · rintro ⟨a, h⟩
    unfold parse at h
    split at h
    · simp at h
    · split at h
      · simp at h
      · rename_i target _ ht
        have ht : target.kind = .name := by simpa using ht
        split at h
        · simp at h
        · split at h
          · simp at h
          · rename_i op value _ o ho
            have ho := operator?_eq_some_iff.1 ho
            obtain ⟨v, hv, _⟩ := map_eq_ok h
            unfold parseValue at hv
            split at hv
            · simp at hv
            · rename_i htakes hne
              obtain ⟨e, he, _⟩ := map_eq_ok hv
              exact .valued ht ho htakes ⟨hne, e, Directive.parseIn_eq_ok_iff.1 he⟩
            · rename_i htakes
              exact .counted ht ho htakes
            · simp at hv
  · intro h
    cases h with
    | @valued target op value o ht ho htakes hv =>
      obtain ⟨hne, e, he⟩ := hv
      obtain ⟨first, rest, rfl⟩ := List.exists_cons_of_ne_nil hne
      refine ⟨⟨target.value, o, some e⟩, ?_⟩
      simp [parse, ht, operator?_eq_some_iff.2 ho, parseValue, htakes,
        Directive.parseIn_eq_ok_iff.2 he, Except.map]
    | @counted target op o ht ho htakes =>
      refine ⟨⟨target.value, o, none⟩, ?_⟩
      simp [parse, ht, operator?_eq_some_iff.2 ho, parseValue, htakes, Except.map]

end Assignment

namespace Directive

theorem assignment?_accepts (tokens : List Token) :
    (∃ a, assignment? tokens = .ok a) ↔ tokens = [] ∨ Assignment.Formed tokens := by
  cases tokens with
  | nil => exact ⟨fun _ => .inl rfl, fun _ => ⟨none, rfl⟩⟩
  | cons first rest =>
    rw [← Assignment.parse_accepts first.line]
    constructor
    · rintro ⟨a, h⟩
      obtain ⟨b, hb, _⟩ := map_eq_ok h
      exact .inr ⟨b, hb⟩
    · rintro (h | ⟨b, hb⟩)
      · simp at h
      · exact ⟨some b, by rw [assignment?, hb]; rfl⟩

theorem parseParams_cons_eq_ok_iff {clause : List Token} {rest : List (List Token)}
    {params : List Assignment} : parseParams (clause :: rest) = .ok params ↔
      ∃ a others, assignment? clause = .ok a ∧ parseParams rest = .ok others ∧
        params = a.toList ++ others := by
  constructor
  · intro h
    obtain ⟨a, ha, h⟩ := bind_eq_ok h
    cases a with
    | none => exact ⟨none, params, ha, h, rfl⟩
    | some b =>
      obtain ⟨others, ho, h⟩ := bind_eq_ok h
      simp only [pure, Except.pure, Except.ok.injEq] at h
      exact ⟨some b, others, ha, ho, h.symm⟩
  · rintro ⟨a, others, ha, ho, rfl⟩
    cases a <;> simp [parseParams, ha, ho, bind, Except.bind, pure, Except.pure]

theorem parseParams_accepts (parts : List (List Token)) :
    (∃ params, parseParams parts = .ok params) ↔ ∀ c ∈ parts, c = [] ∨ Assignment.Formed c := by
  induction parts with
  | nil => simp [parseParams]
  | cons clause rest ih =>
    rw [List.forall_mem_cons, ← ih, ← assignment?_accepts]
    constructor
    · rintro ⟨params, h⟩
      obtain ⟨a, others, ha, ho, _⟩ := parseParams_cons_eq_ok_iff.1 h
      exact ⟨⟨a, ha⟩, others, ho⟩
    · rintro ⟨⟨a, ha⟩, others, ho⟩
      exact ⟨_, parseParams_cons_eq_ok_iff.2 ⟨a, others, ha, ho, rfl⟩⟩

theorem parseParams_eq_nil_iff {parts : List (List Token)} {params : List Assignment}
    (h : parseParams parts = .ok params) : params = [] ↔ ∀ c ∈ parts, c = [] := by
  induction parts generalizing params with
  | nil =>
    simp only [parseParams, Except.ok.injEq] at h
    simp [← h]
  | cons clause rest ih =>
    obtain ⟨a, others, ha, ho, rfl⟩ := parseParams_cons_eq_ok_iff.1 h
    have hclause : a = none ↔ clause = [] := by
      obtain ⟨rfl, rfl⟩ | ⟨line, b, rfl, hb⟩ := assignment?_ok ha
      · simp
      · constructor
        · simp
        · rintro rfl
          simp [Assignment.parse] at hb
    rw [List.forall_mem_cons, ← ih ho, ← hclause, List.append_eq_nil_iff, Option.toList_eq_nil_iff]

theorem Parsed.valid {keyword closing : Token} {args : List Token} {d : Directive}
    (h : Parsed keyword closing args d) : Valid keyword.value args := by
  cases h with
  | openIf hk he =>
    rw [hk]
    exact .test (.inl rfl) ((expression_accepts _ _).1 ⟨_, he⟩)
  | elseIf hk he =>
    rw [hk]
    exact .test (.inr rfl) ((expression_accepts _ _).1 ⟨_, he⟩)
  | otherwise hk =>
    rw [hk]
    exact .otherwise
  | openLoop hk hc =>
    rw [hk]
    generalize hparts : separate (·.isPunct ";") args = parts at hc
    cases hc with
    | one ht => exact .loopTest hparts ((expression?_accepts _).1 ⟨_, ht⟩)
    | three hs ht hp =>
      exact .loop hparts ((assignment?_accepts _).1 ⟨_, hs⟩) ((expression?_accepts _).1 ⟨_, ht⟩)
        ((assignment?_accepts _).1 ⟨_, hp⟩)
  | openRange hk hb hn he =>
    rw [hk]
    obtain ⟨rfl, hequals, _⟩ := breakAt?_eq_some hb
    have hsource := (expression_accepts _ _).1 ⟨_, he⟩
    obtain ⟨k, rfl, hkey, _, _⟩ | ⟨k, comma, v, rfl, hkey, hcomma, hvalue, _, _⟩ :=
      bindings_ok hn
    · exact .rangeKey hkey hequals hsource
    · exact .rangePair hkey hcomma hvalue hequals hsource
  | openBlock hk ht =>
    rw [hk]
    exact .block ht
  | @close construct hk =>
    rw [hk]
    exact .close construct
  | assign hk ha =>
    rw [hk]
    exact .assign ((Assignment.parse_accepts _ _).1 ⟨_, ha⟩)
  | inclusion hk ht hu hp =>
    rw [hk]
    cases hp with
    | none => exact .inclusion ht
    | some hw hne hp =>
      refine .inclusionWith ht hw ((parseParams_accepts _).1 ⟨_, hp⟩) ?_
      simpa [parseParams_eq_nil_iff hp, clauses] using hne
  | extend hk ht =>
    rw [hk]
    exact .extend ht

/-- Only the string that names a template may be without content in a valid tag. -/
theorem Valid.legible {word : String} {args : List Token} (h : Valid word args)
    (ht : word = "include" ∨ word = "extend" → ∀ t ∈ args.head?, t.unquote.isSome = true) :
    Token.Legible args := by
  have test {ts : List Token} (h : ts = [] ∨ Expression.Accepted ts) : Token.Legible ts := by
    obtain rfl | h := h
    · exact Token.legible_nil
    · exact h.legible
  have clause {ts : List Token} (h : ts = [] ∨ Assignment.Formed ts) : Token.Legible ts := by
    obtain rfl | h := h
    · exact Token.legible_nil
    · exact h.legible
  cases h with
  | test _ ht => exact ht.legible
  | otherwise | close => exact Token.legible_nil
  | loopTest hc hl => exact legible_of_clauses (by simpa [hc] using test hl)
  | loop hc hs hl hp =>
    exact legible_of_clauses (by simpa [hc] using ⟨clause hs, test hl, clause hp⟩)
  | rangeKey hk he hs =>
    simp [Token.content_of_kind, hk, Token.content_of_isOperator he, hs.legible]
  | rangePair hk hc hv he hs =>
    simp [Token.content_of_kind, hk, hv, Token.content_of_isPunct hc,
      Token.content_of_isOperator he, hs.legible]
  | block hn => simp [Token.content_of_kind, hn]
  | assign ha => exact ha.legible
  | inclusion => simpa using ht
  | inclusionWith _ hw hp =>
    have hparams := legible_of_clauses fun c hc => clause (hp c hc)
    simpa [Token.content_of_isName hw, hparams] using ht
  | extend => simpa using ht

theorem Parsed.legible {keyword closing : Token} {args : List Token} {d : Directive}
    (h : Parsed keyword closing args d) : Token.Legible args := by
  refine h.valid.legible fun hw t ht => ?_
  cases h <;> simp_all

theorem Valid.parsed {keyword : Token} {args : List Token} (h : Valid keyword.value args)
    (hl : Token.Legible args) (closing : Token) : ∃ d, Parsed keyword closing args d := by
  generalize hk : keyword.value = word at h
  cases h with
  | test hw ht =>
    obtain ⟨e, he⟩ := (expression_accepts closing args).2 ht
    rcases hw with rfl | rfl
    · exact ⟨_, .openIf hk he⟩
    · exact ⟨_, .elseIf hk he⟩
  | otherwise => exact ⟨_, .otherwise hk⟩
  | close c => exact ⟨_, .close hk⟩
  | @loopTest _ test hc ht =>
    obtain ⟨t, ht⟩ := (expression?_accepts test).2 ht
    exact ⟨_, .openLoop hk (by rw [clauses] at hc; rw [hc]; exact .one ht)⟩
  | @loop _ start test step hc hs ht hp =>
    obtain ⟨s, hs⟩ := (assignment?_accepts start).2 hs
    obtain ⟨t, ht⟩ := (expression?_accepts test).2 ht
    obtain ⟨p, hp⟩ := (assignment?_accepts step).2 hp
    exact ⟨_, .openLoop hk (by rw [clauses] at hc; rw [hc]; exact .three hs ht hp)⟩
  | @rangeKey key equals source hkey he hs =>
    obtain ⟨e, hsource⟩ := (expression_accepts closing source).2 hs
    have hb : breakAt? (·.isOperator "=") ([key] ++ equals :: source)
        = some ([key], equals, source) :=
      breakAt?_append (by simp [Token.isOperator, hkey]) he
    have hn : bindings equals [key] = .ok (binding key, none) := by
      simp [bindings, misplaced?, hkey]
    exact ⟨_, .openRange hk hb hn hsource⟩
  | @rangePair key comma value equals source hkey hc hv he hs =>
    obtain ⟨e, hsource⟩ := (expression_accepts closing source).2 hs
    have hcomma : comma.kind = .punctuation := by
      simp only [Token.isPunct, Bool.and_eq_true, beq_iff_eq] at hc
      exact hc.1
    have hb : breakAt? (·.isOperator "=") ([key, comma, value] ++ equals :: source)
        = some ([key, comma, value], equals, source) :=
      breakAt?_append (by simp [Token.isOperator, hkey, hcomma, hv]) he
    have hn : bindings equals [key, comma, value] = .ok (binding key, binding value) := by
      simp [bindings, misplaced?, hkey, hc, hv]
    exact ⟨_, .openRange hk hb hn hsource⟩
  | block hn => exact ⟨_, .openBlock hk hn⟩
  | assign ha =>
    obtain ⟨a, ha⟩ := (Assignment.parse_accepts keyword.line args).2 ha
    exact ⟨_, .assign hk ha⟩
  | inclusion ht =>
    obtain ⟨name, hu⟩ := Option.isSome_iff_exists.1 (hl _ (List.mem_singleton_self _))
    exact ⟨_, .inclusion hk ht hu .none⟩
  | @inclusionWith template word params ht hw hp hne =>
    obtain ⟨ps, hps⟩ := (parseParams_accepts (clauses params)).2 hp
    obtain ⟨name, hu⟩ := Option.isSome_iff_exists.1 (hl template (by simp))
    refine ⟨_, .inclusion hk ht hu (.some hw ?_ hps)⟩
    simpa [parseParams_eq_nil_iff hps] using hne
  | extend ht =>
    obtain ⟨name, hu⟩ := Option.isSome_iff_exists.1 (hl _ (List.mem_singleton_self _))
    exact ⟨_, .extend hk ht hu⟩

/-- Arguments are read as a directive exactly if they are valid for the keyword and their strings
have content. -/
theorem parse_accepts (keyword closing : Token) (args : List Token) :
    (∃ d, parse keyword args closing = .ok d) ↔ Valid keyword.value args ∧ Token.Legible args := by
  simp only [parse_eq_ok_iff]
  exact ⟨fun ⟨_, h⟩ => ⟨h.valid, h.legible⟩, fun h => h.1.parsed h.2 closing⟩

end Directive

theorem Segment.Covers.says_iff {s : Segment} {ts : List Token} (h : s.Covers ts) :
    (∃ item, s.Says item) ↔ s.Valid ∧ Token.Legible ts := by
  cases h with
  | text ht =>
    exact ⟨fun _ => ⟨trivial, by simp [Token.content_of_kind, ht]⟩, fun _ => ⟨_, .text _⟩⟩
  | @value opening close inside ho _ hc =>
    have hends : Token.Legible (opening :: inside ++ [close]) ↔ Token.Legible inside := by
      simp [Token.content_of_kind, ho, hc]
    rw [hends, Valid, ← Directive.expression_accepts close]
    constructor
    · rintro ⟨_, hs⟩
      cases hs with
      | value he => exact ⟨⟨_, he⟩, ((Directive.expression_accepts _ _).1 ⟨_, he⟩).legible⟩
    · rintro ⟨⟨e, he⟩, -⟩
      exact ⟨_, .value he⟩
  | @block opening keyword close args ho hk _ hc =>
    have hends : Token.Legible (opening :: keyword :: args ++ [close]) ↔ Token.Legible args := by
      simp [Token.content_of_kind, ho, hk, hc]
    rw [hends, Valid, ← Directive.parse_accepts keyword close]
    constructor
    · rintro ⟨_, hs⟩
      cases hs with
      | block hd => exact ⟨_, hd⟩
    · rintro ⟨d, hd⟩
      exact ⟨_, .block hd⟩

end Stencil
