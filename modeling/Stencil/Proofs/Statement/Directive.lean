import Stencil.Outcome
import Stencil.Statement.Directive
set_option autoImplicit false

namespace Stencil.Directive

theorem expression_ok {close : Token} {tokens : List Token} {e : Expression}
    (h : expression close tokens = .ok e) : tokens ≠ [] ∧ Expression.parseIn tokens = .ok e := by
  unfold expression at h
  split at h
  · simp at h
  · rename_i hne
    exact ⟨by simpa using hne, h⟩

theorem expression?_ok {tokens : List Token} {test : Option Expression}
    (h : expression? tokens = .ok test) :
    tokens = [] ∧ test = none ∨ ∃ e, test = some e ∧ Expression.parseIn tokens = .ok e := by
  unfold expression? at h
  split at h
  · rename_i he
    simp only [Except.ok.injEq] at h
    exact .inl ⟨by simpa using he, h.symm⟩
  · obtain ⟨e, he, rfl⟩ := map_eq_ok h
    exact .inr ⟨e, rfl, he⟩

theorem assignment?_ok {tokens : List Token} {a : Option Assignment}
    (h : assignment? tokens = .ok a) :
    tokens = [] ∧ a = none ∨ ∃ line b, a = some b ∧ Assignment.parse line tokens = .ok b := by
  cases tokens with
  | nil =>
    simp only [assignment?, Except.ok.injEq] at h
    exact .inl ⟨rfl, h.symm⟩
  | cons first rest =>
    obtain ⟨b, hb, rfl⟩ := map_eq_ok h
    exact .inr ⟨first.line, b, rfl, hb⟩

theorem noArgs_ok {args : List Token} {u : Unit} (h : noArgs args = .ok u) : args = [] := by
  cases args with
  | nil => rfl
  | cons t rest => simp [noArgs] at h

theorem onlyArg_ok {kind : Token.Kind} {close t : Token} {args : List Token}
    (h : onlyArg kind close args = .ok t) : args = [t] ∧ t.kind = kind := by
  unfold onlyArg at h
  split at h
  · simp at h
  · split at h
    · rename_i hk
      simp only [Except.ok.injEq] at h
      subst h
      exact ⟨rfl, hk⟩
    · simp at h
  · simp at h

inductive Clauses : List (List Token) → Option Assignment → Option Expression →
    Option Assignment → Prop where
  | one {ts : List Token} {test : Option Expression} (ht : expression? ts = .ok test) :
      Clauses [ts] none test none
  | three {ts us vs : List Token} {start step : Option Assignment} {test : Option Expression}
      (hs : assignment? ts = .ok start) (ht : expression? us = .ok test)
      (hp : assignment? vs = .ok step) : Clauses [ts, us, vs] start test step

theorem parseLoop_ok {close : Token} {args : List Token} {d : Directive}
    (h : parseLoop close args = .ok d) : ∃ start test step, d = openLoop start test step ∧
      Clauses (separate (·.isPunct ";") args) start test step := by
  unfold parseLoop at h
  split at h
  · rename_i ts hs
    obtain ⟨test, ht, hd⟩ := bind_eq_ok h
    simp only [pure, Except.pure, Except.ok.injEq] at hd
    exact ⟨none, test, none, hd.symm, by rw [hs]; exact .one ht⟩
  · rename_i ts us vs hs
    obtain ⟨start, hstart, h⟩ := bind_eq_ok h
    obtain ⟨test, ht, h⟩ := bind_eq_ok h
    obtain ⟨step, hp, hd⟩ := bind_eq_ok h
    simp only [pure, Except.pure, Except.ok.injEq] at hd
    exact ⟨start, test, step, hd.symm, by rw [hs]; exact .three hstart ht hp⟩
  · split at h <;> simp at h

theorem bindings_ok {equals : Token} {names : List Token} {key value : Option String}
    (h : bindings equals names = .ok (key, value)) :
    (∃ k, names = [k] ∧ k.kind = .name ∧ key = binding k ∧ value = none) ∨
      ∃ k comma v, names = [k, comma, v] ∧ k.kind = .name ∧ comma.isPunct "," = true ∧
        v.kind = .name ∧ key = binding k ∧ value = binding v := by
  unfold bindings at h
  split at h
  · simp at h
  · rename_i k hm
    simp only [Except.ok.injEq, Prod.mk.injEq] at h
    refine .inl ⟨k, rfl, ?_, h.1.symm, h.2.symm⟩
    simpa [misplaced?] using hm
  · rename_i k comma v hm
    simp only [Except.ok.injEq, Prod.mk.injEq] at h
    refine .inr ⟨k, comma, v, rfl, ?_⟩
    by_cases hk : k.kind = .name
    · cases hc : comma.isPunct ","
      · simp [misplaced?, hk, hc] at hm
      · exact ⟨hk, rfl, by simpa [misplaced?, hk, hc] using hm, h.1.symm, h.2.symm⟩
    · simp [misplaced?, hk] at hm
  · simp at h

theorem parseRange_ok {close : Token} {args : List Token} {d : Directive}
    (h : parseRange close args = .ok d) : ∃ names equals source key value e,
      breakAt? (·.isOperator "=") args = some (names, equals, source) ∧
      bindings equals names = .ok (key, value) ∧ expression close source = .ok e ∧
      d = openRange key value e := by
  unfold parseRange at h
  split at h
  · rename_i _ names equals source hb
    obtain ⟨⟨key, value⟩, hk, h⟩ := bind_eq_ok h
    obtain ⟨e, he, hd⟩ := bind_eq_ok h
    simp only [pure, Except.pure, Except.ok.injEq] at hd
    exact ⟨names, equals, source, key, value, e, hb, hk, he, hd.symm⟩
  · simp at h
  · simp at h

inductive Params : List Token → List Assignment → Prop where
  | none : Params [] []
  | some {word : Token} {clauses : List Token} {params : List Assignment}
      (hw : word.isName "with" = true) (hne : params ≠ [])
      (hp : parseParams (separate (·.isPunct ";") clauses) = .ok params) :
      Params (word :: clauses) params

theorem template_eq_ok_iff {t : Token} {name : String} :
    template t = .ok name ↔ t.unquote = some name := by
  unfold template
  split <;> simp_all

theorem parseInclusion_ok {close : Token} {args : List Token} {d : Directive}
    (h : parseInclusion close args = .ok d) : ∃ t rest name params, args = t :: rest ∧
      t.kind = .string ∧ t.unquote = some name ∧ Params rest params ∧
      d = inclusion name params := by
  unfold parseInclusion at h
  split at h
  · simp at h
  · rename_i t rest
    split at h
    · simp at h
    · rename_i hk
      have hk : t.kind = .string := by simpa using hk
      obtain ⟨name, hu, h⟩ := bind_eq_ok h
      have hu := template_eq_ok_iff.1 hu
      cases rest with
      | nil =>
        obtain rfl := Except.ok.inj h
        exact ⟨t, [], name, [], rfl, hk, hu, .none, rfl⟩
      | cons word clauses =>
        dsimp only at h
        cases hw : word.isName "with" with
        | false => simp [hw, bind, Except.bind, throw, throwThe, MonadExceptOf.throw] at h
        | true =>
          simp only [hw, Bool.not_true, Bool.false_eq_true, if_false] at h
          obtain ⟨params, hp, h⟩ := bind_eq_ok h
          cases params with
          | nil => simp [bind, Except.bind, throw, throwThe, MonadExceptOf.throw] at h
          | cons a params =>
            simp only [List.isEmpty_cons, Bool.false_eq_true, if_false, pure, Except.pure,
              Except.ok.injEq] at h
            exact ⟨t, word :: clauses, name, a :: params, rfl, hk, hu, .some hw (by simp) hp,
              h.symm⟩

/-- Each directive, with the keyword it begins with and what its arguments have to be. -/
inductive Parsed (keyword closing : Token) : List Token → Directive → Prop where
  | openIf {args : List Token} {e : Expression} (hk : keyword.value = "if")
      (he : expression closing args = .ok e) : Parsed keyword closing args (.openIf e)
  | elseIf {args : List Token} {e : Expression} (hk : keyword.value = "elseif")
      (he : expression closing args = .ok e) : Parsed keyword closing args (.elseIf e)
  | otherwise (hk : keyword.value = "else") : Parsed keyword closing [] .otherwise
  | openLoop {args : List Token} {start step : Option Assignment} {test : Option Expression}
      (hk : keyword.value = "for") (hc : Clauses (separate (·.isPunct ";") args) start test step) :
      Parsed keyword closing args (.openLoop start test step)
  | openRange {args names source : List Token} {equals : Token} {key value : Option String}
      {e : Expression} (hk : keyword.value = "range")
      (hb : breakAt? (·.isOperator "=") args = some (names, equals, source))
      (hn : bindings equals names = .ok (key, value)) (he : expression closing source = .ok e) :
      Parsed keyword closing args (.openRange key value e)
  | openBlock {t : Token} (hk : keyword.value = "block") (ht : t.kind = .name) :
      Parsed keyword closing [t] (.openBlock t.value)
  | close {construct : Construct} (hk : keyword.value = construct.closer) :
      Parsed keyword closing [] (.close construct)
  | assign {args : List Token} {a : Assignment} (hk : keyword.value = "set")
      (ha : Assignment.parse keyword.line args = .ok a) : Parsed keyword closing args (.assign a)
  | inclusion {t : Token} {rest : List Token} {name : String} {params : List Assignment}
      (hk : keyword.value = "include") (ht : t.kind = .string) (hu : t.unquote = some name)
      (hp : Params rest params) : Parsed keyword closing (t :: rest) (.inclusion name params)
  | extend {t : Token} {name : String} (hk : keyword.value = "extend") (ht : t.kind = .string)
      (hu : t.unquote = some name) : Parsed keyword closing [t] (.extend name)

theorem parseLoop_clauses {closing : Token} {args : List Token} {start step : Option Assignment}
    {test : Option Expression} (h : Clauses (separate (·.isPunct ";") args) start test step) :
    parseLoop closing args = .ok (openLoop start test step) := by
  unfold parseLoop
  generalize separate (·.isPunct ";") args = parts at h
  cases h with
  | one ht => simp [ht, bind, Except.bind, pure, Except.pure]
  | three hs ht hp => simp [hs, ht, hp, bind, Except.bind, pure, Except.pure]

theorem parseInclusion_params {closing t : Token} {rest : List Token} {name : String}
    {params : List Assignment} (ht : t.kind = .string) (hu : t.unquote = some name)
    (h : Params rest params) :
    parseInclusion closing (t :: rest) = .ok (inclusion name params) := by
  have hu := template_eq_ok_iff.2 hu
  cases h with
  | none => simp [parseInclusion, ht, hu, bind, Except.bind, pure, Except.pure]
  | some hw hne hp =>
    simp [parseInclusion, ht, hu, hw, hp, hne, bind, Except.bind, pure, Except.pure]

theorem ofCloser?_eq_some {word : String} {c : Construct} (h : Construct.ofCloser? word = some c) :
    word = c.closer := by
  have hb := List.find?_some (p := fun c => Construct.closer c == word) h
  simpa using Eq.symm (by simpa using hb)

theorem parse_eq_ok_iff {keyword closing : Token} {args : List Token} {d : Directive} :
    parse keyword args closing = .ok d ↔ Parsed keyword closing args d := by
  constructor
  · intro h
    unfold parse at h
    split at h
    · rename_i hk
      obtain ⟨e, he, rfl⟩ := map_eq_ok h
      exact .openIf hk he
    · rename_i hk
      obtain ⟨e, he, rfl⟩ := map_eq_ok h
      exact .elseIf hk he
    · rename_i hk
      obtain ⟨u, hu, rfl⟩ := map_eq_ok h
      obtain rfl := noArgs_ok hu
      exact .otherwise hk
    · rename_i hk
      obtain ⟨start, test, step, rfl, hc⟩ := parseLoop_ok h
      exact .openLoop hk hc
    · rename_i hk
      obtain ⟨names, equals, source, key, value, e, hb, hn, he, rfl⟩ := parseRange_ok h
      exact .openRange hk hb hn he
    · rename_i hk
      obtain ⟨t, ht, rfl⟩ := map_eq_ok h
      obtain ⟨rfl, hkind⟩ := onlyArg_ok ht
      exact .openBlock hk hkind
    · rename_i hk
      obtain ⟨a, ha, rfl⟩ := map_eq_ok h
      exact .assign hk ha
    · rename_i hk
      obtain ⟨t, rest, name, params, rfl, ht, hu, hp, rfl⟩ := parseInclusion_ok h
      exact .inclusion hk ht hu hp
    · rename_i hk
      obtain ⟨t, ht, hname⟩ := bind_eq_ok h
      obtain ⟨rfl, hkind⟩ := onlyArg_ok ht
      obtain ⟨name, hu, hd⟩ := bind_eq_ok hname
      obtain rfl := Except.ok.inj hd
      exact .extend hk hkind (template_eq_ok_iff.1 hu)
    · split at h
      · rename_i construct hc
        obtain ⟨u, hu, rfl⟩ := map_eq_ok h
        obtain rfl := noArgs_ok hu
        exact .close (ofCloser?_eq_some hc)
      · simp at h
  · intro h
    cases h with
    | openIf hk he | elseIf hk he => simp [parse, hk, he, Except.map]
    | otherwise hk => simp [parse, hk, noArgs, Except.map]
    | openLoop hk hc => simp [parse, hk, parseLoop_clauses hc]
    | openRange hk hb hn he =>
      simp [parse, hk, parseRange, hb, hn, he, bind, Except.bind, pure, Except.pure]
    | openBlock hk ht => simp [parse, hk, onlyArg, ht, Except.map]
    | extend hk ht hu =>
      simp [parse, hk, onlyArg, ht, template_eq_ok_iff.2 hu, bind, Except.bind, pure, Except.pure]
    | @close construct hk =>
      rw [parse, hk]
      cases construct <;> rfl
    | assign hk ha => simp [parse, hk, ha, Except.map]
    | inclusion hk ht hu hp => simp [parse, hk, parseInclusion_params ht hu hp]

end Stencil.Directive
