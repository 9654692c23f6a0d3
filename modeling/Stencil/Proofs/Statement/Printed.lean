import Stencil.Proofs.Expression.Printed
import Stencil.Proofs.Statement.Normal
import Stencil.Statement.Printer
set_option autoImplicit false

namespace Stencil

theorem separate_eq_singleton {α : Type} {p : α → Bool} {s : List α} (h : ∀ a ∈ s, p a = false) :
    separate p s = [s] := by
  induction s with
  | nil => rfl
  | cons a s ih => simp [separate, h a (by simp), ih fun b hb => h b (by simp [hb])]

theorem separate_append {α : Type} {p : α → Bool} {s rest : List α} {a : α}
    (hs : ∀ b ∈ s, p b = false) (ha : p a = true) :
    separate p (s ++ a :: rest) = s :: separate p rest := by
  induction s with
  | nil => simp [separate, ha]
  | cons b s ih => simp [separate, hs b (by simp), ih fun c hc => hs c (by simp [hc])]

def tagWords : List String :=
  ["if", "elseif", "else", "for", "range", "block", "set", "include", "with", "extend", "endif",
    "endfor", "endrange", "endblock"]

theorem name_tagWord : ∀ word ∈ tagWords, Lexeme.Name word.toList := by decide +kernel

theorem Expression.Spelt.parseIn {e : Expression} {ts : List Token} (h : Spelt e ts) :
    ts ≠ [] ∧ Expression.parseIn ts = .ok e := by
  have hp := h.parse
  refine ⟨?_, by simp [Expression.parseIn, hp, mapError_ok]⟩
  rintro rfl
  simp [Expression.parse, Stacks.takeAll, Stacks.finish, Stacks.applyGroup, Stacks.applyWhile,
    Expression.applyWhile, bind, Except.bind, pure, Except.pure] at hp

theorem SetOp.symbol_mem (op : SetOp) : op.symbol.toList ∈ Lexeme.symbols := by
  cases op <;> decide

def Assignment.Spelt (a : Assignment) (ts : List Token) : Prop :=
  (∀ line, Assignment.parse line ts = .ok a) ∧ ∀ t ∈ ts, t.Inner

theorem Assignment.Spelt.ne_nil {a : Assignment} {ts : List Token} (h : a.Spelt ts) : ts ≠ [] := by
  rintro rfl
  have hp := h.1 0
  simp [Assignment.parse] at hp

theorem operator?_of_value {t : Token} {op : SetOp} (hk : t.kind = .operator)
    (hv : t.value = String.ofList op.symbol.toList) : Assignment.operator? t = some op := by
  rw [String.ofList_toList] at hv
  simp [Assignment.operator?, hk, hv, SetOp.ofSymbol?_symbol]

theorem scans_expression {e : Expression} (h : e.Normal) : Scans (e.write [] ++ ·) e.Spelt := by
  have hw : (e.write [] ++ ·) = e.write := by
    funext tail
    exact (e.write_append tail).symm
  rw [hw]
  exact Expression.scans_write e h

/-- An assignment that counts up or down: the operator follows the target directly. -/
theorem scans_counter {target : String} {op : SetOp} (h : Lexeme.Name target.toList)
    (hop : op = .increment ∨ op = .decrement) :
    Scans ((⟨target, op, none⟩ : Assignment).write ++ ·) (Assignment.Spelt ⟨target, op, none⟩) := by
  have hends : ∀ tail, Lexeme.Ends (op.symbol.toList ++ tail) := by
    intro tail c hc
    rcases hop with rfl | rfl
    · obtain rfl : '+' = c := by simpa [SetOp.symbol] using hc
      decide
    · obtain rfl : '-' = c := by simpa [SetOp.symbol] using hc
      decide
  have hw : ((⟨target, op, none⟩ : Assignment).write ++ ·)
      = fun tail => target.toList ++ (op.symbol.toList ++ tail) := by
    funext tail
    simp [Assignment.write]
  rw [hw]
  refine (Scans.name_append h (Scans.symbol op.symbol_mem) fun tail _ => hends tail).mono ?_
  rintro _ ⟨t, _, rfl, hk, rfl, u, rfl, hu, hv⟩
  have hoperator := operator?_of_value hu hv
  have htakes : op.takesValue = false := by rcases hop with rfl | rfl <;> rfl
  refine ⟨?_, ?_⟩
  · intro line
    simp [Assignment.parse, hk, hoperator, Assignment.parseValue, htakes, Except.map]
  · intro v hv
    simp only [List.mem_cons, List.not_mem_nil, or_false] at hv
    rcases hv with rfl | rfl
    · exact Token.inner_of_kind (by simp [hk])
    · exact Token.inner_of_kind (by simp [hu])

theorem scans_assignment {a : Assignment} (h : a.Normal) : Scans (a.write ++ ·) a.Spelt := by
  obtain ⟨target, op, value⟩ := a
  obtain ⟨htarget, hnone, hvalue⟩ := h
  dsimp only at htarget hnone hvalue
  cases value with
  | none => exact scans_counter htarget (hnone.1 rfl)
  | some e =>
    have htakes : op.takesValue = true := by
      cases op <;> simp_all [SetOp.takesValue]
    have hscan := (Scans.name htarget).append
      ((Scans.symbol op.symbol_mem).append (scans_expression (hvalue e rfl)).blank
        fun _ _ => ⟨' ', _, rfl, by decide⟩).blank fun _ _ => ⟨' ', _, rfl, by decide⟩
    have hw : ((⟨target, op, some e⟩ : Assignment).write ++ ·) = fun tail =>
        target.toList ++ ' ' :: (op.symbol.toList ++ ' ' :: (e.write [] ++ tail)) := by
      funext tail
      simp [Assignment.write]
    rw [hw]
    refine hscan.mono ?_
    rintro _ ⟨_, _, rfl, ⟨t, rfl, hk, rfl⟩, _, vs, rfl, ⟨u, rfl, hu, hv⟩, hvs⟩
    have hoperator := operator?_of_value hu hv
    obtain ⟨hne, hparse⟩ := hvs.parseIn
    refine ⟨?_, ?_⟩
    · intro line
      cases vs with
      | nil => exact absurd rfl hne
      | cons v vs =>
        simp [Assignment.parse, hk, hoperator, Assignment.parseValue, htakes, hparse, Except.map]
    · intro w hw
      simp only [List.cons_append, List.nil_append, List.mem_cons] at hw
      rcases hw with rfl | rfl | hw
      · exact Token.inner_of_kind (by simp [hk])
      · exact Token.inner_of_kind (by simp [hu])
      · exact hvs.inner w hw

namespace Directive

def Tells (dir : Directive) (ts : List Token) : Prop :=
  ∃ keyword args, ts = keyword :: args ∧ keyword.kind = .name ∧ (∀ t ∈ args, t.kind ≠ .blockEnd) ∧
    ∀ closing, Parsed keyword closing args dir

def Suits (word : String) (dir : Directive) (ts : List Token) : Prop :=
  (∀ t ∈ ts, t.kind ≠ .blockEnd) ∧
    ∀ keyword closing : Token, keyword.value = word → Parsed keyword closing ts dir

theorem scans_keyword {word : String} {args : List Char} {dir : Directive}
    (hw : word ∈ tagWords) (ha : Scans (args ++ ·) (Suits word dir)) :
    Scans (word.toList ++ ' ' :: args ++ ·) (Tells dir) := by
  have hscan := (Scans.name (name_tagWord word hw)).append ha.blank
    fun _ _ => ⟨' ', _, rfl, by decide⟩
  have he : (word.toList ++ ' ' :: args ++ ·)
      = fun tail => word.toList ++ ' ' :: (args ++ tail) := by
    funext tail
    simp
  rw [he]
  refine hscan.mono ?_
  rintro _ ⟨_, us, rfl, ⟨t, rfl, hk, hv⟩, hi, hp⟩
  exact ⟨t, us, rfl, hk, hi, fun closing => hp t closing hv⟩

theorem scans_bare {word : String} {dir : Directive} (hw : word ∈ tagWords)
    (hd : Suits word dir []) : Scans (word.toList ++ ·) (Tells dir) := by
  refine (Scans.name (name_tagWord word hw)).mono ?_
  rintro _ ⟨t, rfl, hk, hv⟩
  exact ⟨t, [], rfl, hk, hd.1, fun closing => hd.2 t closing hv⟩

theorem expression_of_spelt {e : Expression} {ts : List Token} (h : e.Spelt ts) (closing : Token) :
    expression closing ts = .ok e := by
  obtain ⟨hne, hp⟩ := h.parseIn
  simp [expression, hne, hp]

theorem suits_of_spelt {word : String} {test : Expression} {dir : Directive}
    (hd : ∀ {keyword closing : Token} {args : List Token}, keyword.value = word →
      expression closing args = .ok test → Parsed keyword closing args dir)
    {ts : List Token} (h : test.Spelt ts) : Suits word dir ts :=
  ⟨fun t ht => (h.inner t ht).block, fun _ closing hk => hd hk (expression_of_spelt h closing)⟩

theorem scans_openIf {test : Expression} (h : test.Normal) :
    Scans ("if".toList ++ ' ' :: test.write [] ++ ·) (Tells (.openIf test)) :=
  scans_keyword (by decide) ((scans_expression h).mono fun _ => suits_of_spelt .openIf)

theorem scans_elseIf {test : Expression} (h : test.Normal) :
    Scans ("elseif".toList ++ ' ' :: test.write [] ++ ·) (Tells (.elseIf test)) :=
  scans_keyword (by decide) ((scans_expression h).mono fun _ => suits_of_spelt .elseIf)

theorem scans_otherwise : Scans ("else".toList ++ ·) (Tells .otherwise) :=
  scans_bare (by decide)
    ⟨by simp, fun _ _ hk => .otherwise hk⟩

theorem scans_close (c : Construct) : Scans (c.closer.toList ++ ·) (Tells (.close c)) := by
  have hw : c.closer ∈ tagWords := by cases c <;> decide
  exact scans_bare hw ⟨by simp, fun _ _ hk => .close hk⟩

theorem scans_openBlock {name : String} (h : Lexeme.Name name.toList) :
    Scans ("block".toList ++ ' ' :: name.toList ++ ·) (Tells (.openBlock name)) := by
  refine scans_keyword (by decide)
    ((Scans.name h).mono ?_)
  rintro _ ⟨t, rfl, hk, rfl⟩
  exact ⟨by simp [hk], fun _ _ hw => .openBlock hw hk⟩

theorem scans_assign {a : Assignment} (h : a.Normal) :
    Scans ("set".toList ++ ' ' :: a.write ++ ·) (Tells (.assign a)) := by
  refine scans_keyword (by decide)
    ((scans_assignment h).mono fun ts hts => ⟨fun t ht => (hts.2 t ht).block, ?_⟩)
  exact fun keyword closing hk => .assign hk (hts.1 _)

theorem scans_extend (template : String) :
    Scans ("extend".toList ++ ' ' :: Text.Quoted.write template.toList ++ ·)
      (Tells (.extend template)) := by
  refine scans_keyword (by decide)
    ((Scans.string template).mono ?_)
  rintro _ ⟨t, rfl, hk, ht⟩
  exact ⟨by simp [hk], fun _ _ hw => .extend hw hk ht⟩

theorem assignment?_of_spelt {a : Assignment} {ts : List Token} (h : a.Spelt ts) :
    assignment? ts = .ok (some a) := by
  cases ts with
  | nil => exact absurd rfl h.ne_nil
  | cons t ts => simp [assignment?, h.1, Except.map]

theorem ne_blockEnd_of_isPunct {t : Token} {mark : String} (h : t.isPunct mark = true) :
    t.kind ≠ .blockEnd := by
  simp [(Expression.kind_of_isPunct h).1]

theorem Inner.parts {ts : List Token} (h : ∀ t ∈ ts, t.Inner) :
    ∀ t ∈ ts, t.isPunct ";" = false := fun t ht => (h t ht).part

theorem scans_expression? {test : Option Expression} (h : ∀ e ∈ test, e.Normal) :
    Scans ((test.map fun e => e.write []).getD [] ++ ·) fun ts =>
      expression? ts = .ok test ∧ ∀ t ∈ ts, t.Inner := by
  cases test with
  | none =>
    refine Scans.nothing.mono ?_
    rintro ts rfl
    exact ⟨rfl, by simp⟩
  | some e =>
    refine (scans_expression (h e rfl)).mono fun ts hts => ?_
    obtain ⟨hne, hp⟩ := hts.parseIn
    exact ⟨by simp [expression?, hne, hp, Except.map], hts.inner⟩

theorem scans_assignment? {a : Option Assignment} (h : ∀ b ∈ a, b.Normal) :
    Scans ((a.map Assignment.write).getD [] ++ ·) fun ts =>
      assignment? ts = .ok a ∧ ∀ t ∈ ts, t.Inner := by
  cases a with
  | none =>
    refine Scans.nothing.mono ?_
    rintro ts rfl
    exact ⟨rfl, by simp⟩
  | some a =>
    exact (scans_assignment (h a rfl)).mono fun ts hts => ⟨assignment?_of_spelt hts, hts.2⟩

theorem scans_clauses {start step : Option Assignment} {test : Option Expression}
    (hs : ∀ a ∈ start, a.Normal) (ht : ∀ e ∈ test, e.Normal) (hp : ∀ a ∈ step, a.Normal) :
    Scans ((start.map Assignment.write).getD [] ++ ';' :: ' ' ::
        (test.map fun e => e.write []).getD [] ++ ';' :: ' ' ::
        (step.map Assignment.write).getD [] ++ ·)
      (Suits "for" (.openLoop start test step)) := by
  have hmark := Scans.mark (c := ';') (.inr rfl)
  have hrest := (scans_expression? ht).append
    (hmark.append (scans_assignment? hp).blank fun _ _ => ⟨' ', _, rfl, by decide⟩)
    fun _ _ => ⟨';', _, rfl, by decide⟩
  have hscan := (scans_assignment? hs).append
    (hmark.append hrest.blank fun _ _ => ⟨' ', _, rfl, by decide⟩)
    fun _ _ => ⟨';', _, rfl, by decide⟩
  have hw : ((start.map Assignment.write).getD [] ++ ';' :: ' ' ::
        (test.map fun e => e.write []).getD [] ++ ';' :: ' ' ::
        (step.map Assignment.write).getD [] ++ ·) = fun tail =>
      (start.map Assignment.write).getD [] ++ ';' :: ' ' ::
        ((test.map fun e => e.write []).getD [] ++ ';' :: ' ' ::
          ((step.map Assignment.write).getD [] ++ tail)) := by
    funext tail
    simp
  rw [hw]
  refine hscan.mono ?_
  rintro _ ⟨us, _, rfl, ⟨hstart, hui⟩, _, _, rfl, ⟨t, rfl, hsemi⟩, vs, _, rfl, ⟨htest, hvi⟩, _, ws,
    rfl, ⟨u, rfl, hsemi'⟩, hstep, hwi⟩
  refine ⟨?_, fun keyword closing hk => .openLoop hk ?_⟩
  · intro v hv
    simp only [List.cons_append, List.nil_append, List.mem_append, List.mem_cons] at hv
    rcases hv with hv | rfl | hv | rfl | hv
    · exact (hui v hv).block
    · exact ne_blockEnd_of_isPunct hsemi
    · exact (hvi v hv).block
    · exact ne_blockEnd_of_isPunct hsemi'
    · exact (hwi v hv).block
  · have hsep : separate (·.isPunct ";") (us ++ ([t] ++ (vs ++ ([u] ++ ws)))) = [us, vs, ws] := by
      rw [List.singleton_append, separate_append (Inner.parts hui) hsemi, List.singleton_append,
        separate_append (Inner.parts hvi) hsemi', separate_eq_singleton (Inner.parts hwi)]
    rw [hsep]
    exact .three hstart htest hstep

theorem scans_openLoop {start step : Option Assignment} {test : Option Expression}
    (hs : ∀ a ∈ start, a.Normal) (ht : ∀ e ∈ test, e.Normal) (hp : ∀ a ∈ step, a.Normal) :
    Scans ("for".toList ++ ' ' :: Statement.writeClauses start test step ++ ·)
      (Tells (.openLoop start test step)) := by
  refine scans_keyword (by decide) ?_
  cases start with
  | none =>
    cases step with
    | none =>
      refine (scans_expression? ht).mono ?_
      rintro ts ⟨htest, hi⟩
      refine ⟨fun t hm => (hi t hm).block, fun keyword closing hk => .openLoop hk ?_⟩
      rw [separate_eq_singleton (Inner.parts hi)]
      exact .one htest
    | some step => exact scans_clauses hs ht hp
  | some start => cases step <;> exact scans_clauses hs ht hp

theorem binding_getD {name : Option String} (h : ∀ n ∈ name, Statement.Bound n) {t : Token}
    (ht : t.value = name.getD "_") : binding t = name := by
  cases name with
  | none => simp [binding, ht]
  | some n =>
    have hn : n ≠ "_" := (h n rfl).2
    simp [binding, ht, hn]

theorem name_getD {name : Option String} (h : ∀ n ∈ name, Statement.Bound n) :
    Lexeme.Name (name.getD "_").toList := by
  cases name with
  | none => decide
  | some n => exact (h n rfl).1

theorem scans_bindings {key value : Option String} (hk : ∀ n ∈ key, Statement.Bound n)
    (hv : ∀ n ∈ value, Statement.Bound n) :
    Scans (Statement.writeBindings key value ++ ·) fun ts =>
      (∀ equals, bindings equals ts = .ok (key, value)) ∧ ∀ t ∈ ts, t.kind ≠ .operator ∧
        t.kind ≠ .blockEnd := by
  cases value with
  | none =>
    refine (Scans.name (name_getD hk)).mono ?_
    rintro _ ⟨t, rfl, hkind, hval⟩
    refine ⟨fun equals => ?_, by simp [hkind]⟩
    simp [bindings, misplaced?, hkind, binding_getD hk hval]
  | some v =>
    have hscan := (Scans.name (name_getD hk)).append
      ((Scans.mark (c := ',') (.inl rfl)).append (Scans.name (hv v rfl).1).blank
        fun _ _ => ⟨' ', _, rfl, by decide⟩) fun _ _ => ⟨',', _, rfl, by decide⟩
    have hw : (Statement.writeBindings key (some v) ++ ·) = fun tail =>
        (key.getD "_").toList ++ ',' :: ' ' :: (v.toList ++ tail) := by
      funext tail
      simp [Statement.writeBindings, Statement.writeBinding]
    rw [hw]
    refine hscan.mono ?_
    rintro _ ⟨_, _, rfl, ⟨t, rfl, hkind, hval⟩, _, _, rfl, ⟨c, rfl, hc⟩, u, rfl, hkind', hval'⟩
    have hc' := (Expression.kind_of_isPunct hc).1
    refine ⟨fun equals => ?_, by simp [hkind, hkind', hc']⟩
    have hcomma : c.isPunct "," = true := hc
    simp [bindings, misplaced?, hkind, hkind', hcomma, binding_getD hk hval,
      binding_getD hv (show u.value = (some v).getD "_" from hval')]

theorem scans_openRange {key value : Option String} {source : Expression}
    (hk : ∀ n ∈ key, Statement.Bound n) (hv : ∀ n ∈ value, Statement.Bound n)
    (hs : source.Normal) :
    Scans ("range".toList ++ ' ' :: (Statement.writeBindings key value ++ " = ".toList ++
      source.write []) ++ ·) (Tells (.openRange key value source)) := by
  refine scans_keyword (by decide) ?_
  have hscan := (scans_bindings hk hv).append
    ((Scans.symbol (s := ['=']) (by decide)).append (scans_expression hs).blank
      fun _ _ => ⟨' ', _, rfl, by decide⟩).blank fun _ _ => ⟨' ', _, rfl, by decide⟩
  have hw : (Statement.writeBindings key value ++ " = ".toList ++ source.write [] ++ ·) =
      fun tail => Statement.writeBindings key value ++ ' ' :: (['='] ++ ' ' ::
        (source.write [] ++ tail)) := by
    funext tail
    simp
  rw [hw]
  refine hscan.mono ?_
  rintro _ ⟨names, _, rfl, ⟨hb, hnames⟩, _, vs, rfl, ⟨t, rfl, hkind, hval⟩, hvs⟩
  refine ⟨?_, fun keyword closing hw => ?_⟩
  · intro u hu
    simp only [List.mem_append, List.mem_cons, List.not_mem_nil, or_false] at hu
    rcases hu with hu | rfl | hu
    · exact (hnames u hu).2
    · simp [hkind]
    · exact (hvs.inner u hu).block
  · have hequals : t.isOperator "=" = true := by
      simp [Token.isOperator, hkind, hval]
    have hbreak : breakAt? (·.isOperator "=") (names ++ ([t] ++ vs)) = some (names, t, vs) :=
      breakAt?_append (fun u hu => by simp [Token.isOperator, (hnames u hu).1]) hequals
    exact .openRange hw hbreak (hb t) (expression_of_spelt hvs closing)

theorem scans_params {params : List Assignment} (hne : params ≠ [])
    (h : ∀ a ∈ params, a.Normal) :
    Scans (Statement.writeParams params ++ ·) fun ts =>
      parseParams (separate (·.isPunct ";") ts) = .ok params ∧ ∀ t ∈ ts, t.kind ≠ .blockEnd := by
  induction params with
  | nil => exact absurd rfl hne
  | cons a rest ih =>
    have ha := scans_assignment (h a (by simp))
    cases rest with
    | nil =>
      refine ha.mono fun ts hts => ⟨?_, fun t ht => (hts.2 t ht).block⟩
      rw [separate_eq_singleton (Inner.parts hts.2)]
      simp [parseParams, assignment?_of_spelt hts, bind, Except.bind, pure, Except.pure]
    | cons b rest =>
      have hrest := ih (by simp) fun c hc => h c (by simp [hc])
      have hscan := ha.append
        ((Scans.mark (c := ';') (.inr rfl)).append hrest.blank fun _ _ => ⟨' ', _, rfl, by decide⟩)
        fun _ _ => ⟨';', _, rfl, by decide⟩
      have hw : (Statement.writeParams (a :: b :: rest) ++ ·) = fun tail =>
          a.write ++ ';' :: ' ' :: (Statement.writeParams (b :: rest) ++ tail) := by
        funext tail
        simp [Statement.writeParams]
      rw [hw]
      refine hscan.mono ?_
      rintro _ ⟨us, _, rfl, hus, _, vs, rfl, ⟨t, rfl, ht⟩, hvs, hvi⟩
      refine ⟨?_, ?_⟩
      · rw [List.singleton_append, separate_append (Inner.parts hus.2) ht]
        simp [parseParams, assignment?_of_spelt hus, hvs, bind, Except.bind, pure, Except.pure]
      · intro u hu
        simp only [List.cons_append, List.nil_append, List.mem_append, List.mem_cons] at hu
        rcases hu with hu | rfl | hu
        · exact (hus.2 u hu).block
        · exact ne_blockEnd_of_isPunct ht
        · exact hvi u hu

theorem scans_inclusion {template : String} {params : List Assignment}
    (h : ∀ a ∈ params, a.Normal) :
    Scans ("include".toList ++ ' ' :: Statement.writeInclusion template params ++ ·)
      (Tells (.inclusion template params)) := by
  refine scans_keyword (by decide) ?_
  cases params with
  | nil =>
    refine (Scans.string template).mono ?_
    rintro _ ⟨t, rfl, hk, ht⟩
    exact ⟨by simp [hk], fun _ _ hw => .inclusion hw hk ht .none⟩
  | cons a rest =>
    have hwith := name_tagWord "with" (by decide)
    have hscan := (Scans.string template).append
      ((Scans.name hwith).append (scans_params (by simp) h).blank
        fun _ _ => ⟨' ', _, rfl, by decide⟩).blank fun _ _ => ⟨' ', _, rfl, by decide⟩
    have hw : (Statement.writeInclusion template (a :: rest) ++ ·) = fun tail =>
        Text.Quoted.write template.toList ++ ' ' :: ("with".toList ++ ' ' ::
          (Statement.writeParams (a :: rest) ++ tail)) := by
      funext tail
      simp [Statement.writeInclusion]
    rw [hw]
    refine hscan.mono ?_
    rintro _ ⟨_, _, rfl, ⟨t, rfl, hk, ht⟩, _, vs, rfl, ⟨u, rfl, hu, huv⟩, hp, hvi⟩
    refine ⟨?_, fun _ _ hw => .inclusion hw hk ht (.some ?_ (by simp) hp)⟩
    · intro v hv
      simp only [List.cons_append, List.nil_append, List.mem_cons] at hv
      rcases hv with rfl | rfl | hv
      · simp [hk]
      · simp [hu]
      · exact hvi v hv
    · simp [Token.isName, hu, huv]

end Directive

end Stencil
