import Stencil.Proofs.Statement.Directive
import Stencil.Statement.Draft
set_option autoImplicit false

namespace Stencil

inductive Item where
  | text (literal : String)
  | value (expr : Expression)
  | tag (directive : Directive)

inductive Segment.Says : Segment → Item → Prop where
  | text (literal : String) : Says (.text literal) (.text literal)
  | value {inside : List Token} {close : Token} {e : Expression}
      (h : Directive.expression close inside = .ok e) : Says (.value inside close) (.value e)
  | block {keyword close : Token} {args : List Token} {d : Directive}
      (h : Directive.parse keyword args close = .ok d) : Says (.block keyword args close) (.tag d)

inductive Segment.Covers : Segment → List Token → Prop where
  | text {t : Token} (ht : t.kind = .text) : Covers (.text t.value) [t]
  | value {opening close : Token} {inside : List Token} (ho : opening.kind = .valueStart)
      (hi : ∀ t ∈ inside, t.kind ≠ .valueEnd) (hc : close.kind = .valueEnd) :
      Covers (.value inside close) (opening :: inside ++ [close])
  | block {opening keyword close : Token} {args : List Token} (ho : opening.kind = .blockStart)
      (hk : keyword.kind = .name) (ha : ∀ t ∈ args, t.kind ≠ .blockEnd)
      (hc : close.kind = .blockEnd) :
      Covers (.block keyword args close) (opening :: keyword :: args ++ [close])

/-- Tokens spell items when they can be cut into segments that say these items. -/
inductive Spells : List Token → List Item → Prop where
  | nil : Spells [] []
  | cons {s : Segment} {ts more : List Token} {item : Item} {items : List Item}
      (hc : s.Covers ts) (hs : s.Says item) (hm : Spells more items) :
      Spells (ts ++ more) (item :: items)

theorem Spells.append {ts us : List Token} {items others : List Item} (h : Spells ts items)
    (h' : Spells us others) : Spells (ts ++ us) (items ++ others) := by
  induction h with
  | nil => exact h'
  | cons hc hs _ ih =>
    rw [List.append_assoc]
    exact .cons hc hs ih

theorem breakAt?_append {α : Type} {p : α → Bool} {before rest : List α} {a : α}
    (hb : ∀ b ∈ before, p b = false) (ha : p a = true) :
    breakAt? p (before ++ a :: rest) = some (before, a, rest) := by
  induction before with
  | nil => simp [breakAt?, ha]
  | cons b before ih => simp [breakAt?, hb b (by simp), ih fun c hc => hb c (by simp [hc])]

namespace Segment

theorem Covers.read {s : Segment} {ts : List Token} (h : s.Covers ts) (line : Nat)
    (more : List Token) : ∃ t rest, ts ++ more = t :: rest ∧ read line t rest = .ok (s, more) := by
  cases h with
  | @text t ht => exact ⟨t, more, rfl, by simp [Segment.read, ht]⟩
  | @value opening close inside ho hi hc =>
    have hb : breakAt? (·.kind == .valueEnd) (inside ++ close :: more)
        = some (inside, close, more) :=
      breakAt?_append (fun t ht => by simpa using hi t ht) (by simpa using hc)
    exact ⟨opening, inside ++ close :: more, by simp, by simp [Segment.read, ho, hb]⟩
  | @block opening keyword close args ho hk ha hc =>
    have hb : breakAt? (·.kind == .blockEnd) (args ++ close :: more) = some (args, close, more) :=
      breakAt?_append (fun t ht => by simpa using ha t ht) (by simpa using hc)
    exact ⟨opening, keyword :: (args ++ close :: more), by simp, by simp [Segment.read, ho, hk, hb]⟩

theorem covers_of_read {line : Nat} {t : Token} {rest after : List Token} {s : Segment}
    (h : read line t rest = .ok (s, after)) : ∃ ts, ts ++ after = t :: rest ∧ s.Covers ts := by
  unfold read at h
  dsimp only at h
  split at h
  · rename_i hk
    simp only [Except.ok.injEq, Prod.mk.injEq] at h
    obtain ⟨rfl, rfl⟩ := h
    exact ⟨[t], rfl, .text hk⟩
  · rename_i hk
    split at h
    · simp at h
    · rename_i inside close left hb
      simp only [Except.ok.injEq, Prod.mk.injEq] at h
      obtain ⟨rfl, rfl⟩ := h
      obtain ⟨rfl, hc, hi⟩ := breakAt?_eq_some hb
      refine ⟨t :: inside ++ [close], by simp, .value hk ?_ (by simpa using hc)⟩
      exact fun u hu => by simpa using hi u hu
  · rename_i hk
    split at h
    · simp at h
    · rename_i keyword rest
      split at h
      · simp at h
      · rename_i hname
        split at h
        · simp at h
        · rename_i args close left hb
          simp only [Except.ok.injEq, Prod.mk.injEq] at h
          obtain ⟨rfl, rfl⟩ := h
          obtain ⟨rfl, hc, ha⟩ := breakAt?_eq_some hb
          refine ⟨t :: keyword :: args ++ [close], by simp, .block hk ?_ ?_ (by simpa using hc)⟩
          · simpa using hname
          · exact fun u hu => by simpa using ha u hu
  · simp at h

end Segment

theorem Segment.Says.unique {s : Segment} {a b : Item} (ha : s.Says a) (hb : s.Says b) :
    a = b := by
  cases ha with
  | text literal =>
    cases hb
    rfl
  | value ha =>
    cases hb with
    | value hb => rw [Except.ok.inj (ha.symm.trans hb)]
  | block ha =>
    cases hb with
    | block hb => rw [Except.ok.inj (ha.symm.trans hb)]

theorem Spells.unique {ts : List Token} {items others : List Item} (h : Spells ts items)
    (h' : Spells ts others) : others = items := by
  generalize hus : ts = us at h'
  induction h generalizing us others with
  | nil =>
    cases h' with
    | nil => rfl
    | cons hc' _ _ =>
      obtain ⟨t, rest, heq, _⟩ := hc'.read 0 _
      exact absurd (hus.trans heq) (by simp)
  | @cons s ts more item items hc hs _ ih =>
    obtain ⟨t, rest, heq, hread⟩ := hc.read 0 more
    cases h' with
    | nil => simp [hus] at heq
    | @cons s' ts' more' item' items' hc' hs' hm' =>
      -- both cuts read the same segment first and leave the same tokens
      obtain ⟨t', rest', heq', hread'⟩ := hc'.read 0 more'
      rw [hus, heq', List.cons.injEq] at heq
      obtain ⟨rfl, rfl⟩ := heq
      rw [hread', Except.ok.injEq, Prod.mk.injEq] at hread
      obtain ⟨rfl, rfl⟩ := hread
      rw [hs.unique hs', ih _ rfl hm']

def Directive.opening? : Directive → Option Opening
  | .openIf test => some (.conditional [] (some test))
  | .openLoop start test step => some (.loop start test step)
  | .openRange key value source => some (.range key value source)
  | .openBlock name => some (.block name)
  | _ => none

def Directive.arm? : Directive → Option (Option Expression)
  | .elseIf test => some (some test)
  | .otherwise => some none
  | _ => none

def Item.statement? : Item → Option Statement
  | .value e => some (.value e)
  | .tag (.assign a) => some (.assign a)
  | .tag (.inclusion template params) => some (.inclusion template params)
  | _ => none

/-- All that one item can do to a draft. -/
inductive Draft.Step : Draft → Item → Draft → Prop where
  | text (d : Draft) (literal : String) : Step d (.text literal) (d.appendText literal)
  | statement (d : Draft) {item : Item} {s : Statement} (h : item.statement? = some s) :
      Step d item (d.append s)
  | opens (d : Draft) {dir : Directive} {o : Opening} (h : dir.opening? = some o) :
      Step d (.tag dir) (d.openTag o)
  | arm {d : Draft} {dir : Directive} {arms : List Arm} {current : Expression}
      {test : Option Expression} {outer : List Statement} {frames : List Frame}
      (h : dir.arm? = some test)
      (hf : d.frames = ⟨.conditional arms (some current), outer⟩ :: frames) :
      Step d (.tag dir) { d with
        frames := ⟨.conditional (⟨current, d.body.reverse⟩ :: arms) test, outer⟩ :: frames
        body := [] }
  | close {d : Draft} {frame : Frame} {frames : List Frame} {s : Statement}
      (hf : d.frames = frame :: frames) (hs : frame.opening.finish? d.body.reverse = some s) :
      Step d (.tag (.close frame.opening.construct)) { d with
        frames := frames
        body := s :: frame.outer }
  | extend {d : Draft} (template : String) (h : d.mayExtend = true) :
      Step d (.tag (.extend template)) { d with template := some template }

inductive Draft.Steps : Draft → List Item → Draft → Prop where
  | nil (d : Draft) : Steps d [] d
  | cons {d e f : Draft} {item : Item} {items : List Item} (h : d.Step item e)
      (hs : Steps e items f) : Steps d (item :: items) f

theorem Draft.Steps.append {d e f : Draft} {items others : List Item} (h : Steps d items e)
    (h' : Steps e others f) : Steps d (items ++ others) f := by
  induction h with
  | nil => exact h'
  | cons hd _ ih => exact .cons hd (ih h')

theorem Draft.Steps.append_inv {d f : Draft} {items others : List Item}
    (h : d.Steps (items ++ others) f) : ∃ e, d.Steps items e ∧ Steps e others f := by
  induction items generalizing d with
  | nil => exact ⟨d, .nil d, h⟩
  | cons item items ih =>
    cases h with
    | cons hd hs =>
      obtain ⟨e, hfirst, hsecond⟩ := ih hs
      exact ⟨e, .cons hd hfirst, hsecond⟩

theorem Draft.Step.steps {d e : Draft} {item : Item} (h : d.Step item e) : Steps d [item] e :=
  .cons h (.nil e)

theorem Directive.Parsed.extend_iff {keyword closing : Token} {args : List Token} {dir : Directive}
    (h : Parsed keyword closing args dir) :
    keyword.value = "extend" ↔ ∃ template, dir = .extend template := by
  cases h with
  | extend hk => simp [hk]
  | @close construct hk => cases construct <;> simp [hk, Construct.closer]
  | openIf hk | elseIf hk | otherwise hk | openLoop hk | openRange hk | openBlock hk | assign hk
  | inclusion hk => simp [hk]

namespace Draft

theorem nextArm_ok {d e : Draft} {keyword : Token} {test : Option Expression}
    (h : d.nextArm keyword test = .ok e) : ∃ arms current outer frames,
      d.frames = ⟨.conditional arms (some current), outer⟩ :: frames ∧
      e = { d with
        frames := ⟨.conditional (⟨current, d.body.reverse⟩ :: arms) test, outer⟩ :: frames
        body := [] } := by
  unfold nextArm at h
  split at h
  · rename_i arms current outer frames hf
    simp only [Except.ok.injEq] at h
    exact ⟨arms, current, outer, frames, hf, h.symm⟩
  · simp at h

theorem closeTag_ok {d e : Draft} {keyword : Token} {c : Construct}
    (h : d.closeTag keyword c = .ok e) : ∃ frame frames s, d.frames = frame :: frames ∧
      frame.opening.construct = c ∧ frame.opening.finish? d.body.reverse = some s ∧
      e = { d with
        frames := frames
        body := s :: frame.outer } := by
  unfold closeTag at h
  split at h
  · simp at h
  · rename_i frame frames hf
    split at h
    · simp at h
    · rename_i hc
      split at h
      · simp at h
      · rename_i s hs
        simp only [Except.ok.injEq] at h
        exact ⟨frame, frames, s, hf, by simpa using hc, hs, h.symm⟩

theorem step_of_accept {d e : Draft} {keyword : Token} {dir : Directive}
    (hx : ∀ template, dir = .extend template → d.mayExtend = true)
    (h : d.accept keyword dir = .ok e) : d.Step (.tag dir) e := by
  cases dir with
  | elseIf test | otherwise =>
    obtain ⟨arms, current, outer, frames, hf, rfl⟩ := nextArm_ok h
    exact .arm rfl hf
  | close c =>
    obtain ⟨frame, frames, s, hf, rfl, hs, rfl⟩ := closeTag_ok h
    exact .close hf hs
  | extend template =>
    simp only [accept, Except.ok.injEq] at h
    subst h
    exact .extend template (hx template rfl)
  | openIf test | openLoop start test step | openRange key value source | openBlock name =>
    simp only [accept, Except.ok.injEq] at h
    subst h
    exact .opens d rfl
  | assign a | inclusion template params =>
    simp only [accept, Except.ok.injEq] at h
    subst h
    exact .statement d rfl

theorem Step.accept {d e : Draft} {dir : Directive} (h : d.Step (.tag dir) e) (keyword : Token) :
    d.accept keyword dir = .ok e := by
  cases h with
  | statement hs =>
    cases dir <;> simp_all [Item.statement?, Draft.accept]
  | opens ho => cases dir <;> simp_all [Directive.opening?, Draft.accept]
  | arm ha hf => cases dir <;> simp_all [Directive.arm?, Draft.accept, nextArm]
  | close hf hs => simp [Draft.accept, closeTag, hf, hs]
  | extend template hm => rfl

/-- A draft accepts a segment exactly by taking the step of what the segment says. -/
theorem add_eq_ok_iff {d e : Draft} {s : Segment} :
    d.add s = .ok e ↔ ∃ item, s.Says item ∧ d.Step item e := by
  constructor
  · intro h
    cases s with
    | text literal =>
      simp only [add, Except.ok.injEq] at h
      subst h
      exact ⟨_, .text literal, .text d literal⟩
    | value inside close =>
      obtain ⟨v, hv, h⟩ := bind_eq_ok h
      simp only [pure, Except.pure, Except.ok.injEq] at h
      subst h
      exact ⟨_, .value hv, .statement d rfl⟩
    | block keyword args close =>
      unfold add at h
      dsimp only at h
      split at h
      · simp at h
      · rename_i hx
        obtain ⟨dir, hd, h⟩ := bind_eq_ok h
        refine ⟨_, .block hd, step_of_accept ?_ h⟩
        intro template ht
        have hk := (Directive.parse_eq_ok_iff.1 hd).extend_iff.2 ⟨template, ht⟩
        simpa [hk] using hx
  · rintro ⟨item, hs, h⟩
    cases hs with
    | text literal =>
      cases h with
      | text => rfl
      | statement hs => simp [Item.statement?] at hs
    | value hv =>
      cases h with
      | statement hs =>
        simp only [Item.statement?, Option.some.injEq] at hs
        subst hs
        simp [add, hv, bind, Except.bind, pure, Except.pure]
    | @block keyword close args dir hd =>
      have hx : (keyword.value = "extend" && !d.mayExtend) = false := by
        by_cases hk : keyword.value = "extend"
        · obtain ⟨template, rfl⟩ := (Directive.parse_eq_ok_iff.1 hd).extend_iff.1 hk
          cases h with
          | statement hs => simp [Item.statement?] at hs
          | opens ho => simp [Directive.opening?] at ho
          | arm ha => simp [Directive.arm?] at ha
          | extend _ hm => simp [hm]
        · simp [hk]
      simp only [add, hx, Bool.false_eq_true, if_false]
      simp [hd, h.accept, bind, Except.bind]

end Draft

theorem Segment.split_ok {line : Nat} {t : Token} {rest after : List Token} {s : Segment}
    (h : read line t rest = .ok (s, after)) :
    split line (t :: rest) = (s :: (split line after).1, (split line after).2) := by
  rw [split]
  split
  · rename_i hr
    simp [h] at hr
  · rename_i hr
    rw [h, Except.ok.injEq, Prod.mk.injEq] at hr
    obtain ⟨rfl, rfl⟩ := hr
    rfl

theorem spells_of_split {line : Nat} {ts : List Token} {segments : List Segment} {d e : Draft}
    (h : Segment.split line ts = (segments, none)) (hf : segments.foldlM Draft.add d = .ok e) :
    ∃ items, Spells ts items ∧ d.Steps items e := by
  fun_induction Segment.split line ts generalizing segments d with
  | case1 =>
    simp only [Prod.mk.injEq] at h
    obtain ⟨rfl, _⟩ := h
    simp only [List.foldlM_nil, pure, Except.pure, Except.ok.injEq] at hf
    subst hf
    exact ⟨[], .nil, .nil d⟩
  | case2 => simp at h
  | case3 t rest s after hr more =>
    rename_i ih
    simp only [Prod.mk.injEq] at h
    obtain ⟨rfl, hm⟩ := h
    rw [List.foldlM_cons] at hf
    obtain ⟨d', hd, hf⟩ := bind_eq_ok hf
    obtain ⟨item, hs, hstep⟩ := Draft.add_eq_ok_iff.1 hd
    obtain ⟨items, hsp, hsteps⟩ := ih (Prod.ext rfl hm) hf
    obtain ⟨us, hu, hc⟩ := Segment.covers_of_read hr
    exact ⟨item :: items, hu ▸ .cons hc hs hsp, .cons hstep hsteps⟩

theorem Spells.split {ts : List Token} {items : List Item} (h : Spells ts items) (line : Nat) :
    ∃ segments, Segment.split line ts = (segments, none) ∧
      ∀ d e, d.Steps items e → segments.foldlM Draft.add d = .ok e := by
  induction h with
  | nil =>
    refine ⟨[], by simp [Segment.split], ?_⟩
    intro d e hs
    cases hs
    rfl
  | @cons s ts more item items hc hs _ ih =>
    obtain ⟨segments, hsplit, hadd⟩ := ih
    obtain ⟨t, rest, heq, hr⟩ := hc.read line more
    refine ⟨s :: segments, ?_, ?_⟩
    · rw [heq, Segment.split_ok hr, hsplit]
    · intro d e hsteps
      cases hsteps with
      | cons hd hsteps =>
        rw [List.foldlM_cons, Draft.add_eq_ok_iff.2 ⟨item, hs, hd⟩]
        exact hadd _ e hsteps

/-- A tree is built exactly from tokens that spell items whose steps leave no tag open. -/
theorem Tree.parse_eq_ok_iff {s : TokenStream} {t : Tree} : Tree.parse s = .ok t ↔
    ∃ items body, Spells s.unread items ∧ t.statements = body.reverse ∧
      Draft.empty.Steps items ⟨[], body, t.extend⟩ := by
  constructor
  · intro h
    unfold Tree.parse Tree.ofSegments at h
    obtain ⟨d, hf, h⟩ := bind_eq_ok h
    cases hs : (Segment.split s.endLine s.unread).2 with
    | some e => simp [hs, throw, throwThe, MonadExceptOf.throw] at h
    | none =>
      obtain ⟨items, hsp, hsteps⟩ := spells_of_split (Prod.ext rfl hs) hf
      rw [hs] at h
      obtain ⟨frames, body, template⟩ := d
      cases frames with
      | nil =>
        simp only [Draft.finish, Except.ok.injEq] at h
        subst h
        exact ⟨items, body, hsp, rfl, hsteps⟩
      | cons frame frames => simp [Draft.finish] at h
  · rintro ⟨items, body, hsp, hb, hsteps⟩
    obtain ⟨segments, hs, hadd⟩ := hsp.split s.endLine
    rw [Tree.parse, Tree.ofSegments, hs, hadd _ _ hsteps]
    simp [Draft.finish, ← hb, bind, Except.bind]

end Stencil
