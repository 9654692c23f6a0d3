import Mathlib.Data.List.Chain
import Stencil.Proofs.Compiling
import Stencil.Proofs.Expression.Normal
set_option autoImplicit false

namespace Stencil

namespace Statement

def isText : Statement → Bool
  | text _ => true
  | _ => false

def Apart (body : List Statement) : Prop := body.IsChain fun a b => ¬(a.isText ∧ b.isText)

def Bound (name : String) : Prop := Lexeme.Name name.toList ∧ name ≠ "_"

end Statement

mutual

def Statement.Normal : Statement → Prop
  | .text literal => literal ≠ "" ∧ '\r' ∉ literal.toList
  | .value e => e.Normal
  | .assign a => a.Normal
  | .conditional test body branch =>
    test.Normal ∧ Statement.Apart body ∧ Statement.AllNormal body ∧ branch.Normal
  | .loop start test step body =>
    (∀ a ∈ start, a.Normal) ∧ (∀ e ∈ test, e.Normal) ∧ (∀ a ∈ step, a.Normal) ∧
      Statement.Apart body ∧ Statement.AllNormal body
  | .range key value source body =>
    (∀ n ∈ key, Statement.Bound n) ∧ (∀ n ∈ value, Statement.Bound n) ∧ source.Normal ∧
      Statement.Apart body ∧ Statement.AllNormal body
  | .block name body =>
    Lexeme.Name name.toList ∧ Statement.Apart body ∧ Statement.AllNormal body
  | .inclusion _ params => ∀ a ∈ params, a.Normal

def Statement.AllNormal : List Statement → Prop
  | [] => True
  | s :: rest => s.Normal ∧ Statement.AllNormal rest

def Branch.Normal : Branch → Prop
  | .none => True
  | .elseIf test body branch =>
    test.Normal ∧ Statement.Apart body ∧ Statement.AllNormal body ∧ branch.Normal
  | .otherwise body => Statement.Apart body ∧ Statement.AllNormal body

end

def Tree.Normal (t : Tree) : Prop :=
  Statement.Apart t.statements ∧ Statement.AllNormal t.statements

instance : DecidablePred Statement.Apart := fun body =>
  inferInstanceAs (Decidable (body.IsChain fun a b => ¬(a.isText ∧ b.isText)))

instance : DecidablePred Statement.Bound := fun name =>
  inferInstanceAs (Decidable (Lexeme.Name name.toList ∧ name ≠ "_"))

mutual

def Statement.decNormal : (s : Statement) → Decidable s.Normal
  | .text literal => inferInstanceAs (Decidable (literal ≠ "" ∧ '\r' ∉ literal.toList))
  | .value e => inferInstanceAs (Decidable e.Normal)
  | .assign a => inferInstanceAs (Decidable a.Normal)
  | .conditional test body branch =>
    have := Statement.decAllNormal body
    have := branch.decNormal
    inferInstanceAs (Decidable (test.Normal ∧ Statement.Apart body ∧ Statement.AllNormal body ∧
      branch.Normal))
  | .loop start test step body =>
    have := Statement.decAllNormal body
    inferInstanceAs (Decidable ((∀ a ∈ start, a.Normal) ∧ (∀ e ∈ test, e.Normal) ∧
      (∀ a ∈ step, a.Normal) ∧ Statement.Apart body ∧ Statement.AllNormal body))
  | .range key value source body =>
    have := Statement.decAllNormal body
    inferInstanceAs (Decidable ((∀ n ∈ key, Statement.Bound n) ∧ (∀ n ∈ value, Statement.Bound n) ∧
      source.Normal ∧ Statement.Apart body ∧ Statement.AllNormal body))
  | .block name body =>
    have := Statement.decAllNormal body
    inferInstanceAs (Decidable (Lexeme.Name name.toList ∧ Statement.Apart body ∧
      Statement.AllNormal body))
  | .inclusion _ params => inferInstanceAs (Decidable (∀ a ∈ params, a.Normal))

def Statement.decAllNormal : (body : List Statement) → Decidable (Statement.AllNormal body)
  | [] => inferInstanceAs (Decidable True)
  | s :: rest =>
    have := s.decNormal
    have := Statement.decAllNormal rest
    inferInstanceAs (Decidable (s.Normal ∧ Statement.AllNormal rest))

def Branch.decNormal : (branch : Branch) → Decidable branch.Normal
  | .none => inferInstanceAs (Decidable True)
  | .elseIf test body branch =>
    have := Statement.decAllNormal body
    have := branch.decNormal
    inferInstanceAs (Decidable (test.Normal ∧ Statement.Apart body ∧ Statement.AllNormal body ∧
      branch.Normal))
  | .otherwise body =>
    have := Statement.decAllNormal body
    inferInstanceAs (Decidable (Statement.Apart body ∧ Statement.AllNormal body))

end

instance : DecidablePred Tree.Normal := fun t =>
  have := Statement.decAllNormal t.statements
  inferInstanceAs (Decidable (Statement.Apart t.statements ∧ Statement.AllNormal t.statements))

namespace Statement

theorem allNormal_iff {body : List Statement} : AllNormal body ↔ ∀ s ∈ body, s.Normal := by
  induction body with
  | nil => simp [AllNormal]
  | cons s rest ih => simp [AllNormal, ih]

theorem Apart.reverse {body : List Statement} (h : Apart body) : Apart body.reverse := by
  rw [Apart, List.isChain_reverse]
  exact List.IsChain.imp (fun a b hab hba => hab hba.symm) h

/-- A normal body, whichever of its ends comes first. -/
structure Sound (body : List Statement) : Prop where
  apart : Apart body
  normal : AllNormal body

theorem sound_nil : Sound [] := ⟨.nil, trivial⟩

theorem Sound.cons {s : Statement} {body : List Statement} (hs : s.Normal)
    (ht : s.isText = false) (h : Sound body) : Sound (s :: body) := by
  refine ⟨?_, hs, h.normal⟩
  cases body with
  | nil => exact .singleton s
  | cons a body => exact .cons_cons (by simp [ht]) h.apart

theorem Sound.reverse {body : List Statement} (h : Sound body) : Sound body.reverse := by
  constructor
  · exact h.apart.reverse
  · rw [allNormal_iff]
    intro s hs
    exact allNormal_iff.1 h.normal s (List.mem_reverse.1 hs)

theorem Sound.replace {a b : String} {rest : List Statement} (h : Sound (.text a :: rest))
    (hb : (Statement.text b).Normal) : Sound (.text b :: rest) := by
  refine ⟨?_, hb, h.normal.2⟩
  cases rest with
  | nil => exact .singleton _
  | cons s rest =>
    cases h.apart with
    | cons_cons hs hrest => exact .cons_cons hs hrest

end Statement

open Statement (Sound)

def Opening.Normal : Opening → Prop
  | conditional arms test =>
    (∀ arm ∈ arms, arm.test.Normal ∧ Sound arm.body) ∧ ∀ e ∈ test, e.Normal
  | loop start test step =>
    (∀ a ∈ start, a.Normal) ∧ (∀ e ∈ test, e.Normal) ∧ ∀ a ∈ step, a.Normal
  | range key value source =>
    (∀ n ∈ key, Statement.Bound n) ∧ (∀ n ∈ value, Statement.Bound n) ∧ source.Normal
  | block name => Lexeme.Name name.toList

structure Draft.Normal (d : Draft) : Prop where
  body : Sound d.body
  frames : ∀ f ∈ d.frames, f.opening.Normal ∧ Sound f.outer

def Directive.Normal : Directive → Prop
  | openIf test | elseIf test => test.Normal
  | openLoop start test step =>
    (∀ a ∈ start, a.Normal) ∧ (∀ e ∈ test, e.Normal) ∧ ∀ a ∈ step, a.Normal
  | openRange key value source =>
    (∀ n ∈ key, Statement.Bound n) ∧ (∀ n ∈ value, Statement.Bound n) ∧ source.Normal
  | openBlock name => Lexeme.Name name.toList
  | assign a => a.Normal
  | inclusion _ params => ∀ a ∈ params, a.Normal
  | otherwise | close _ | extend _ => True

def Item.Normal : Item → Prop
  | text literal => literal ≠ "" ∧ '\r' ∉ literal.toList
  | value e => e.Normal
  | tag d => d.Normal

namespace Directive

theorem expression_normal {close : Token} {ts : List Token} {e : Expression}
    (h : expression close ts = .ok e) (ht : ∀ t ∈ ts, t.Lexical) : e.Normal :=
  Expression.parseIn_normal (expression_ok h).2 ht

theorem expression?_normal {ts : List Token} {test : Option Expression}
    (h : expression? ts = .ok test) (ht : ∀ t ∈ ts, t.Lexical) : ∀ e ∈ test, e.Normal := by
  obtain ⟨_, rfl⟩ | ⟨e, rfl, he⟩ := expression?_ok h
  · simp
  · simpa using Expression.parseIn_normal he ht

theorem assignment?_normal {ts : List Token} {a : Option Assignment}
    (h : assignment? ts = .ok a) (ht : ∀ t ∈ ts, t.Lexical) : ∀ b ∈ a, b.Normal := by
  obtain ⟨_, rfl⟩ | ⟨line, b, rfl, hb⟩ := assignment?_ok h
  · simp
  · simpa using Assignment.parse_normal hb ht

theorem Clauses.normal {parts : List (List Token)} {start step : Option Assignment}
    {test : Option Expression} (h : Clauses parts start test step)
    (ht : ∀ part ∈ parts, ∀ t ∈ part, t.Lexical) : (openLoop start test step).Normal := by
  cases h with
  | one he => exact ⟨by simp, expression?_normal he (ht _ (by simp)), by simp⟩
  | three hs he hp =>
    exact ⟨assignment?_normal hs (ht _ (by simp)), expression?_normal he (ht _ (by simp)),
      assignment?_normal hp (ht _ (by simp))⟩

theorem parseParams_normal {parts : List (List Token)} {params : List Assignment}
    (h : parseParams parts = .ok params) (ht : ∀ part ∈ parts, ∀ t ∈ part, t.Lexical) :
    ∀ a ∈ params, a.Normal := by
  induction parts generalizing params with
  | nil =>
    simp only [parseParams, Except.ok.injEq] at h
    simp [← h]
  | cons part parts ih =>
    have hparts : ∀ part ∈ parts, ∀ t ∈ part, t.Lexical := fun q hq => ht q (by simp [hq])
    obtain ⟨a, ha, h⟩ := bind_eq_ok h
    have hpart := assignment?_normal ha (ht part (by simp))
    cases a with
    | none => exact ih h hparts
    | some a =>
      obtain ⟨rest, hr, h⟩ := bind_eq_ok h
      simp only [pure, Except.pure, Except.ok.injEq] at h
      subst h
      intro b hb
      cases hb with
      | head => exact hpart a rfl
      | tail _ hb => exact ih hr hparts b hb

theorem bound_of_binding {t : Token} (hk : t.kind = .name) (ht : t.Lexical) :
    ∀ n ∈ binding t, Statement.Bound n := by
  intro n hn
  unfold binding at hn
  split at hn
  · simp at hn
  · rename_i hu
    simp only [Option.mem_def, Option.some.injEq] at hn
    subst hn
    exact ⟨ht.name hk, hu⟩

theorem bindings_normal {equals : Token} {names : List Token} {key value : Option String}
    (h : bindings equals names = .ok (key, value)) (ht : ∀ t ∈ names, t.Lexical) :
    (∀ n ∈ key, Statement.Bound n) ∧ ∀ n ∈ value, Statement.Bound n := by
  obtain ⟨k, rfl, hk, rfl, rfl⟩ | ⟨k, comma, v, rfl, hk, _, hv, rfl, rfl⟩ := bindings_ok h
  · exact ⟨bound_of_binding hk (ht k (by simp)), by simp⟩
  · exact ⟨bound_of_binding hk (ht k (by simp)), bound_of_binding hv (ht v (by simp))⟩

theorem Parsed.normal {keyword closing : Token} {args : List Token} {d : Directive}
    (h : Parsed keyword closing args d) (ht : ∀ t ∈ args, t.Lexical) : d.Normal := by
  have hparts {ts : List Token} (hts : ts ⊆ args) :
      ∀ part ∈ separate (·.isPunct ";") ts, ∀ t ∈ part, t.Lexical :=
    fun part hp t hm => ht t (hts (mem_of_mem_separate hp hm))
  cases h with
  | openIf _ he | elseIf _ he => exact expression_normal he ht
  | otherwise | close | extend => trivial
  | openLoop _ hc => exact hc.normal (hparts (fun _ hm => hm))
  | openRange _ hb hn he =>
    obtain ⟨rfl, _, _⟩ := breakAt?_eq_some hb
    obtain ⟨hkey, hvalue⟩ := bindings_normal hn fun t hm => ht t (by simp [hm])
    exact ⟨hkey, hvalue, expression_normal he fun t hm => ht t (by simp [hm])⟩
  | @openBlock t _ hk => exact (ht t (by simp)).name hk
  | assign _ ha => exact Assignment.parse_normal ha ht
  | inclusion _ _ _ hp =>
    cases hp with
    | none => simp [Directive.Normal]
    | some _ _ hp =>
      exact parseParams_normal hp (hparts (fun _ hm => by simp [hm]))

end Directive

theorem Spells.normal {ts : List Token} {items : List Item} (h : Spells ts items)
    (ht : ∀ t ∈ ts, t.Lexical) : ∀ item ∈ items, item.Normal := by
  induction h with
  | nil => simp
  | @cons s ts more item items hc hs _ ih =>
    have hitem : item.Normal := by
      cases hc with
      | @text t hk =>
        cases hs with
        | text => exact (ht t (by simp)).text hk
      | value _ _ _ =>
        cases hs with
        | value he => exact Directive.expression_normal he fun t hm => ht t (by simp [hm])
      | block _ _ _ _ =>
        cases hs with
        | block hd =>
          exact (Directive.parse_eq_ok_iff.1 hd).normal fun t hm => ht t (by simp [hm])
    have hmore := ih fun t hm => ht t (by simp [hm])
    intro i hi
    cases hi with
    | head => exact hitem
    | tail _ hi => exact hmore i hi

theorem Branch.link_normal {arms : List Arm} {branch : Branch}
    (ha : ∀ arm ∈ arms, arm.test.Normal ∧ Sound arm.body) (hb : branch.Normal) :
    (Branch.link arms branch).Normal := by
  induction arms generalizing branch with
  | nil => exact hb
  | cons arm earlier ih =>
    obtain ⟨htest, hbody⟩ := ha arm (by simp)
    exact ih (fun a hm => ha a (by simp [hm])) ⟨htest, hbody.apart, hbody.normal, hb⟩

theorem Branch.conditional?_normal {branch : Branch} {s : Statement}
    (h : branch.conditional? = some s) (hb : branch.Normal) : s.Normal ∧ s.isText = false := by
  cases branch with
  | none | otherwise => simp [Branch.conditional?] at h
  | elseIf test body branch =>
    simp only [Branch.conditional?, Option.some.injEq] at h
    subst h
    exact ⟨hb, rfl⟩

theorem Opening.finish?_normal {o : Opening} {body : List Statement} {s : Statement}
    (h : o.finish? body = some s) (ho : o.Normal) (hb : Sound body) :
    s.Normal ∧ s.isText = false := by
  cases o with
  | conditional arms test =>
    obtain ⟨harms, htest⟩ := ho
    cases test with
    | some test =>
      refine Branch.conditional?_normal h (Branch.link_normal ?_ trivial)
      intro arm hm
      cases hm with
      | head => exact ⟨htest test rfl, hb⟩
      | tail _ hm => exact harms arm hm
    | none =>
      exact Branch.conditional?_normal h (Branch.link_normal harms ⟨hb.apart, hb.normal⟩)
  | loop start test step =>
    simp only [finish?, Option.some.injEq] at h
    subst h
    obtain ⟨hs, ht, hp⟩ := ho
    exact ⟨⟨hs, ht, hp, hb.apart, hb.normal⟩, rfl⟩
  | range key value source =>
    simp only [finish?, Option.some.injEq] at h
    subst h
    obtain ⟨hk, hv, hs⟩ := ho
    exact ⟨⟨hk, hv, hs, hb.apart, hb.normal⟩, rfl⟩
  | block name =>
    simp only [finish?, Option.some.injEq] at h
    subst h
    exact ⟨⟨ho, hb.apart, hb.normal⟩, rfl⟩

theorem Directive.opening?_normal {dir : Directive} {o : Opening} (h : dir.opening? = some o)
    (hd : dir.Normal) : o.Normal := by
  cases dir <;> simp_all [opening?] <;> subst h <;> simp_all [Opening.Normal, Directive.Normal]

theorem Directive.arm?_normal {dir : Directive} {test : Option Expression}
    (h : dir.arm? = some test) (hd : dir.Normal) : ∀ e ∈ test, e.Normal := by
  cases dir <;> simp_all [arm?] <;> subst h <;> simp_all [Directive.Normal]

theorem Item.statement?_normal {item : Item} {s : Statement} (h : item.statement? = some s)
    (hi : item.Normal) : s.Normal ∧ s.isText = false := by
  cases item with
  | text literal => simp [Item.statement?] at h
  | value e =>
    simp only [Item.statement?, Option.some.injEq] at h
    subst h
    exact ⟨hi, rfl⟩
  | tag dir =>
    cases dir with
    | assign a | inclusion template params =>
      simp only [Item.statement?, Option.some.injEq] at h
      subst h
      exact ⟨hi, rfl⟩
    | _ => simp [Item.statement?] at h

namespace Draft

theorem Normal.appendText {d : Draft} {literal : String} (hd : d.Normal)
    (hl : (Statement.text literal).Normal) : (d.appendText literal).Normal := by
  obtain ⟨hbody, hframes⟩ := hd
  unfold Draft.appendText
  split
  · rename_i before rest hb
    rw [hb] at hbody
    refine ⟨hbody.replace ⟨?_, ?_⟩, hframes⟩
    · exact fun he => hl.1 (String.append_eq_empty_iff.1 he).2
    · have hbefore : '\r' ∉ before.toList := hbody.normal.1.2
      simp [hbefore, hl.2]
  · rename_i hno
    refine ⟨⟨?_, hl, hbody.normal⟩, hframes⟩
    cases hb : d.body with
    | nil => exact .singleton _
    | cons s rest =>
      have hs : s.isText = false := by
        cases s with
        | text before => exact absurd hb (hno before rest)
        | _ => rfl
      exact .cons_cons (by simp [hs]) (hb ▸ hbody.apart)

theorem Step.normal {d e : Draft} {item : Item} (h : d.Step item e) (hd : d.Normal)
    (hi : item.Normal) : e.Normal := by
  cases h with
  | text => exact hd.appendText hi
  | statement hs =>
    obtain ⟨hn, ht⟩ := Item.statement?_normal hs hi
    exact ⟨hd.body.cons hn ht, hd.frames⟩
  | opens ho =>
    refine ⟨Statement.sound_nil, ?_⟩
    intro f hf
    cases hf with
    | head => exact ⟨Directive.opening?_normal ho hi, hd.body⟩
    | tail _ hf => exact hd.frames f hf
  | @arm dir arms current test outer frames ha hf =>
    obtain ⟨⟨harms, hcurrent⟩, houter⟩ := hd.frames ⟨.conditional arms (some current), outer⟩
      (by simp [hf])
    refine ⟨Statement.sound_nil, ?_⟩
    intro f hm
    cases hm with
    | head =>
      refine ⟨⟨?_, Directive.arm?_normal ha hi⟩, houter⟩
      intro arm harm
      cases harm with
      | head => exact ⟨hcurrent current rfl, hd.body.reverse⟩
      | tail _ harm => exact harms arm harm
    | tail _ hm => exact hd.frames f (hf ▸ List.mem_cons_of_mem _ hm)
  | @close frame frames s hf hs =>
    obtain ⟨ho, houter⟩ := hd.frames frame (by simp [hf])
    obtain ⟨hn, ht⟩ := Opening.finish?_normal hs ho hd.body.reverse
    exact ⟨houter.cons hn ht, fun f hm => hd.frames f (by simp [hf, hm])⟩
  | extend => exact ⟨hd.body, hd.frames⟩

theorem Steps.normal {d e : Draft} {items : List Item} (h : d.Steps items e) (hd : d.Normal)
    (hi : ∀ item ∈ items, item.Normal) : e.Normal := by
  induction h with
  | nil => exact hd
  | @cons d e f item items hstep _ ih =>
    exact ih (hstep.normal hd (hi item (by simp))) fun i hm => hi i (by simp [hm])

end Draft

theorem Token.Lexical.content {t : Token} (h : t.Lexical) : t.unquote.isSome = true := by
  by_cases hk : t.kind = .string
  · obtain ⟨q, inner, hq, hv⟩ := h.string hk
    have hsize : q.utf8Size = 1 := by rcases hq with rfl | rfl <;> rfl
    obtain ⟨kind, value, offset, line⟩ := t
    dsimp only at hk hv
    obtain rfl : value = String.ofList (q :: inner ++ [q]) := by rw [← hv, String.ofList_toList]
    rw [hk, unquote_quoted hsize hsize]
    rfl
  · rw [unquote_of_kind hk]
    rfl

theorem lexical_of_cut {input : List Char} {pieces : List Piece} (h : cut input = .ok pieces)
    (hr : '\r' ∉ input) {offset line : Nat} :
    ∀ t ∈ Token.ofPieces offset line pieces, t.Lexical := by
  intro t ht
  obtain ⟨s, hv, hm⟩ := Token.mem_ofPieces ht
  have hs : '\r' ∉ s := by
    intro hc
    have hcover : '\r' ∈ Piece.cover pieces := Piece.subset_cover hm hc
    rw [cut_cover h] at hcover
    exact hr hcover
  have hp : Piece.Lexical (.token t.kind s) := (cutInto_of_cut h).lexical _ hm
  rw [show s = t.value.toList by simp [hv]] at hp hs
  refine ⟨?_, ?_, ?_, ?_⟩ <;> intro hk <;> rw [hk] at hp
  · exact hp
  · exact hp
  · exact hp
  · have hne : t.value.toList ≠ [] := hp
    exact ⟨by simpa using hne, hs⟩

/-- Whatever compiles is a normal tree. -/
theorem Source.normal_of_compile {s : Source} {radius : Nat} {t : Tree}
    (h : s.compile radius = .ok t) : t.Normal := by
  obtain ⟨pieces, items, body, hc, hsp, hb, hsteps⟩ := compile_eq_ok_iff.1 h
  have hlex := @lexical_of_cut _ _ hc (Text.not_mem_normalize _) 0 1
  have hempty : Draft.empty.Normal := ⟨Statement.sound_nil, by simp [Draft.empty]⟩
  have hbody := (hsteps.normal hempty (hsp.normal hlex)).body.reverse
  rw [Tree.Normal, hb]
  exact ⟨hbody.apart, hbody.normal⟩

def mergedSource : Source := Source.named "merged"
  ("a\r\n\x7b# note #\x7db\x7b% range _, v = f(x.y, 1.5) %\x7d" ++
    "@\x7b\x7b raw \x7d\x7d\x7b% set n++ %\x7d\x7b% endrange %\x7d")

def mergedTree : Tree where
  statements := [.text "a\nb", .range none (some "v")
    (.call "f" (some [.identifier "x.y", .number "1.5"]))
    [.text "\x7b\x7b raw \x7d\x7d", .assign ⟨"n", .increment, none⟩]]
  extend := none

theorem normal_mergedTree : mergedSource.compile 2 = .ok mergedTree ∧ mergedTree.Normal :=
  have h : mergedSource.compile 2 = .ok mergedTree := by decide +kernel
  ⟨h, Source.normal_of_compile h⟩

end Stencil
