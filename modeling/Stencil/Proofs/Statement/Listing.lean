import Mathlib.Data.List.Basic
import Stencil.Proofs.Statement.Item
/-!
The listing of a tree: everything that was written in a template, in the order of the text. A tree
is faithful to its tokens when its listing is what the tokens spell; a draft is faithful all along,
although it holds bodies and arms that are not finished.
-/
set_option autoImplicit false

namespace Stencil

mutual

def Statement.listing : Statement → List Item
  | .text literal => [.text literal]
  | .value e => [.value e]
  | .assign a => [.tag (.assign a)]
  | .conditional test body branch =>
    .tag (.openIf test) :: Statement.listAll body ++ branch.listing ++ [.tag (.close .conditional)]
  | .loop start test step body =>
    .tag (.openLoop start test step) :: Statement.listAll body ++ [.tag (.close .loop)]
  | .range key value source body =>
    .tag (.openRange key value source) :: Statement.listAll body ++ [.tag (.close .range)]
  | .block name body => .tag (.openBlock name) :: Statement.listAll body ++ [.tag (.close .block)]
  | .inclusion template params => [.tag (.inclusion template params)]

def Statement.listAll : List Statement → List Item
  | [] => []
  | s :: rest => s.listing ++ Statement.listAll rest

def Branch.listing : Branch → List Item
  | .none => []
  | .elseIf test body branch => .tag (.elseIf test) :: Statement.listAll body ++ branch.listing
  | .otherwise body => .tag .otherwise :: Statement.listAll body

end

def Tree.listing (t : Tree) : List Item := Statement.listAll t.statements

namespace Item

/-- Adds an item to those before it, the newest first; a text after a text goes on with it. -/
def join : List Item → Item → List Item
  | .text a :: before, .text b => .text (a ++ b) :: before
  | before, item => item :: before

def joinTexts (items : List Item) : List Item := (items.foldl join []).reverse

def extend? : Item → Option String
  | .tag (.extend template) => some template
  | _ => none

def Closed (before : List Item) : Prop := ∀ a, before.head? ≠ some (.text a)

theorem Closed.join {before : List Item} (h : Closed before) (item : Item) :
    join before item = item :: before := by
  cases before with
  | nil => rfl
  | cons i before =>
    cases i with
    | text a => exact absurd rfl (h a)
    | value | tag => rfl

theorem Closed.append {before : List Item} (h : Closed before) (hne : before ≠ [])
    (more : List Item) : Closed (before ++ more) := by
  cases before with
  | nil => exact absurd rfl hne
  | cons i before => exact h

end Item

namespace Statement

theorem listAll_eq_flatMap (body : List Statement) : listAll body = body.flatMap listing := by
  induction body with
  | nil => rfl
  | cons s rest ih => simp [listAll, ih]

/-- The items of a body, the newest first, as the body of a draft is. -/
def trace (body : List Statement) : List Item := body.flatMap fun s => s.listing.reverse

theorem listAll_reverse (body : List Statement) : listAll body.reverse = (trace body).reverse := by
  rw [listAll_eq_flatMap, trace, List.reverse_flatMap]
  simp [Function.comp_def]

theorem listing_ne_nil (s : Statement) : s.listing ≠ [] := by cases s <;> simp [listing]

theorem closed_listing {s : Statement} (hs : ∀ a, s ≠ .text a) :
    Item.Closed s.listing.reverse := by
  cases s <;> simp_all [Item.Closed, listing]

end Statement

namespace Opening

/-- The items of the arms before the one that is being filled, with the tag that began it. -/
def traceArms : List Arm → Option Expression → List Item
  | [], some test => [.tag (.openIf test)]
  | [], none => [.tag .otherwise]
  | arm :: earlier, test =>
    .tag (test.elim .otherwise .elseIf) ::
      ((Statement.listAll arm.body).reverse ++ traceArms earlier (some arm.test))

def trace : Opening → List Item
  | conditional arms test => traceArms arms test
  | loop start test step => [.tag (.openLoop start test step)]
  | range key value source => [.tag (.openRange key value source)]
  | block name => [.tag (.openBlock name)]

theorem trace_ne_nil (o : Opening) : o.trace ≠ [] := by
  cases o with
  | conditional arms test => cases arms <;> cases test <;> simp [trace, traceArms]
  | loop | range | block => simp [trace]

theorem closed_trace (o : Opening) : Item.Closed o.trace := by
  cases o with
  | conditional arms test =>
    cases arms <;> cases test <;> simp [Item.Closed, trace, traceArms]
  | loop | range | block => simp [Item.Closed, trace]

theorem trace_of_opening? {dir : Directive} {o : Opening} (h : dir.opening? = some o) :
    o.trace = [.tag dir] := by
  cases dir <;> simp_all [Directive.opening?] <;> subst h <;> rfl

theorem listing_link {arms : List Arm} {test : Expression} {body : List Statement}
    {branch : Branch} {s : Statement}
    (h : (Branch.link (⟨test, body⟩ :: arms) branch).conditional? = some s) :
    s.listing = (traceArms arms (some test)).reverse ++ Statement.listAll body ++ branch.listing ++
      [.tag (.close .conditional)] := by
  induction arms generalizing test body branch with
  | nil =>
    simp only [Branch.link, Branch.conditional?, Option.some.injEq] at h
    subst h
    simp [Statement.listing, traceArms]
  | cons arm earlier ih =>
    have hlist := @ih arm.test arm.body (.elseIf test body branch) h
    simp [hlist, traceArms, Branch.listing]

theorem listing_of_finish? {o : Opening} {body : List Statement} {s : Statement}
    (h : o.finish? body.reverse = some s) :
    s.listing.reverse = .tag (.close o.construct) :: (Statement.trace body ++ o.trace) := by
  cases o with
  | conditional arms test =>
    cases test with
    | some test =>
      rw [listing_link h]
      simp [Statement.listAll_reverse, Branch.listing, trace, construct]
    | none =>
      cases arms with
      | nil => simp [finish?, Branch.link, Branch.conditional?] at h
      | cons arm earlier =>
        rw [listing_link h]
        simp [Statement.listAll_reverse, Branch.listing, trace, traceArms, construct]
  | loop | range | block =>
    simp only [finish?, Option.some.injEq] at h
    subst h
    simp [Statement.listing, Statement.listAll_reverse, trace, construct]

end Opening

namespace Draft

def traceFrames (frames : List Frame) : List Item :=
  frames.flatMap fun f => f.opening.trace ++ Statement.trace f.outer

def trace (d : Draft) : List Item := Statement.trace d.body ++ traceFrames d.frames

theorem closed_traceFrames (frames : List Frame) : Item.Closed (traceFrames frames) := by
  cases frames with
  | nil => simp [Item.Closed, traceFrames]
  | cons f frames =>
    have h := f.opening.closed_trace.append f.opening.trace_ne_nil
      (Statement.trace f.outer ++ traceFrames frames)
    simpa [traceFrames] using h

theorem trace_appendText (d : Draft) (b : String) :
    (d.appendText b).trace = Item.join d.trace (.text b) := by
  obtain ⟨frames, body, template⟩ := d
  have hframes := closed_traceFrames frames
  cases body with
  | nil =>
    have hj := hframes.join (.text b)
    simpa [appendText, trace, Statement.trace, Statement.listing] using hj.symm
  | cons s rest =>
    by_cases hs : ∃ a, s = .text a
    · obtain ⟨a, rfl⟩ := hs
      simp [appendText, trace, Statement.trace, Statement.listing, Item.join]
    · have hs : ∀ a, s ≠ .text a := by simpa using hs
      have hc := (Statement.closed_listing hs).append (by simp [Statement.listing_ne_nil])
        (Statement.trace rest ++ traceFrames frames)
      have hj := hc.join (.text b)
      cases s <;> simp_all [appendText, trace, Statement.trace, Statement.listing]

theorem listing_of_statement? {item : Item} {s : Statement} (h : item.statement? = some s) :
    s.listing = [item] := by
  cases item with
  | text literal => simp [Item.statement?] at h
  | value e => simp only [Item.statement?, Option.some.injEq] at h; subst h; rfl
  | tag dir =>
    cases dir <;> simp_all [Item.statement?] <;> subst h <;> rfl

theorem ne_text_of_statement? {item : Item} {s : Statement} (h : item.statement? = some s)
    (literal : String) : s ≠ .text literal := by
  rintro rfl
  obtain rfl : Item.text literal = item := by
    simpa [Statement.listing] using listing_of_statement? h
  simp [Item.statement?] at h

theorem ne_text_of_finish? {o : Opening} {body : List Statement} {s : Statement}
    (h : o.finish? body.reverse = some s) (literal : String) : s ≠ .text literal := by
  rintro rfl
  have hlist := Opening.listing_of_finish? h
  simp [Statement.listing] at hlist

/-- One step adds its item to what was taken in, unless it names the extended template. -/
theorem Step.trace {d e : Draft} {item : Item} (h : d.Step item e) :
    e.trace = if item.extend?.isNone then Item.join d.trace item else d.trace := by
  cases h with
  | text literal => simpa [Item.extend?] using d.trace_appendText literal
  | statement hs =>
    cases item with
    | text literal => simp [Item.statement?] at hs
    | value v =>
      simp [Item.extend?, Draft.trace, append, Statement.trace, listing_of_statement? hs, Item.join]
    | tag dir =>
      have hx : (Item.tag dir).extend? = none := by
        cases dir <;> simp_all [Item.statement?, Item.extend?]
      simp [hx, Draft.trace, append, Statement.trace, listing_of_statement? hs, Item.join]
  | @opens dir o ho =>
    have hx : (Item.tag dir).extend? = none := by
      cases dir <;> simp_all [Directive.opening?, Item.extend?]
    simp [hx, Draft.trace, openTag, Statement.trace, traceFrames, Opening.trace_of_opening? ho,
      Item.join]
  | @arm dir arms current test outer frames ha hf =>
    have hm : dir = test.elim .otherwise .elseIf := by
      cases dir <;> simp_all [Directive.arm?] <;> subst ha <;> rfl
    have hx : (Item.tag dir).extend? = none := by
      cases dir <;> simp_all [Directive.arm?, Item.extend?]
    rw [hx]
    simp [Draft.trace, Statement.trace, traceFrames, hf, Opening.trace, Opening.traceArms,
      Statement.listAll_reverse, Item.join, hm]
  | close hf hs =>
    simp [Item.extend?, Draft.trace, Statement.trace, traceFrames, hf,
      Opening.listing_of_finish? hs, Item.join]
  | extend template hm => simp [Item.extend?, Draft.trace]

theorem Step.template {d e : Draft} {item : Item} (h : d.Step item e) :
    e.template.toList = d.template.toList ++ item.extend?.toList := by
  cases h with
  | text literal =>
    obtain ⟨frames, body, template⟩ := d
    unfold appendText
    split <;> simp [Item.extend?]
  | statement hs =>
    cases item with
    | text | value => simp [Item.extend?, append]
    | tag dir => cases dir <;> simp_all [Item.statement?, Item.extend?, append]
  | @opens dir o ho => cases dir <;> simp_all [Directive.opening?, Item.extend?, openTag]
  | @arm dir _ _ _ _ _ ha => cases dir <;> simp_all [Directive.arm?, Item.extend?]
  | close => simp [Item.extend?]
  | extend template hm =>
    have hn : d.template = none := by simp_all [mayExtend]
    simp [Item.extend?, hn]

theorem Steps.trace {d e : Draft} {items : List Item} (h : d.Steps items e) :
    e.trace = (items.filter (·.extend?.isNone)).foldl Item.join d.trace := by
  induction h with
  | nil => rfl
  | @cons d e f item items hd _ ih =>
    rw [ih, hd.trace]
    cases hx : item.extend?.isNone <;> simp [hx]

theorem Steps.template {d e : Draft} {items : List Item} (h : d.Steps items e) :
    e.template.toList = d.template.toList ++ items.filterMap Item.extend? := by
  induction h with
  | nil => simp
  | @cons d e f item items hd _ ih =>
    rw [ih, hd.template]
    cases hx : item.extend? <;> simp [hx]

end Draft

/-- A tree holds what its tokens spell, all of it, once, in order and in its place: its listing is
the one thing that the tokens spell, with runs of texts made one and without the tag that names
the extended template, and that tag is the only one of its kind. -/
theorem listing_of_parse {s : TokenStream} {t : Tree} (h : Tree.parse s = .ok t) :
    ∃ items, (∀ others, Spells s.unread others ↔ others = items) ∧
      t.listing = Item.joinTexts (items.filter (·.extend?.isNone)) ∧
      t.extend.toList = items.filterMap Item.extend? := by
  obtain ⟨items, body, hsp, hb, hsteps⟩ := Tree.parse_eq_ok_iff.1 h
  have honly : ∀ others, Spells s.unread others ↔ others = items := by
    intro others
    constructor
    · exact hsp.unique
    · rintro rfl
      exact hsp
  refine ⟨items, honly, ?_, by simpa [Draft.empty] using hsteps.template⟩
  have htrace : Statement.trace body = (items.filter (·.extend?.isNone)).foldl Item.join [] := by
    simpa [Draft.trace, Draft.traceFrames, Draft.empty, Statement.trace] using hsteps.trace
  rw [Tree.listing, hb, Statement.listAll_reverse, htrace, Item.joinTexts]

def pageTokens : List Token :=
  [⟨.text, " ", 0, 1⟩,
    ⟨.blockStart, "\x7b@", 1, 1⟩, ⟨.name, "extend", 3, 1⟩, ⟨.string, "'base'", 10, 1⟩,
    ⟨.blockEnd, "\x7d", 16, 1⟩,
    ⟨.text, "\n", 17, 1⟩,
    ⟨.blockStart, "\x7b@", 18, 2⟩, ⟨.name, "if", 20, 2⟩, ⟨.name, "a", 23, 2⟩,
    ⟨.blockEnd, "\x7d", 24, 2⟩,
    ⟨.valueStart, "\x7b", 25, 2⟩, ⟨.name, "a", 26, 2⟩, ⟨.valueEnd, "\x7d", 27, 2⟩,
    ⟨.blockStart, "\x7b@", 28, 2⟩, ⟨.name, "elseif", 30, 2⟩, ⟨.name, "b", 37, 2⟩,
    ⟨.blockEnd, "\x7d", 38, 2⟩,
    ⟨.text, "b", 39, 2⟩,
    ⟨.blockStart, "\x7b@", 40, 2⟩, ⟨.name, "else", 42, 2⟩, ⟨.blockEnd, "\x7d", 46, 2⟩,
    ⟨.text, "c", 47, 2⟩,
    ⟨.blockStart, "\x7b@", 48, 2⟩, ⟨.name, "endif", 50, 2⟩, ⟨.blockEnd, "\x7d", 55, 2⟩]

def pageTree : Tree where
  statements := [.text " \n", .conditional (.identifier "a") [.value (.identifier "a")]
    (.elseIf (.identifier "b") [.text "b"] (.otherwise [.text "c"]))]
  extend := some "base"

theorem parse_pageTokens : ∃ items,
    (∀ others, Spells (TokenStream.ofTokens pageTokens).unread others ↔ others = items) ∧
      pageTree.listing = Item.joinTexts (items.filter (·.extend?.isNone)) ∧
      pageTree.extend.toList = items.filterMap Item.extend? :=
  listing_of_parse (s := TokenStream.ofTokens pageTokens) (by decide +kernel)

end Stencil
