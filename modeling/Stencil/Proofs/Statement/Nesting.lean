import Stencil.Proofs.Statement.Listing
import Stencil.Proofs.Statement.Validity
/-!
Which segments may follow each other. What a segment does to the tags around it is told by its
keyword alone; bodies and the arms of conditionals are a grammar over that. Whatever builds a tree
is nested in this way: the open tags of a draft are what the rest of the grammar has to close.
-/
set_option autoImplicit false

namespace Stencil

inductive Role where
  | text (blank : Bool)
  | content
  | opens (construct : Construct)
  | elseIf
  | otherwise
  | closes (construct : Construct)
  | extend
  deriving DecidableEq, Repr

namespace Role

def plain : Role → Bool
  | text _ | content | extend => true
  | opens _ | elseIf | otherwise | closes _ => false

def ofKeyword : String → Role
  | "if" => opens .conditional
  | "for" => opens .loop
  | "range" => opens .range
  | "block" => opens .block
  | "elseif" => elseIf
  | "else" => otherwise
  | "extend" => extend
  | word => (Construct.ofCloser? word).elim content closes

mutual

inductive Body : List Role → Prop where
  | nil : Body []
  | plain {r : Role} {more : List Role} (hr : r.plain = true) (hm : Body more) : Body (r :: more)
  | tag {c : Construct} {inner more : List Role} (hc : c ≠ .conditional) (hi : Body inner)
      (hm : Body more) : Body (.opens c :: (inner ++ .closes c :: more))
  | conditional {arms more : List Role} (ha : Arms arms) (hm : Body more) :
      Body (.opens .conditional :: (arms ++ .closes .conditional :: more))

/-- The inside of a conditional; an arm without a test is the last, and nothing follows the last. -/
inductive Arms : List Role → Prop where
  | last {body : List Role} (hb : Body body) : Arms body
  | otherwise {body last : List Role} (hb : Body body) (hl : Body last) :
      Arms (body ++ .otherwise :: last)
  | elseIf {body more : List Role} (hb : Body body) (hm : Arms more) :
      Arms (body ++ .elseIf :: more)

end

/-- At most one template is extended, and only blank texts stand before the tag that names it. -/
def Leads (roles : List Role) : Prop :=
  .extend ∉ roles ∨ ∃ blanks rest, roles = blanks ++ .extend :: rest ∧
    (∀ r ∈ blanks, r = .text true) ∧ .extend ∉ rest

end Role

def Segment.role : Segment → Role
  | .text literal => .text (literal.toList.all Text.isBlank)
  | .value _ _ => .content
  | .block keyword _ _ => .ofKeyword keyword.value

inductive Covered : List Token → List Segment → Prop where
  | nil : Covered [] []
  | cons {s : Segment} {ts more : List Token} {segments : List Segment} (hc : s.Covers ts)
      (hm : Covered more segments) : Covered (ts ++ more) (s :: segments)

def Directive.role : Directive → Role
  | .openIf _ => .opens .conditional
  | .openLoop _ _ _ => .opens .loop
  | .openRange _ _ _ => .opens .range
  | .openBlock _ => .opens .block
  | .elseIf _ => .elseIf
  | .otherwise => .otherwise
  | .close c => .closes c
  | .assign _ | .inclusion _ _ => .content
  | .extend _ => .extend

def Item.role : Item → Role
  | .text literal => .text (literal.toList.all Text.isBlank)
  | .value _ => .content
  | .tag dir => dir.role

theorem Segment.Says.role {s : Segment} {item : Item} (h : s.Says item) : item.role = s.role := by
  cases h with
  | text | value => rfl
  | @block keyword _ _ _ hd =>
    show _ = Role.ofKeyword keyword.value
    cases Directive.parse_eq_ok_iff.1 hd with
    | @close c hk =>
      rw [hk]
      cases c <;> rfl
    | openIf hk | elseIf hk | otherwise hk | openLoop hk | openRange hk | openBlock hk
    | assign hk | inclusion hk | extend hk =>
      rw [hk]
      rfl

/-- Tokens spell items exactly if they split into valid segments, whose roles the items have. -/
theorem Spells.covered {ts : List Token} {items : List Item} (h : Spells ts items) :
    Token.Legible ts ∧ ∃ segments, Covered ts segments ∧ (∀ s ∈ segments, s.Valid) ∧
      segments.map Segment.role = items.map Item.role := by
  induction h with
  | nil => exact ⟨Token.legible_nil, [], .nil, by simp, rfl⟩
  | @cons s _ _ item _ hc hs _ ih =>
    obtain ⟨hmore, segments, hcovered, hvalid, hroles⟩ := ih
    obtain ⟨hv, hl⟩ := hc.says_iff.1 ⟨item, hs⟩
    exact ⟨Token.legible_append.2 ⟨hl, hmore⟩, s :: segments, .cons hc hcovered,
      List.forall_mem_cons.2 ⟨hv, hvalid⟩, by simp [hroles, hs.role]⟩

theorem Covered.spells {ts : List Token} {segments : List Segment} (h : Covered ts segments)
    (hl : Token.Legible ts) (hv : ∀ s ∈ segments, s.Valid) :
    ∃ items, Spells ts items ∧ items.map Item.role = segments.map Segment.role := by
  induction h with
  | nil => exact ⟨[], .nil, rfl⟩
  | @cons s _ _ segments hc _ ih =>
    obtain ⟨hs, hrest⟩ := List.forall_mem_cons.1 hv
    obtain ⟨hts, hmore⟩ := Token.legible_append.1 hl
    obtain ⟨item, hs⟩ := hc.says_iff.2 ⟨hs, hts⟩
    obtain ⟨items, hspells, hroles⟩ := ih hmore hrest
    exact ⟨item :: items, .cons hc hs hspells, by simp [hroles, hs.role]⟩

namespace Role

theorem Arms.ahead {pre : List Role} (hpre : ∀ more, Body more → Body (pre ++ more))
    {arms : List Role} (h : Arms arms) : Arms (pre ++ arms) := by
  cases h with
  | last hb => exact .last (hpre _ hb)
  | otherwise hb hl =>
    rw [← List.append_assoc]
    exact .otherwise (hpre _ hb) hl
  | elseIf hb hm =>
    rw [← List.append_assoc]
    exact .elseIf (hpre _ hb) hm

def Inside : Opening → List Role → Prop
  | .conditional _ (some _), roles => Arms roles
  | .conditional _ none, roles | .loop _ _ _, roles | .range _ _ _, roles | .block _, roles =>
    Body roles

theorem Inside.ahead {pre : List Role} (hpre : ∀ more, Body more → Body (pre ++ more))
    {o : Opening} {roles : List Role} (h : Inside o roles) : Inside o (pre ++ roles) := by
  cases o with
  | conditional arms test =>
    cases test with
    | none => exact hpre _ h
    | some test => exact Arms.ahead hpre h
  | loop | range | block => exact hpre _ h

theorem Inside.nil (o : Opening) : Inside o [] := by
  cases o with
  | conditional arms test =>
    cases test with
    | none => exact Body.nil
    | some test => exact Arms.last .nil
  | loop | range | block => exact Body.nil

/-- What closes the open tags, the innermost first, and fills the bodies around them. -/
def Rest : List Frame → List Role → Prop
  | [], roles => Body roles
  | f :: frames, roles => ∃ inside more, roles = inside ++ .closes f.opening.construct :: more ∧
      Inside f.opening inside ∧ Rest frames more

theorem Rest.ahead {pre : List Role} (hpre : ∀ more, Body more → Body (pre ++ more))
    {frames : List Frame} {roles : List Role} (h : Rest frames roles) :
    Rest frames (pre ++ roles) := by
  cases frames with
  | nil => exact hpre roles h
  | cons f frames =>
    obtain ⟨inside, more, rfl, hi, hm⟩ := h
    exact ⟨pre ++ inside, more, by simp, hi.ahead hpre, hm⟩

theorem Rest.plain {r : Role} (hr : r.plain = true) {frames : List Frame} {roles : List Role}
    (h : Rest frames roles) : Rest frames (r :: roles) :=
  have hpre : ∀ more, Body more → Body ([r] ++ more) := fun _ hm => .plain hr hm
  h.ahead hpre

theorem Body.opens {dir : Directive} {o : Opening} (h : dir.opening? = some o)
    {inside more : List Role} (hi : Inside o inside) (hm : Body more) :
    Body (dir.role :: (inside ++ .closes o.construct :: more)) := by
  cases dir with
  | openIf | openLoop | openRange | openBlock =>
    cases h
    first | exact .conditional hi hm | exact .tag (by simp) hi hm
  | _ => simp [Directive.opening?] at h

end Role

theorem Item.role_of_statement? {item : Item} {s : Statement} (h : item.statement? = some s) :
    item.role = .content := by
  cases item with
  | text literal => simp [statement?] at h
  | value e => rfl
  | tag dir => cases dir <;> first | rfl | simp [statement?] at h

namespace Draft
open Role

/-- If the tags open after a step can be closed, those open before it can. -/
theorem Step.rest {d e : Draft} {item : Item} (h : d.Step item e) {roles : List Role}
    (hr : Rest e.frames roles) : Rest d.frames (item.role :: roles) := by
  cases h with
  | text literal =>
    rw [frames_appendText] at hr
    exact hr.plain rfl
  | statement hs =>
    rw [Item.role_of_statement? hs]
    exact hr.plain rfl
  | @opens dir o ho =>
    -- the new tag is closed at its closer, so as a whole it stands before the rest
    obtain ⟨inside, more, rfl, hi, hm⟩ := hr
    have hpre : ∀ rest, Body rest →
        Body (dir.role :: inside ++ [.closes o.construct] ++ rest) := by
      intro rest hrest
      simpa using Body.opens ho hi hrest
    show Rest d.frames (dir.role :: (inside ++ _))
    simpa using hm.ahead hpre
  | @arm dir arms current test outer frames ha hf =>
    rw [hf]
    obtain ⟨inside, more, rfl, hi, hm⟩ := hr
    refine ⟨dir.role :: inside, more, rfl, ?_, hm⟩
    cases dir with
    | elseIf =>
      cases ha
      exact Arms.elseIf .nil hi
    | otherwise =>
      cases ha
      exact Arms.otherwise .nil hi
    | _ => simp [Directive.arm?] at ha
  | @close frame frames s hf hs =>
    rw [hf]
    exact ⟨[], roles, rfl, .nil _, hr⟩
  | extend template hm => exact hr.plain rfl

theorem Steps.rest {d e : Draft} {items : List Item} (h : d.Steps items e) (he : e.frames = []) :
    Rest d.frames (items.map Item.role) := by
  induction h with
  | nil =>
    rw [he]
    exact Body.nil
  | cons hd _ ih => exact hd.rest (ih he)

theorem mayExtend_appendText (d : Draft) (literal : String) :
    (d.appendText literal).mayExtend = (d.mayExtend && literal.toList.all Text.isBlank) := by
  obtain ⟨frames, body, template⟩ := d
  cases body with
  | nil => simp [appendText, mayExtend]
  | cons s rest => cases s <;> simp [appendText, mayExtend]; grind

theorem mayExtend_of_ne_text {frames : List Frame} {body : List Statement}
    {template : Option String} {s : Statement} (hs : ∀ literal, s ≠ .text literal) :
    (⟨frames, s :: body, template⟩ : Draft).mayExtend = false := by
  cases s with
  | text literal => exact absurd rfl (hs literal)
  | value | assign | conditional | loop | range | block | inclusion => simp [mayExtend]

theorem Step.mayExtend {d e : Draft} {item : Item} (h : d.Step item e)
    (he : e.mayExtend = true) : d.mayExtend = true ∧ item.role = .text true := by
  cases h with
  | text literal =>
    rw [mayExtend_appendText, Bool.and_eq_true] at he
    exact ⟨he.1, by rw [Item.role, he.2]⟩
  | statement hs => simp [append, mayExtend_of_ne_text (ne_text_of_statement? hs)] at he
  | opens ho => simp [Draft.mayExtend, openTag] at he
  | arm ha hf => simp [Draft.mayExtend] at he
  | close hf hs => simp [mayExtend_of_ne_text (ne_text_of_finish? hs)] at he
  | extend template hm => simp [Draft.mayExtend] at he

theorem Steps.mayExtend {d e : Draft} {items : List Item} (h : d.Steps items e)
    (he : e.mayExtend = true) : d.mayExtend = true ∧ ∀ r ∈ items.map Item.role, r = .text true := by
  induction h with
  | nil => exact ⟨he, by simp⟩
  | cons hd _ ih =>
    obtain ⟨hmid, hmore⟩ := ih he
    obtain ⟨hfirst, hrole⟩ := hd.mayExtend hmid
    exact ⟨hfirst, by simpa [hrole] using hmore⟩

end Draft

theorem Item.of_role_extend {item : Item} (h : item.role = .extend) :
    ∃ template, item = .tag (.extend template) := by
  cases item with
  | text | value => simp [role] at h
  | tag dir =>
    cases dir with
    | extend template => exact ⟨template, rfl⟩
    | openIf | elseIf | otherwise | openLoop | openRange | openBlock | close | assign
    | inclusion => simp [role, Directive.role] at h

namespace Draft
open Role

theorem Steps.extend_not_mem {d e : Draft} {items : List Item} (h : d.Steps items e)
    (hd : d.template.isSome = true) : .extend ∉ items.map Item.role := by
  intro hm
  obtain ⟨item, hitem, hrole⟩ := List.mem_map.1 hm
  obtain ⟨template, rfl⟩ := Item.of_role_extend hrole
  obtain ⟨before, after, rfl⟩ := List.append_of_mem hitem
  obtain ⟨named, hnamed⟩ := Option.isSome_iff_exists.1 hd
  have hcount : e.template.toList.length ≤ 1 := by cases e.template <;> simp
  rw [h.template] at hcount
  simp [hnamed, Item.extend?] at hcount

theorem Steps.leads {e : Draft} {items : List Item} (h : empty.Steps items e) :
    Leads (items.map Item.role) := by
  by_cases hm : .extend ∈ items.map Item.role
  · obtain ⟨item, hitem, hrole⟩ := List.mem_map.1 hm
    obtain ⟨template, rfl⟩ := Item.of_role_extend hrole
    obtain ⟨before, after, rfl⟩ := List.append_of_mem hitem
    obtain ⟨d, hbefore, hsteps⟩ := h.append_inv
    cases hsteps with
    | cons hd hafter =>
      cases hd with
      | statement hs => simp [Item.statement?] at hs
      | opens ho => simp [Directive.opening?] at ho
      | arm ha => simp [Directive.arm?] at ha
      | extend _ hmay =>
        refine .inr ⟨before.map Item.role, after.map Item.role, by simp [hrole], ?_, ?_⟩
        · exact (hbefore.mayExtend hmay).2
        · exact hafter.extend_not_mem rfl
  · exact .inl hm

end Draft

end Stencil
