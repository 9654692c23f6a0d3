import Stencil.Proofs.Statement.Nesting
/-!
Which tokens build a tree. Items that are nested are taken by every draft, whatever is open around
them, so a tree is built exactly from valid segments that are nested and in which the tag that names
an extended template is in its place.
-/
set_option autoImplicit false

namespace Stencil

namespace Item

theorem of_role_opens {item : Item} {c : Construct} (h : item.role = .opens c) :
    ∃ dir o, item = .tag dir ∧ dir.opening? = some o ∧ o.construct = c ∧
      (c = .conditional → ∃ test, o = .conditional [] (some test)) := by
  cases item with
  | text | value => simp [role] at h
  | tag dir =>
    cases dir with
    | openIf | openLoop | openRange | openBlock =>
      cases h
      exact ⟨_, _, rfl, rfl, rfl, by simp⟩
    | elseIf | otherwise | close | assign | inclusion | extend => simp [role, Directive.role] at h

theorem of_role_closes {item : Item} {c : Construct} (h : item.role = .closes c) :
    item = .tag (.close c) := by
  cases item with
  | text | value => simp [role] at h
  | tag dir =>
    cases dir with
    | close =>
      cases h
      rfl
    | openIf | elseIf | otherwise | openLoop | openRange | openBlock | assign | inclusion
    | extend => simp [role, Directive.role] at h

theorem of_role_arm {item : Item} (h : item.role = .elseIf ∨ item.role = .otherwise) :
    ∃ dir test, item = .tag dir ∧ dir.arm? = some test ∧
      (item.role = .elseIf → test.isSome = true) := by
  cases item with
  | text | value => simp [role] at h
  | tag dir =>
    cases dir with
    | elseIf | otherwise => exact ⟨_, _, rfl, rfl, by simp [role, Directive.role]⟩
    | openIf | openLoop | openRange | openBlock | close | assign | inclusion | extend =>
      simp [role, Directive.role] at h

theorem step_of_plain {item : Item} (hr : item.role.plain = true) (hx : item.role ≠ .extend)
    (d : Draft) : ∃ e, d.Step item e ∧ e.frames = d.frames := by
  cases item with
  | text literal => exact ⟨_, .text d literal, d.frames_appendText literal⟩
  | value v => exact ⟨_, .statement d rfl, rfl⟩
  | tag dir =>
    cases dir with
    | assign | inclusion => exact ⟨_, .statement d rfl, rfl⟩
    | openIf | elseIf | otherwise | openLoop | openRange | openBlock | close | extend =>
      simp [role, Directive.role, Role.plain] at hr hx

end Item

def Opening.Finishes (o : Opening) : Prop := ∀ body, ∃ s, o.finish? body = some s

namespace Opening

theorem exists_link (arm : Arm) (arms : List Arm) (branch : Branch) :
    ∃ s, (Branch.link (arm :: arms) branch).conditional? = some s := by
  induction arms generalizing arm branch with
  | nil => exact ⟨_, rfl⟩
  | cons earlier arms ih => exact ih earlier _

theorem finishes_of_ne {o : Opening} (h : o.construct ≠ .conditional) : o.Finishes := by
  cases o with
  | conditional => exact absurd rfl h
  | loop | range | block => exact fun body => ⟨_, rfl⟩

theorem finishes_test (arms : List Arm) (test : Expression) :
    (conditional arms (some test)).Finishes := fun _ => exists_link _ arms _

theorem finishes_arm (arm : Arm) (arms : List Arm) (test : Option Expression) :
    (conditional (arm :: arms) test).Finishes := by
  cases test with
  | none => exact fun body => exists_link arm arms (.otherwise body)
  | some test => exact finishes_test _ test

end Opening

namespace Role

/-- Items of these roles are taken by every draft, and the same tags are open after them. -/
def Walks (roles : List Role) : Prop :=
  ∀ (items : List Item) (d : Draft), items.map Item.role = roles →
    ∃ e, d.Steps items e ∧ e.frames = d.frames

/-- Items of these roles are taken inside a conditional, which can be closed after them. -/
def Reaches (roles : List Role) : Prop :=
  ∀ (items : List Item) (d : Draft) (arms : List Arm) (current : Expression)
    (outer : List Statement) (frames : List Frame), items.map Item.role = roles →
    d.frames = ⟨.conditional arms (some current), outer⟩ :: frames →
    ∃ e o, d.Steps items e ∧ e.frames = ⟨o, outer⟩ :: frames ∧ o.construct = .conditional ∧
      o.Finishes

namespace Walks

variable {inner more : List Role}

theorem nil : Walks [] := by
  intro items d hi
  obtain rfl := List.map_eq_nil_iff.1 hi
  exact ⟨d, .nil d, rfl⟩

theorem plain {r : Role} (hr : r.plain = true) (hx : r ≠ .extend) (hm : Walks more) :
    Walks (r :: more) := by
  intro items d hi
  obtain ⟨item, items, rfl, rfl, hmore⟩ := List.map_eq_cons_iff.1 hi
  obtain ⟨e, hd, he⟩ := Item.step_of_plain hr hx d
  obtain ⟨f, hs, hf⟩ := hm items e hmore
  exact ⟨f, .cons hd hs, hf.trans he⟩

theorem closes (hm : Walks more) {items : List Item} {d : Draft} {o : Opening}
    {outer : List Statement} {frames : List Frame}
    (hi : items.map Item.role = .closes o.construct :: more) (hd : d.frames = ⟨o, outer⟩ :: frames)
    (ho : o.Finishes) : ∃ e, d.Steps items e ∧ e.frames = frames := by
  obtain ⟨item, items, rfl, hitem, hmore⟩ := List.map_eq_cons_iff.1 hi
  obtain rfl := Item.of_role_closes hitem
  obtain ⟨s, hs⟩ := ho d.body.reverse
  obtain ⟨e, hsteps, he⟩ := hm items { d with frames := frames, body := s :: outer } hmore
  exact ⟨e, .cons (.close hd hs) hsteps, he⟩

theorem tag {c : Construct} (hc : c ≠ .conditional) (hi : Walks inner) (hm : Walks more) :
    Walks (.opens c :: (inner ++ .closes c :: more)) := by
  intro items d h
  obtain ⟨item, items, rfl, hitem, hrest⟩ := List.map_eq_cons_iff.1 h
  obtain ⟨dir, o, rfl, ho, rfl, _⟩ := Item.of_role_opens hitem
  obtain ⟨inside, items, rfl, hinside, hmore⟩ := List.map_eq_append_iff.1 hrest
  obtain ⟨e, hsteps, he⟩ := hi inside (d.openTag o) hinside
  obtain ⟨f, hclose, hf⟩ := hm.closes hmore (he.trans rfl) (Opening.finishes_of_ne hc)
  exact ⟨f, .cons (.opens d ho) (hsteps.append hclose), hf⟩

theorem conditional (ha : Reaches inner) (hm : Walks more) :
    Walks (.opens .conditional :: (inner ++ .closes .conditional :: more)) := by
  intro items d h
  obtain ⟨item, items, rfl, hitem, hrest⟩ := List.map_eq_cons_iff.1 h
  obtain ⟨dir, o, rfl, ho, _, htest⟩ := Item.of_role_opens hitem
  obtain ⟨test, rfl⟩ := htest rfl
  obtain ⟨inside, items, rfl, hinside, hmore⟩ := List.map_eq_append_iff.1 hrest
  obtain ⟨e, o, hsteps, he, hc, hfin⟩ := ha inside (d.openTag _) [] test d.body d.frames hinside rfl
  rw [← hc] at hmore
  obtain ⟨f, hclose, hf⟩ := hm.closes hmore he hfin
  exact ⟨f, .cons (.opens d ho) (hsteps.append hclose), hf⟩

end Walks

namespace Reaches

variable {body more : List Role}

theorem last (hb : Walks body) : Reaches body := by
  intro items d arms current outer frames hi hd
  obtain ⟨e, hsteps, he⟩ := hb items d hi
  exact ⟨e, _, hsteps, he.trans hd, rfl, Opening.finishes_test arms current⟩

theorem otherwise (hb : Walks body) (hl : Walks more) :
    Reaches (body ++ .otherwise :: more) := by
  intro items d arms current outer frames hi hd
  obtain ⟨inside, items, rfl, hinside, hrest⟩ := List.map_eq_append_iff.1 hi
  obtain ⟨item, items, rfl, hitem, hmore⟩ := List.map_eq_cons_iff.1 hrest
  obtain ⟨dir, test, rfl, harm, _⟩ := Item.of_role_arm (.inr hitem)
  obtain ⟨e, hsteps, he⟩ := hb inside d hinside
  have hstep := Draft.Step.arm harm (he.trans hd)
  obtain ⟨f, hrest, hf⟩ := hl items _ hmore
  exact ⟨f, _, hsteps.append (.cons hstep hrest), hf, rfl, Opening.finishes_arm _ _ _⟩

theorem elseIf (hb : Walks body) (hm : Reaches more) : Reaches (body ++ .elseIf :: more) := by
  intro items d arms current outer frames hi hd
  obtain ⟨inside, items, rfl, hinside, hrest⟩ := List.map_eq_append_iff.1 hi
  obtain ⟨item, items, rfl, hitem, hmore⟩ := List.map_eq_cons_iff.1 hrest
  obtain ⟨dir, test, rfl, harm, hsome⟩ := Item.of_role_arm (.inl hitem)
  obtain ⟨test, rfl⟩ := Option.isSome_iff_exists.1 (hsome hitem)
  obtain ⟨e, hsteps, he⟩ := hb inside d hinside
  have hstep := Draft.Step.arm harm (he.trans hd)
  obtain ⟨f, o, hrest, hf, hc, hfin⟩ := hm items
    { e with
      frames := ⟨.conditional (⟨current, e.body.reverse⟩ :: arms) (some test), outer⟩ :: frames
      body := [] } _ test outer frames hmore rfl
  exact ⟨f, o, hsteps.append (.cons hstep hrest), hf, hc, hfin⟩

end Reaches

mutual

/-- Nested tags without a tag that extends a template are taken by every draft. -/
theorem Body.walks : {roles : List Role} → Body roles → .extend ∉ roles → Walks roles
  | _, .nil, _ => .nil
  | _, .plain hr hm, hx => .plain hr (by grind) (hm.walks (by grind))
  | _, .tag hc hi hm, hx => .tag hc (hi.walks (by grind)) (hm.walks (by grind))
  | _, .conditional ha hm, hx => .conditional (ha.reaches (by grind)) (hm.walks (by grind))

theorem Arms.reaches : {roles : List Role} → Arms roles → .extend ∉ roles → Reaches roles
  | _, .last hb, hx => .last (hb.walks hx)
  | _, .otherwise hb hl, hx => .otherwise (hb.walks (by grind)) (hl.walks (by grind))
  | _, .elseIf hb hm, hx => .elseIf (hb.walks (by grind)) (hm.reaches (by grind))

end

theorem Body.of_cons {r : Role} {more : List Role} (hr : r.plain = true)
    (h : Body (r :: more)) : Body more := by
  cases h with
  | plain _ hm => exact hm
  | tag | conditional => simp [Role.plain] at hr

theorem Body.of_blanks {blanks more : List Role} (hb : ∀ r ∈ blanks, r = .text true)
    (h : Body (blanks ++ more)) : Body more := by
  induction blanks with
  | nil => exact h
  | cons r blanks ih =>
    obtain ⟨rfl, hrest⟩ := List.forall_mem_cons.1 hb
    exact ih hrest (h.of_cons rfl)

end Role

namespace Draft

theorem steps_blanks {items : List Item} (hi : ∀ r ∈ items.map Item.role, r = .text true)
    {d : Draft} (hd : d.mayExtend = true) :
    ∃ e, d.Steps items e ∧ e.mayExtend = true ∧ e.frames = d.frames := by
  induction items generalizing d with
  | nil => exact ⟨d, .nil d, hd, rfl⟩
  | cons item items ih =>
    obtain ⟨hrole, hmore⟩ := List.forall_mem_cons.1 hi
    cases item with
    | value => simp [Item.role] at hrole
    | tag dir => cases dir <;> simp [Item.role, Directive.role] at hrole
    | text literal =>
      have hblank : literal.toList.all Text.isBlank = true := by simpa [Item.role] using hrole
      have hmay : (d.appendText literal).mayExtend = true := by
        rw [mayExtend_appendText, hd, hblank, Bool.and_self]
      obtain ⟨e, hsteps, he, hf⟩ := ih hmore hmay
      exact ⟨e, .cons (.text d literal) hsteps, he, hf.trans (d.frames_appendText literal)⟩

/-- Items that are nested, and led by the tag that names an extended template, are taken from the
beginning and leave no tag open. -/
theorem exists_steps {items : List Item} (hb : Role.Body (items.map Item.role))
    (hx : Role.Leads (items.map Item.role)) : ∃ e, empty.Steps items e ∧ e.frames = [] := by
  obtain hx | ⟨blanks, rest, heq, hblanks, hx⟩ := hx
  · exact hb.walks hx items empty rfl
  · rw [heq] at hb
    obtain ⟨before, others, rfl, hbefore, hothers⟩ := List.map_eq_append_iff.1 heq
    obtain ⟨item, after, rfl, hitem, hafter⟩ := List.map_eq_cons_iff.1 hothers
    obtain ⟨template, rfl⟩ := Item.of_role_extend hitem
    obtain ⟨d, hsteps, hmay, hd⟩ := steps_blanks (hbefore ▸ hblanks) (d := empty) rfl
    have hrest : Role.Body rest := (hb.of_blanks hblanks).of_cons rfl
    obtain ⟨e, hmore, he⟩ := hrest.walks hx after { d with template := some template } hafter
    exact ⟨e, hsteps.append (.cons (.extend template hmay) hmore), he.trans hd⟩

end Draft

/-- The tokens split into segments of which each is valid by itself, the openers and closers are
nested, and a template is extended at most once and before all else. -/
def TokenStream.Formed (s : TokenStream) : Prop :=
  ∃ segments, Covered s.unread segments ∧ (∀ g ∈ segments, g.Valid) ∧
    Role.Body (segments.map Segment.role) ∧ Role.Leads (segments.map Segment.role)

/-- A tree is built exactly from a stream that is formed and whose strings have content. -/
theorem parse_succeeds_iff (s : TokenStream) : (∃ t, Tree.parse s = .ok t) ↔
    s.Formed ∧ Token.Legible s.unread := by
  constructor
  · rintro ⟨t, h⟩
    obtain ⟨items, body, hspells, _, hsteps⟩ := Tree.parse_eq_ok_iff.1 h
    obtain ⟨hlegible, segments, hcovered, hvalid, hroles⟩ := hspells.covered
    refine ⟨⟨segments, hcovered, hvalid, ?_, ?_⟩, hlegible⟩
    · rw [hroles]
      exact hsteps.rest rfl
    · rw [hroles]
      exact hsteps.leads
  · rintro ⟨⟨segments, hcovered, hvalid, hbody, hleads⟩, hlegible⟩
    obtain ⟨items, hspells, hroles⟩ := hcovered.spells hlegible hvalid
    rw [← hroles] at hbody hleads
    obtain ⟨⟨frames, body, template⟩, hsteps, rfl⟩ := Draft.exists_steps hbody hleads
    exact ⟨⟨body.reverse, template⟩, Tree.parse_eq_ok_iff.2
      ⟨items, body, hspells, rfl, hsteps⟩⟩

def wideTag : List Token :=
  [⟨.blockStart, "\x7b%", 0, 1⟩, ⟨.name, "include", 3, 1⟩, ⟨.string, "é", 11, 1⟩,
    ⟨.blockEnd, "%\x7d", 14, 1⟩]

/-- Not every stream that is formed is read: at a string without content the program stops. -/
theorem wideTag_not_read : (TokenStream.ofTokens wideTag).Formed ∧
    Tree.parse (TokenStream.ofTokens wideTag) = .error ⟨.panic, 1⟩ := by
  refine ⟨⟨[.block ⟨.name, "include", 3, 1⟩ [⟨.string, "é", 11, 1⟩] ⟨.blockEnd, "%\x7d", 14, 1⟩],
    ?_, ?_, ?_, ?_⟩, ?_⟩
  · have htag : Segment.Covers _ wideTag :=
      @Segment.Covers.block ⟨.blockStart, "\x7b%", 0, 1⟩ ⟨.name, "include", 3, 1⟩
        ⟨.blockEnd, "%\x7d", 14, 1⟩ [⟨.string, "é", 11, 1⟩] rfl rfl (by decide) rfl
    exact @Covered.cons _ wideTag [] _ htag .nil
  · exact List.forall_mem_singleton.2 (.inclusion rfl)
  · exact .plain rfl .nil
  · exact .inl (by decide)
  · decide +kernel

end Stencil
