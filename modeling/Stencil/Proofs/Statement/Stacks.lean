import Stencil.Proofs.Statement.Acceptance
import Stencil.Proofs.Statement.Joining
import Stencil.Statement.Stacks
/-!
Two stacks that move together. A draft holds each body with the tag that owns it, so it cannot lose
one; taken apart into bodies and tags it is carried along by every step of the two stacks. So these
are never out of step, whatever tokens are read, and no body is ever missing. What a draft does not
show by its form is that an `else` has an arm before it, which every step preserves.
-/
set_option autoImplicit false

namespace Stencil

namespace Draft

def toStacks (d : Draft) : Stacks :=
  ⟨d.body :: d.frames.map (·.outer), d.frames.map (·.opening), d.template⟩

variable (missing : List Statement) (d : Draft)

theorem toStacks_appendText (literal : String) :
    d.toStacks.appendText literal = (d.appendText literal).toStacks := by
  obtain ⟨frames, body, template⟩ := d
  cases body with
  | nil => rfl
  | cons s rest => cases s <;> rfl

theorem toStacks_nextArm (keyword : Token) (test : Option Expression) :
    d.toStacks.nextArm missing keyword test = (d.nextArm keyword test).map toStacks := by
  obtain ⟨frames, body, template⟩ := d
  match frames with
  | [] => rfl
  | ⟨.conditional _ (some _), _⟩ :: _ => rfl
  | ⟨.conditional _ none, _⟩ :: _ | ⟨.loop _ _ _, _⟩ :: _ | ⟨.range _ _ _, _⟩ :: _
  | ⟨.block _, _⟩ :: _ => rfl

theorem toStacks_closeTag (keyword : Token) (construct : Construct) :
    d.toStacks.closeTag keyword construct = (d.closeTag keyword construct).map toStacks := by
  obtain ⟨frames, body, template⟩ := d
  cases frames with
  | nil => rfl
  | cons frame frames =>
    by_cases hc : frame.opening.construct = construct
    · cases hs : frame.opening.finish? body.reverse <;>
        simp [Stacks.closeTag, closeTag, toStacks, hc, hs, Except.map, Stacks.append]
    · simp [Stacks.closeTag, closeTag, toStacks, hc, Except.map]

theorem toStacks_mayExtend : d.toStacks.mayExtend = d.mayExtend := by
  obtain ⟨frames, body, template⟩ := d
  cases frames with
  | nil => rfl
  | cons frame frames => simp [Stacks.mayExtend, mayExtend, toStacks]

theorem toStacks_accept (keyword : Token) (dir : Directive) :
    d.toStacks.accept missing keyword dir = (d.accept keyword dir).map toStacks := by
  cases dir with
  | elseIf test | otherwise => exact toStacks_nextArm missing d keyword _
  | close construct => exact toStacks_closeTag d keyword construct
  | openIf | openLoop | openRange | openBlock | assign | inclusion | extend => rfl

theorem toStacks_add (segment : Segment) :
    d.toStacks.add missing segment = (d.add segment).map toStacks := by
  cases segment with
  | text literal => exact congrArg Except.ok (toStacks_appendText d literal)
  | value inside close =>
    simp only [Stacks.add, add]
    cases Directive.expression close inside <;> rfl
  | block keyword args close =>
    simp only [Stacks.add, add, toStacks_mayExtend]
    split
    · rfl
    · cases Directive.parse keyword args close with
      | error e => rfl
      | ok dir => exact toStacks_accept missing d keyword dir

theorem toStacks_foldlM (segments : List Segment) :
    segments.foldlM (Stacks.add missing) d.toStacks = (segments.foldlM add d).map toStacks := by
  induction segments generalizing d with
  | nil => rfl
  | cons segment segments ih =>
    rw [List.foldlM_cons, List.foldlM_cons, toStacks_add]
    cases d.add segment with
    | error e => rfl
    | ok d' => exact ih d'

theorem toStacks_finish (line : Nat) : d.toStacks.finish missing line = d.finish line := by
  obtain ⟨frames, body, template⟩ := d
  cases frames <;> rfl

end Draft

/-- The two stacks build the tree that is built from a draft, or fail as it does. -/
theorem Stacks.parse_eq (missing : List Statement) (s : TokenStream) :
    parse missing s = Tree.parse s := by
  have hrun := Draft.toStacks_foldlM missing Draft.empty (Segment.split s.endLine s.unread).1
  have hstart : Draft.empty.toStacks = start := rfl
  rw [hstart] at hrun
  simp only [parse, Tree.parse, Tree.ofSegments, hrun]
  cases (Segment.split s.endLine s.unread).1.foldlM Draft.add Draft.empty with
  | error e => rfl
  | ok d =>
    have hfinish := Draft.toStacks_finish missing d s.endLine
    cases hlast : (Segment.split s.endLine s.unread).2 with
    | some e => simp [Except.map, bind, Except.bind]
    | none => simpa [Except.map, hlast, bind, Except.bind] using hfinish

def Opening.Armed (o : Opening) : Prop := ∀ arms, o = .conditional arms none → arms ≠ []

theorem Opening.Armed.finishes {o : Opening} (h : o.Armed) : o.Finishes := by
  match o, h with
  | .conditional arms (some test), _ => exact finishes_test arms test
  | .conditional [] none, h => exact absurd rfl (h [] rfl)
  | .conditional (arm :: arms) none, _ => exact finishes_arm arm arms none
  | .loop _ _ _, _ | .range _ _ _, _ | .block _, _ => exact finishes_of_ne (by simp [construct])

theorem Directive.opening?_armed {dir : Directive} {o : Opening} (h : dir.opening? = some o) :
    o.Armed := by
  rintro arms rfl
  cases dir <;> simp [opening?] at h

namespace Draft

def Armed (d : Draft) : Prop := ∀ frame ∈ d.frames, frame.opening.Armed

theorem armed_empty : empty.Armed := by simp [Armed, empty]

theorem Step.armed {d e : Draft} {item : Item} (h : d.Step item e) (hd : d.Armed) : e.Armed := by
  cases h with
  | text literal => simpa [Armed, frames_appendText] using hd
  | statement => exact hd
  | opens ho => exact List.forall_mem_cons.2 ⟨Directive.opening?_armed ho, hd⟩
  | arm _ hf =>
    rw [Armed, hf] at hd
    refine List.forall_mem_cons.2 ⟨?_, (List.forall_mem_cons.1 hd).2⟩
    rintro arms ⟨⟩
    exact List.cons_ne_nil _ _
  | close hf =>
    rw [Armed, hf] at hd
    exact (List.forall_mem_cons.1 hd).2
  | extend => exact hd

theorem armed_of_foldlM {segments : List Segment} {d e : Draft}
    (h : segments.foldlM add d = .ok e) (hd : d.Armed) : e.Armed := by
  induction segments generalizing d with
  | nil =>
    obtain rfl := Except.ok.inj h
    exact hd
  | cons segment segments ih =>
    rw [List.foldlM_cons] at h
    obtain ⟨d', hadd, h⟩ := bind_eq_ok h
    obtain ⟨item, _, hstep⟩ := add_eq_ok_iff.1 hadd
    exact ih h (hstep.armed hd)

end Draft

namespace Stacks

/-- The stacks after some of the segments of a stream, the first of them. -/
def ReachedOn (missing : List Statement) (s : TokenStream) (st : Stacks) : Prop :=
  ∃ before after, (Segment.split s.endLine s.unread).1 = before ++ after ∧
    before.foldlM (add missing) start = .ok st

theorem ReachedOn.exists_draft {missing : List Statement} {s : TokenStream} {st : Stacks}
    (h : st.ReachedOn missing s) : ∃ d : Draft, d.Armed ∧ d.toStacks = st ∧
      ∀ other, d.toStacks.ReachedOn other s := by
  obtain ⟨before, after, hsplit, hrun⟩ := h
  have hmap := Draft.toStacks_foldlM missing Draft.empty before
  obtain ⟨d, hd, hst⟩ := map_eq_ok (hmap.symm.trans hrun)
  refine ⟨d, Draft.armed_of_foldlM hd Draft.armed_empty, hst, fun other => ?_⟩
  refine ⟨before, after, hsplit, ?_⟩
  have hother := Draft.toStacks_foldlM other Draft.empty before
  rw [hd] at hother
  exact hother

structure Intact (st : Stacks) : Prop where
  paired : st.bodies.length = st.tags.length + 1
  armed : ∀ arms, Opening.conditional arms none ∈ st.tags → arms ≠ []
  /-- Statements and texts find a body to go to. -/
  finds : ∃ body outer, st.bodies = body :: outer ∧
    (∀ s, st.append s = { st with bodies := (s :: body) :: outer }) ∧
    ∀ literal, st.appendText literal
      = { st with bodies := Statement.withText body literal :: outer }
  /-- A tag that is closed makes a statement, which goes to the body around it. -/
  closes : ∀ o tags, st.tags = o :: tags → ∃ body around outer s,
    st.bodies = body :: around :: outer ∧ o.finish? body.reverse = some s ∧
    ∀ keyword, st.closeTag keyword o.construct
      = .ok { st with
          bodies := (s :: around) :: outer
          tags := tags }

theorem intact_toStacks {d : Draft} (h : d.Armed) : d.toStacks.Intact where
  paired := by simp [Draft.toStacks]
  armed := by
    intro arms ho
    obtain ⟨frame, hf, hframe⟩ := List.mem_map.1 ho
    exact h frame hf arms hframe
  finds := by
    refine ⟨d.body, d.frames.map (·.outer), rfl, fun _ => rfl, fun literal => ?_⟩
    rw [Draft.toStacks_appendText, Draft.appendText_eq]
    rfl
  closes := by
    obtain ⟨frames, body, template⟩ := d
    rintro o tags ho
    obtain ⟨frame, frames, rfl, rfl, rfl⟩ := List.map_eq_cons_iff.1 ho
    obtain ⟨s, hs⟩ := (h frame (.head _)).finishes body.reverse
    refine ⟨body, frame.outer, frames.map (·.outer), s, rfl, hs, fun keyword => ?_⟩
    simp [closeTag, Draft.toStacks, hs, append]

/-- The two stacks are in step in every state that is reached on a stream. So no statement is
dropped, and what is taken for a missing body makes no difference. -/
theorem intact_of_reached {missing : List Statement} {s : TokenStream} {st : Stacks}
    (h : st.ReachedOn missing s) : st.Intact ∧
      ∀ other, st.ReachedOn other s ∧ parse other s = Tree.parse s := by
  obtain ⟨d, harmed, rfl, hother⟩ := h.exists_draft
  exact ⟨intact_toStacks harmed, fun other => ⟨hother other, parse_eq other s⟩⟩

def nestedStream : TokenStream := .ofTokens
  [⟨.blockStart, "\x7b%", 0, 1⟩, ⟨.name, "if", 3, 1⟩, ⟨.name, "a", 6, 1⟩,
    ⟨.blockEnd, "%\x7d", 8, 1⟩, ⟨.text, "x", 10, 1⟩, ⟨.blockStart, "\x7b%", 11, 1⟩,
    ⟨.name, "else", 14, 1⟩, ⟨.blockEnd, "%\x7d", 19, 1⟩, ⟨.blockStart, "\x7b%", 21, 1⟩,
    ⟨.name, "block", 24, 1⟩, ⟨.name, "b", 30, 1⟩, ⟨.blockEnd, "%\x7d", 32, 1⟩,
    ⟨.text, "y", 34, 1⟩, ⟨.text, "z", 35, 1⟩]

def nestedStacks : Stacks where
  bodies := [[.text "y"], [], []]
  tags := [.block "b", .conditional [⟨.identifier "a", [.text "x"]⟩] none]
  template := none

theorem intact_nestedStacks : nestedStacks.ReachedOn [] nestedStream ∧ nestedStacks.Intact ∧
    ∀ other, nestedStacks.ReachedOn other nestedStream ∧
      parse other nestedStream = Tree.parse nestedStream :=
  have h : nestedStacks.ReachedOn [] nestedStream :=
    ⟨_, _, (List.take_append_drop 5 _).symm, by decide +kernel⟩
  ⟨h, intact_of_reached h⟩

end Stacks

end Stencil
