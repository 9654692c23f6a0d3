import Stencil.Proofs.Expression.Steps
/-!
What a group leaves of the operands that were finished when it opened. An operator, a comma and the
end of a call take operands of their own group only. An index takes its base from outside of its
brackets, and nothing keeps it from taking one that stands outside of the group around them as well:
the operands of all groups are kept as long as no index does so, and only then.
-/
set_option autoImplicit false

namespace Stencil.Expression.Reading

/-- The next token ends the innermost group, which waits above others, and makes `after` of the
operands. -/
structure Ends (r : Reading) (p : Pending) (outer : List Pending) (operands after : List Operand) :
    Prop where
  applied : Applies 0 r.state ⟨operands, p :: outer⟩
  closed : ∃ t rest, r.left = t :: rest ∧ Closes t p operands after

inductive Within (ts : List Token) (s : Stacks) (p : Pending) : Reading → Prop where
  | opened {u rest : List Token} (hr : Steps (start ts) ⟨s, u ++ rest⟩)
      (ho : Opens u p s.operands.length) : Within ts s p ⟨s.wait p, rest⟩
  | step {r r' : Reading} (h : Within ts s p r) (hs : Step r r')
      (ho : s.pending.length < r'.state.pending.length) : Within ts s p r'

/-- What a group that was opened above the stacks `s` may leave when it ends: all operands are still
there, only an index may have taken the last one, its base, out of the group around it. -/
inductive Kept (s : Stacks) : Pending → List Operand → Prop where
  | call {name : Token} {depth : Nat} (args : Option (List Expression)) :
      Kept s (.call name depth) (.plain (.call name.value args) :: s.operands)
  | paren {opening : Token} {depth : Nat} {operands : List Operand} (h : s.operands <:+ operands) :
      Kept s (.paren opening depth) operands
  | index {opening : Token} {depth : Nat} {base position : Expression} {rest : List Operand}
      (hf : Pending.floor s.pending ≤ rest.length)
      (h : s.operands = .plain base :: rest ∨ s.operands <:+ rest) :
      Kept s (.bracket opening depth) (.plain (.index base position) :: rest)

/-- Whenever a group ends, so that no more is left waiting than when it was opened, the operands
that were finished then are still there. -/
def KeepsGroups (ts : List Token) : Prop :=
  ∀ s p r q outer operands after, Within ts s p r → Ends r q outer operands after →
    outer.length = s.pending.length →
      q = p ∧ outer = s.pending ∧ s.operands <:+ operands ∧ Kept s p after

def GroundedNow (r : Reading) : Prop :=
  ∀ opening depth outer operands after,
    Ends r (.bracket opening depth) outer operands after → Pending.floor outer < after.length

/-- No index takes its base from outside of the group around it. -/
def Grounded (ts : List Token) : Prop := ∀ r, Steps (start ts) r → r.GroundedNow

theorem Within.steps {ts : List Token} {s : Stacks} {p : Pending} {r : Reading}
    (h : Within ts s p r) : Steps (start ts) r := by
  induction h with
  | opened hr ho => exact hr.tail (.opening ho)
  | step _ hs _ ih => exact ih.tail hs

theorem exists_within {ts : List Token} {r : Reading} (h : Steps (start ts) r) {p : Pending}
    {outer : List Pending} (hp : p.isGroup = true) (hsuf : p :: outer <:+ r.state.pending) :
    ∃ s : Stacks, s.pending = outer ∧ Within ts s p r := by
  induction h with
  | refl => simp [start] at hsuf
  | @tail r r' hr hs ih =>
    -- what waited before the step and still does was opened before
    have hbefore (hr : p :: outer <:+ r.state.pending) :
        ∃ s : Stacks, s.pending = outer ∧ Within ts s p r' := by
      obtain ⟨s, rfl, hw⟩ := ih hr
      exact ⟨s, rfl, hw.step hs hsuf.length_le⟩
    cases hs with
    | operand => exact hbefore hsuf
    | link hl ha =>
      rcases List.suffix_cons_iff.1 hsuf with heq | hsuf
      · obtain ⟨rfl, -⟩ := List.cons.inj heq
        simp [isGroup_of_links hl] at hp
      · exact hbefore (hsuf.trans ha.suffix)
    | opening ho =>
      rcases List.suffix_cons_iff.1 hsuf with heq | hsuf
      · obtain ⟨rfl, rfl⟩ := List.cons.inj heq
        exact ⟨_, rfl, .opened hr ho⟩
      · exact hbefore hsuf
    | closing ha hc => exact hbefore ((hsuf.trans (List.suffix_cons _ _)).trans ha.suffix)

/-- A group that was opened above the stacks `s` waits below `inner`, and nothing that was finished
then has been taken. -/
structure Above (s : Stacks) (p : Pending) (inner : List Pending) (now : Stacks) : Prop where
  pending : now.pending = inner ++ p :: s.pending
  operands : s.operands <:+ now.operands
  depths : ∀ q ∈ inner, ∀ depth ∈ q.depth?, s.operands.length ≤ depth

variable {s : Stacks} {p : Pending} {inner : List Pending} {now next : Stacks}

theorem le_floor (hp : p.depth? = some s.operands.length)
    (h : ∀ q ∈ inner, ∀ depth ∈ q.depth?, s.operands.length ≤ depth) :
    s.operands.length ≤ Pending.floor (inner ++ p :: s.pending) := by
  induction inner with
  | nil => simp [Pending.floor_cons, hp]
  | cons q inner ih =>
    rw [List.cons_append, Pending.floor_cons]
    cases hd : q.depth? with
    | none => exact ih fun q hq => h q (by simp [hq])
    | some depth => exact h q (by simp) depth hd

theorem suffix_of_joins {q : Pending} {base operands after : List Operand}
    (hj : Joins q operands after) (hb : base <:+ operands) (hl : base.length < after.length) :
    base <:+ after := by
  cases hj with
  | binary | comma =>
    have hrest : base <:+ _ := List.suffix_of_suffix_length_le hb
      ((List.suffix_cons _ _).trans (List.suffix_cons _ _)) (Nat.le_of_lt_succ hl)
    exact hrest.trans (List.suffix_cons _ _)

theorem Above.applies {level : Nat} (hp : p.depth? = some s.operands.length)
    (h : Above s p inner now) (ha : Applies level now next) : ∃ inner, Above s p inner next := by
  induction ha generalizing inner with
  | stop => exact ⟨inner, h⟩
  | @join q outer operands after _ hq hj hf _ ih =>
    cases inner with
    | nil =>
      obtain ⟨rfl, -⟩ := List.cons.inj h.pending
      have hn := hj.isGroup
      simp [Pending.isGroup, hp] at hn
    | cons q' inner =>
      obtain ⟨rfl, rfl⟩ := List.cons.inj h.pending
      have hdepths : ∀ q ∈ inner, ∀ depth ∈ q.depth?, s.operands.length ≤ depth :=
        fun q hq => h.depths q (by simp [hq])
      have hlt := Nat.lt_of_le_of_lt (le_floor hp hdepths) hf
      exact ih ⟨rfl, suffix_of_joins hj h.operands hlt, hdepths⟩

theorem suffix_of_closes {t : Token} {q : Pending} {base operands after : List Operand}
    (hc : Closes t q operands after) (hb : base <:+ operands)
    (hd : ∀ depth ∈ q.depth?, base.length ≤ depth)
    (hl : ∀ opening depth, q = .bracket opening depth → base.length < after.length) :
    base <:+ after := by
  cases hc with
  | paren => exact hb
  | bare => exact hb.trans (List.suffix_cons _ _)
  | call _ hr =>
    have hrest : base <:+ _ := List.suffix_of_suffix_length_le hb (List.suffix_cons _ _)
      (hr ▸ hd _ rfl)
    exact hrest.trans (List.suffix_cons _ _)
  | bracket =>
    have hrest : base <:+ _ := List.suffix_of_suffix_length_le hb
      ((List.suffix_cons _ _).trans (List.suffix_cons _ _)) (Nat.le_of_lt_succ (hl _ _ rfl))
    exact hrest.trans (List.suffix_cons _ _)

theorem Above.step {r r' : Reading} (hp : p.depth? = some s.operands.length)
    (h : Above s p inner r.state) (hg : r.GroundedNow) (hs : Step r r')
    (ho : s.pending.length < r'.state.pending.length) :
    ∃ inner, Above s p inner r'.state := by
  cases hs with
  | operand => exact ⟨inner, h.pending, h.operands.trans (List.suffix_cons _ _), h.depths⟩
  | @link _ s' _ q _ hl ha =>
    obtain ⟨inner, hpending, hoperands, hdepths⟩ := h.applies hp ha
    have hq : q.depth? = none := by simpa [Pending.isGroup] using isGroup_of_links hl
    refine ⟨q :: inner, congrArg (q :: ·) hpending, hoperands, ?_⟩
    simpa [hq] using hdepths
  | @opening _ _ q _ hq =>
    refine ⟨q :: inner, congrArg (q :: ·) h.pending, h.operands, ?_⟩
    simpa [depth?_of_opens hq] using ⟨h.operands.length_le, h.depths⟩
  | @closing now t q outer operands after rest ha hc =>
    obtain ⟨inner, hpending, hoperands, hdepths⟩ := h.applies hp ha
    cases inner with
    | nil =>
      -- the group itself would end
      obtain ⟨-, rfl⟩ := List.cons.inj hpending
      exact absurd ho (Nat.lt_irrefl _)
    | cons q' inner =>
      obtain ⟨rfl, rfl⟩ := List.cons.inj hpending
      have hinner : ∀ q ∈ inner, ∀ depth ∈ q.depth?, s.operands.length ≤ depth :=
        fun q hq => hdepths q (by simp [hq])
      refine ⟨inner, rfl, suffix_of_closes hc hoperands (hdepths q (by simp)) ?_, hinner⟩
      rintro opening depth rfl
      exact Nat.lt_of_le_of_lt (le_floor hp hinner) (hg _ _ _ _ _ ⟨ha, t, rest, rfl, hc⟩)

theorem Within.depth? {ts : List Token} {r : Reading} (h : Within ts s p r) :
    p.depth? = some s.operands.length := by
  induction h with
  | opened _ ho => exact depth?_of_opens ho
  | step _ _ _ ih => exact ih

theorem Within.above {ts : List Token} {r : Reading} (h : Within ts s p r) (hg : Grounded ts) :
    ∃ inner, Above s p inner r.state := by
  induction h with
  | opened => exact ⟨[], rfl, List.suffix_rfl, by simp⟩
  | @step r r' h hs ho ih =>
    obtain ⟨inner, habove⟩ := ih
    exact habove.step h.depth? (hg r h.steps) hs ho

theorem Above.kept {r : Reading} {q : Pending} {outer : List Pending}
    {operands after : List Operand} (hp : p.depth? = some s.operands.length)
    (h : Above s p inner r.state) (hg : r.GroundedNow) (he : Ends r q outer operands after)
    (hl : outer.length = s.pending.length) :
    q = p ∧ outer = s.pending ∧ s.operands <:+ operands ∧ Kept s p after := by
  obtain ⟨inner, hpending, hoperands, -⟩ := h.applies hp he.applied
  -- the stacks are too low for a group inside
  obtain ⟨rfl, rfl⟩ : q = p ∧ outer = s.pending := by
    cases inner with
    | nil => exact List.cons.inj hpending
    | cons q' inner =>
      have hlength := congrArg List.length hpending
      simp only [List.length_cons, List.length_append] at hlength
      omega
  refine ⟨rfl, rfl, hoperands, ?_⟩
  obtain ⟨t, rest, hleft, hc⟩ := he.closed
  cases hc with
  | paren => exact .paren hoperands
  | @bare name depth _ ht hd =>
    obtain rfl : depth = s.operands.length := Option.some.inj hp
    obtain rfl := hoperands.eq_of_length_le hd
    exact .call none
  | @call name depth o _ ht hd =>
    obtain rfl : depth = s.operands.length := Option.some.inj hp
    have hrest := List.suffix_of_suffix_length_le hoperands (List.suffix_cons _ _)
      (Nat.le_of_eq hd.symm)
    obtain rfl := hrest.eq_of_length hd.symm
    exact .call (some o.items)
  | @bracket opening depth base position rest ht hd =>
    have hf := hg _ _ _ _ _ he
    refine .index (Nat.le_of_lt_succ hf) ?_
    rcases List.suffix_cons_iff.1 hoperands with heq | hsuf
    · -- as many operands as there are now would leave the brackets empty
      obtain rfl : depth = s.operands.length := Option.some.inj hp
      simp only [heq, List.length_cons] at hd
      omega
    · exact List.suffix_cons_iff.1 hsuf

/-- All groups keep the operands outside of them exactly when no index takes its base from outside
of the group around it. -/
theorem keepsGroups_iff (ts : List Token) : KeepsGroups ts ↔ Grounded ts := by
  constructor
  · intro h r hr opening depth outer operands after he
    obtain ⟨s, rfl, hw⟩ := exists_within hr rfl he.applied.suffix
    obtain ⟨-, -, -, hk⟩ := h s _ r _ _ operands after hw he rfl
    cases hk with
    | index hf _ => exact Nat.lt_succ_of_le hf
  · intro hg s p r q outer operands after hw he hl
    obtain ⟨inner, habove⟩ := hw.above hg
    exact habove.kept hw.depth? (hg r hw.steps) he hl

/-- `g(x, f([1]))`, token by token. -/
def strayTokens : List Token :=
  [⟨.name, "g", 0, 1⟩, ⟨.punctuation, "(", 1, 1⟩, ⟨.name, "x", 2, 1⟩, ⟨.punctuation, ",", 3, 1⟩,
    ⟨.name, "f", 5, 1⟩, ⟨.punctuation, "(", 6, 1⟩, ⟨.punctuation, "[", 7, 1⟩, ⟨.number, "1", 8, 1⟩,
    ⟨.punctuation, "]", 9, 1⟩, ⟨.punctuation, ")", 10, 1⟩, ⟨.punctuation, ")", 11, 1⟩]

/-- The index inside `f` takes `x`, which stands before it, and leaves `f` without an argument. -/
theorem strayTokens_not_kept :
    parse strayTokens = .ok (.call "g" (some [.index (.identifier "x") (.number "1"),
      .call "f" none])) ∧ ¬ KeepsGroups strayTokens := by
  refine ⟨rfl, fun h => ?_⟩
  let s : Stacks := ⟨[.plain (.identifier "x")],
    [.comma ⟨.punctuation, ",", 3, 1⟩, .call ⟨.name, "g", 0, 1⟩ 0]⟩
  have hs : Steps (start strayTokens) ⟨s, strayTokens.drop 4⟩ :=
    ((Relation.ReflTransGen.single
      (.opening (u := strayTokens.take 2) (.call rfl rfl))).tail
      (step_of_take rfl (by simp [Unopened, Token.isPunct]))).tail (step_of_take rfl (by simp))
  let f : Pending := .call ⟨.name, "f", 5, 1⟩ 1
  have hopened : Within strayTokens s f ⟨s.wait f, strayTokens.drop 6⟩ :=
    .opened (u := (strayTokens.drop 4).take 2) hs (.call rfl rfl)
  have hbracket := hopened.step (step_of_take rfl (by simp)) (by simp [s, f, Stacks.wait])
  have hnumber := hbracket.step (step_of_take rfl (by simp))
    (by simp [s, f, Stacks.wait, Stacks.push])
  have hindex := hnumber.step (step_of_take rfl (by simp)) (by simp [s, f, Stacks.wait])
  let o : Operand := .plain (.index (.identifier "x") (.number "1"))
  have hends : Ends ⟨⟨[o], f :: s.pending⟩, strayTokens.drop 9⟩ f s.pending [o]
      [.plain (.call "f" none), o] :=
    ⟨.stop (by simp [f, Pending.isAbove, Pending.isGroup, Pending.depth?]), _, _, rfl,
      .bare rfl (Nat.le_refl 1)⟩
  obtain ⟨-, -, hsuf, -⟩ := h s f _ _ _ _ _ hindex hends rfl
  simp [s, o, List.suffix_cons_iff] at hsuf

end Stencil.Expression.Reading
