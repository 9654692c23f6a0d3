import Stencil.Proofs.Expression.Groups
/-!
The grammar of what is read as an expression. It asks less than that operators stand between their
operands: an item leaves operands to its group, and an operator, a comma or an index takes the last
two of those that its group has when its turn comes, wherever they stand. What the operators do to
the operands of a group is said for each part of the group, from those before it to those after it,
the last operand first.
-/
set_option autoImplicit false

namespace Stencil.Expression

/-- Where a name ends some tokens, what follows does not make it the name of a call. -/
def Parted (ts rest : List Token) : Prop := ∀ t ∈ ts.getLast?, t.kind = .name → Unopened rest

theorem parted_of_append {ts us rest : List Token} (h : Parted (ts ++ us) rest) :
    Parted us rest := by
  intro t ht
  exact h t (by simp [List.getLast?_append, Option.mem_def.1 ht])

theorem parted_append {ts us rest : List Token} (h : Parted ts us) (hne : us ≠ []) :
    Parted ts (us ++ rest) := by
  intro t ht hn u hu
  cases us with
  | nil => simp at hne
  | cons v us => exact h t ht hn u hu

theorem parted_of_append_left {ts us rest : List Token} (h : Parted ts (us ++ rest)) :
    Parted ts us := by
  intro t ht hn u hu
  exact h t ht hn u (by simp [List.head?_append, Option.mem_def.1 hu])

theorem parted_snoc {ts rest : List Token} {t : Token} (h : t.kind = .name → Unopened rest) :
    Parted (ts ++ [t]) rest := by
  intro u hu
  obtain rfl : t = u := by simpa using hu
  exact h

namespace Loose

mutual

/-- Parentheses leave all that is left inside of them. A call has what is left inside as its
arguments, which is one operand at most. An index takes at least its position from inside. -/
inductive Item : List Token → List Operand → List Operand → Prop where
  | leaf {t : Token} {e : Expression} {s : List Operand} (h : Leaf t e) :
      Item [t] s (.plain e :: s)
  | call {name opening closing : Token} {inner : List Token} {s : List Operand}
      (hn : name.kind = .name) (ho : opening.isPunct "(" = true) (hi : Chain 0 inner [] [])
      (hc : closing.isPunct ")" = true) :
      Item ([name, opening] ++ inner ++ [closing]) s (.plain (.call name.value none) :: s)
  | callWith {name opening closing : Token} {inner : List Token} {o : Operand} {s : List Operand}
      (hn : name.kind = .name) (ho : opening.isPunct "(" = true) (hi : Chain 0 inner [] [o])
      (hc : closing.isPunct ")" = true) :
      Item ([name, opening] ++ inner ++ [closing]) s (.plain (.call name.value (some o.items)) :: s)
  | parens {opening closing : Token} {inner : List Token} {inside s : List Operand}
      (ho : opening.isPunct "(" = true) (hi : Chain 0 inner [] inside)
      (hc : closing.isPunct ")" = true) : Item ([opening] ++ inner ++ [closing]) s (inside ++ s)
  | index {opening closing : Token} {inner : List Token} {inside s rest : List Operand}
      {base position : Expression} (ho : opening.isPunct "[" = true)
      (hi : Chain 0 inner [] inside) (hc : closing.isPunct "]" = true) (hne : inside ≠ [])
      (hs : inside ++ s = .plain position :: .plain base :: rest) :
      Item ([opening] ++ inner ++ [closing]) s (.plain (.index base position) :: rest)

inductive Items : List Token → List Operand → List Operand → Prop where
  | nil {s : List Operand} : Items [] s s
  | snoc {ts us : List Token} {s s₁ s₂ : List Operand} (hs : Items ts s s₁) (hu : Item us s₁ s₂)
      (hp : Parted ts us) : Items (ts ++ us) s s₂

/-- Items with operators and commas of at least a given level among them. An operator is applied
when what stands on its right is done with, the tighter operators there before it. -/
inductive Chain : Nat → List Token → List Operand → List Operand → Prop where
  | items {level : Nat} {ts : List Token} {s s' : List Operand} (h : Items ts s s') :
      Chain level ts s s'
  | link {level : Nat} {ts us : List Token} {t : Token} {p : Pending}
      {s s₁ s₂ s₃ : List Operand} (hl : Links t p) (hp : level ≤ p.level)
      (hs : Chain p.level ts s s₁) (hu : Chain (p.level + 1) us s₁ s₂) (hj : Joins p s₂ s₃) :
      Chain level (ts ++ t :: us) s s₃

end

end Loose

def Loose (ts : List Token) (e : Expression) : Prop := Loose.Chain 0 ts [] [.plain e]

namespace Reading

def Safe (r r' : Reading) : Prop := Step r r' ∧ r.GroundedNow

abbrev SafeSteps : Reading → Reading → Prop := Relation.ReflTransGen Safe

theorem groundedNow_of_isPunct {s : Stacks} {t : Token} {rest : List Token}
    (h : t.isPunct "]" = false) : GroundedNow ⟨s, t :: rest⟩ := by
  intro opening depth outer operands after he
  obtain ⟨t', rest', heq, hc⟩ := he.closed
  obtain ⟨rfl, rfl⟩ := List.cons.inj heq
  cases hc with
  | bracket ht => simp [h] at ht

theorem groundedNow_nil {s : Stacks} : GroundedNow ⟨s, []⟩ := by
  intro opening depth outer operands after he
  obtain ⟨t, rest, heq, -⟩ := he.closed
  simp at heq

theorem safe_operand {s : Stacks} {t : Token} {e : Expression} {rest : List Token} (h : Leaf t e)
    (hn : t.kind = .name → Unopened rest) : Safe ⟨s, t :: rest⟩ ⟨s.push e, rest⟩ := by
  refine ⟨.operand h hn, groundedNow_of_isPunct (isPunct_of_kind ?_ _)⟩
  cases h with
  | number hk | string hk | name hk => simp [hk]

theorem safe_link {s s' : Stacks} {t : Token} {p : Pending} {rest : List Token} (h : Links t p)
    (ha : Applies p.level s s') : Safe ⟨s, t :: rest⟩ ⟨s'.wait p, rest⟩ := by
  refine ⟨.link h ha, groundedNow_of_isPunct ?_⟩
  cases h with
  | operator hk => exact isPunct_of_kind (by simp [hk]) _
  | comma hk => exact isPunct_of_isPunct hk (by decide)

theorem safe_opening {s : Stacks} {us : List Token} {p : Pending} {rest : List Token}
    (h : Opens us p s.operands.length) : Safe ⟨s, us ++ rest⟩ ⟨s.wait p, rest⟩ := by
  refine ⟨.opening h, ?_⟩
  cases h with
  | call hn => exact groundedNow_of_isPunct (isPunct_of_kind (by simp [hn]) _)
  | paren ho | bracket ho => exact groundedNow_of_isPunct (isPunct_of_isPunct ho (by decide))

theorem safe_closing {s : Stacks} {t : Token} {p : Pending} {outer : List Pending}
    {operands after : List Operand} {rest : List Token} (ha : Applies 0 s ⟨operands, p :: outer⟩)
    (hc : Closes t p operands after)
    (hf : t.isPunct "]" = true → Pending.floor outer < after.length) :
    Safe ⟨s, t :: rest⟩ ⟨⟨after, outer⟩, rest⟩ := by
  have hs : Step ⟨s, t :: rest⟩ ⟨⟨after, outer⟩, rest⟩ := .closing ha hc
  refine ⟨hs, ?_⟩
  intro opening depth outer' operands' after' he
  obtain ⟨t', rest', heq, hc'⟩ := he.closed
  obtain ⟨rfl, rfl⟩ := List.cons.inj heq
  have hr := hs.unique (.closing he.applied hc')
  simp only [Reading.mk.injEq, Stacks.mk.injEq, and_true] at hr
  obtain ⟨rfl, rfl⟩ := hr
  cases hc' with
  | bracket ht => exact hf ht

theorem steps_of_safeSteps {r r' : Reading} (h : SafeSteps r r') : Steps r r' :=
  Relation.ReflTransGen.mono (fun _ _ => And.left) _ _ h

/-- There is no way but the safe one, where it goes on to the end. -/
theorem groundedNow_of_safeSteps {r r' x : Reading} (h : SafeSteps r r') (hend : r'.left = [])
    (hx : Steps r x) : x.GroundedNow := by
  induction h using Relation.ReflTransGen.head_induction_on with
  | refl =>
    obtain ⟨s, left⟩ := r'
    obtain rfl : left = [] := hend
    rcases hx.cases_head with rfl | ⟨y, hy, -⟩
    · exact groundedNow_nil
    · rcases hy.taken with ⟨_, _, _, heq, -⟩ | ⟨_, _, _, heq, -⟩ <;> simp at heq
  | head hs _ ih =>
    rcases hx.cases_head with rfl | ⟨y, hy, hyx⟩
    · exact hs.2
    · obtain rfl := hs.1.unique hy
      exact ih hyx

end Reading

namespace Loose

open Reading

def Runs (us : List Token) (s s' : List Operand) : Prop :=
  ∀ (below : List Operand) (outer : List Pending) (rest : List Token),
    Pending.floor outer = below.length → Parted us rest →
      SafeSteps ⟨⟨s ++ below, outer⟩, us ++ rest⟩ ⟨⟨s' ++ below, outer⟩, rest⟩

def Settled (level : Nat) (us : List Token) (s s' : List Operand) : Prop :=
  ∀ (below : List Operand) (outer : List Pending) (rest : List Token),
    Pending.floor outer = below.length → (∀ top ∈ outer.head?, top.isAbove level = false) →
    Parted us rest → ∃ now, SafeSteps ⟨⟨s ++ below, outer⟩, us ++ rest⟩ ⟨now, rest⟩ ∧
      Applies level now ⟨s' ++ below, outer⟩

theorem runs_leaf {t : Token} {e : Expression} {s : List Operand} (h : Leaf t e) :
    Runs [t] s (.plain e :: s) :=
  fun _ _ _ _ hp => .single (safe_operand h fun hn => hp t rfl hn)

theorem unopened_of_closes {t : Token} {p : Pending} {operands after : List Operand}
    (h : Closes t p operands after) (rest : List Token) : Unopened (t :: rest) := by
  cases h with
  | paren h | bare h | call h | bracket h =>
    simpa [Unopened] using isPunct_of_isPunct h (b := "(") (by decide)

/-- A group is opened, read and closed. What opens it remembers how many operands are finished. -/
theorem runs_group {us inner : List Token} {t : Token} {g : Nat → Pending}
    {s inside after : List Operand} (ho : ∀ depth, Opens us (g depth) depth)
    (hi : Settled 0 inner [] inside)
    (hc : ∀ below : List Operand,
      Closes t (g (s ++ below).length) (inside ++ (s ++ below)) (after ++ below))
    (hf : t.isPunct "]" = true → after ≠ []) : Runs (us ++ inner ++ [t]) s after := by
  intro below outer rest hbelow _
  have hopen : Safe ⟨⟨s ++ below, outer⟩, us ++ (inner ++ t :: rest)⟩
      ⟨⟨s ++ below, g (s ++ below).length :: outer⟩, inner ++ t :: rest⟩ := safe_opening (ho _)
  have hgroup := isGroup_of_opens (ho (s ++ below).length)
  obtain ⟨now, hsteps, happlies⟩ := hi (s ++ below) (g (s ++ below).length :: outer) (t :: rest)
    (by simp [Pending.floor_cons, depth?_of_opens (ho _)])
    (by simp only [List.head?_cons, Option.mem_some_iff, forall_eq', Pending.isAbove, hgroup]; rfl)
    fun _ _ _ => unopened_of_closes (hc below) rest
  have hclose : Safe ⟨now, t :: rest⟩ ⟨⟨after ++ below, outer⟩, rest⟩ := by
    refine safe_closing happlies (hc below) fun ht => ?_
    have hpos := List.length_pos_iff.2 (hf ht)
    simp only [List.length_append]
    omega
  simpa using (Relation.ReflTransGen.head hopen hsteps).tail hclose

theorem Item.ne_nil {us : List Token} {s s' : List Operand} (h : Item us s s') : us ≠ [] := by
  cases h <;> simp

theorem unopened_of_links {t : Token} {p : Pending} (h : Links t p) (rest : List Token) :
    Unopened (t :: rest) := by
  cases h with
  | operator hk => simpa [Unopened] using isPunct_of_kind (t := t) (by simp [hk]) "("
  | comma hk => simpa [Unopened] using isPunct_of_isPunct hk (b := "(") (by decide)

theorem isAbove_of_links {t : Token} {p : Pending} (h : Links t p) (level : Nat) :
    p.isAbove level = decide (level ≤ p.level) := by
  simp [Pending.isAbove, isGroup_of_links h]

theorem joins_append {p : Pending} {operands after : List Operand} (h : Joins p operands after)
    (below : List Operand) : Joins p (operands ++ below) (after ++ below) := by
  cases h with
  | binary => exact .binary
  | comma => exact .comma

theorem length_pos_of_joins {p : Pending} {operands after : List Operand}
    (h : Joins p operands after) : 0 < after.length := by
  cases h <;> simp

theorem settled_of_runs {level : Nat} {us : List Token} {s s' : List Operand} (h : Runs us s s') :
    Settled level us s s' :=
  fun below outer rest hbelow houter hp => ⟨_, h below outer rest hbelow hp, .stop houter⟩

theorem settled_link {level : Nat} {ts us : List Token} {t : Token} {p : Pending}
    {s s₁ s₂ s₃ : List Operand} (hl : Links t p) (hp : level ≤ p.level)
    (hs : Settled p.level ts s s₁) (hu : Settled (p.level + 1) us s₁ s₂) (hj : Joins p s₂ s₃) :
    Settled level (ts ++ t :: us) s s₃ := by
  intro below outer rest hbelow houter hparted
  obtain ⟨now, hsteps, happlies⟩ := hs below outer (t :: (us ++ rest)) hbelow
    (fun top ht => Bool.eq_false_iff.2 fun h =>
      Bool.eq_false_iff.1 (houter top ht) (Pending.isAbove_mono h hp))
    (fun _ _ _ => unopened_of_links hl _)
  have hlink : Safe ⟨now, t :: (us ++ rest)⟩ ⟨⟨s₁ ++ below, p :: outer⟩, us ++ rest⟩ :=
    safe_link hl happlies
  have hdepth : p.depth? = none := by simpa [Pending.isGroup] using isGroup_of_links hl
  have hright : Parted ((ts ++ [t]) ++ us) rest := by simpa using hparted
  obtain ⟨now', hsteps', happlies'⟩ := hu below (p :: outer) rest
    (by simpa [Pending.floor_cons, hdepth] using hbelow)
    (by simp [isAbove_of_links hl])
    (parted_of_append hright)
  have hfloor : Pending.floor outer < (s₃ ++ below).length := by
    have hpos := length_pos_of_joins hj
    simp only [List.length_append]
    omega
  have hjoin : Applies level ⟨s₂ ++ below, p :: outer⟩ ⟨s₃ ++ below, outer⟩ :=
    .join (by simpa [isAbove_of_links hl] using hp) (joins_append hj below) hfloor (.stop houter)
  refine ⟨now', ?_, happlies'.trans (by omega) hjoin⟩
  simpa using (hsteps.tail hlink).trans hsteps'

theorem closes_index {t opening : Token} {inside s rest : List Operand} {base position : Expression}
    (ht : t.isPunct "]" = true) (hne : inside ≠ [])
    (hs : inside ++ s = .plain position :: .plain base :: rest) (below : List Operand) :
    Closes t (.bracket opening (s ++ below).length) (inside ++ (s ++ below))
      (.plain (.index base position) :: (rest ++ below)) := by
  have hlength := congrArg List.length hs
  have hpos := List.length_pos_iff.2 hne
  have hdepth : (s ++ below).length ≤ (rest ++ below).length + 1 := by
    simp only [List.length_append, List.length_cons] at hlength ⊢
    omega
  rw [← List.append_assoc, hs]
  exact .bracket ht hdepth

mutual

theorem runs_of_item : {us : List Token} → {s s' : List Operand} → Item us s s' → Runs us s s'
  | _, _, _, .leaf h => runs_leaf h
  | _, _, _, .call hn ho hi hc =>
    runs_group (fun _ => .call hn ho) (settled_of_chain hi) (fun _ => .bare hc (Nat.le_refl _))
      (by simp)
  | _, _, _, .callWith hn ho hi hc =>
    runs_group (fun _ => .call hn ho) (settled_of_chain hi) (fun _ => .call hc rfl) (by simp)
  | _, _, _, .parens ho hi hc =>
    runs_group (fun _ => .paren ho) (settled_of_chain hi) (fun _ => by simpa using .paren hc)
      (by simp [isPunct_of_isPunct hc])
  | _, _, _, .index ho hi hc hne hs =>
    runs_group (fun _ => .bracket ho) (settled_of_chain hi) (closes_index hc hne hs) (by simp)

theorem runs_of_items : {us : List Token} → {s s' : List Operand} → Items us s s' → Runs us s s'
  | _, _, _, .nil => fun _ _ _ _ _ => .refl
  | _, _, _, .snoc hs hu hp => by
    intro below outer rest hbelow hparted
    have hfirst := runs_of_items hs below outer (_ ++ rest) hbelow (parted_append hp hu.ne_nil)
    simpa using hfirst.trans (runs_of_item hu below outer rest hbelow (parted_of_append hparted))

theorem settled_of_chain : {level : Nat} → {us : List Token} → {s s' : List Operand} →
    Chain level us s s' → Settled level us s s'
  | _, _, _, _, .items h => settled_of_runs (runs_of_items h)
  | _, _, _, _, .link hl hp hs hu hj =>
    settled_link hl hp (settled_of_chain hs) (settled_of_chain hu) hj

end

end Loose

/-- What the grammar derives is read as it says, and no index goes out of its group. -/
theorem parse_of_loose {ts : List Token} {e : Expression} (h : Loose ts e) :
    parse ts = .ok e ∧ Reading.Grounded ts := by
  obtain ⟨now, hsteps, happlies⟩ := Loose.settled_of_chain h [] [] [] rfl (by simp)
    (by simp [Parted, Unopened])
  simp only [List.append_nil] at hsteps
  exact ⟨Reading.parse_eq_ok_iff.2 ⟨now, Reading.steps_of_safeSteps hsteps, happlies⟩,
    fun r hr => Reading.groundedNow_of_safeSteps hsteps rfl hr⟩

end Stencil.Expression
