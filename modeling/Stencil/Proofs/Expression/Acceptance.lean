import Stencil.Proofs.Expression.Loose
/-!
Which tokens are accepted as an expression. At any time what was read stands in groups, one inside
the other; in each of them, parts that the grammar derives stand between the operators that wait.
-/
set_option autoImplicit false

namespace Stencil.Expression

namespace Pending

def itemLevel : Nat := 4

theorem level_lt (p : Pending) : p.level < itemLevel := by
  cases p with
  | binary op => cases op <;> simp +decide [level, itemLevel]
  | _ => simp [level, itemLevel]

end Pending

namespace Loose

open Pending (itemLevel)

theorem Chain.mono {level tighter : Nat} {us : List Token} {s s' : List Operand}
    (h : Chain tighter us s s') (hl : level ≤ tighter) : Chain level us s s' := by
  cases h with
  | items h => exact .items h
  | link ht hp hs hu hj => exact .link ht (Nat.le_trans hl hp) hs hu hj

theorem Chain.items_of_itemLevel {us : List Token} {s s' : List Operand}
    (h : Chain itemLevel us s s') : Items us s s' := by
  cases h with
  | items h => exact h
  | @link _ _ _ _ p _ _ _ _ _ hp => exact absurd p.level_lt (Nat.not_lt.2 hp)

/-- What stands in a group so far: parts with waiting operators between them, each binding tighter
than the one before it. The last part has only operators of at least the given level. -/
inductive Stretch : Nat → List Token → List Pending → List Operand → Prop where
  | chain {level : Nat} {ts : List Token} {operands : List Operand}
      (h : Chain level ts [] operands) : Stretch level ts [] operands
  | link {level : Nat} {ts us : List Token} {t : Token} {p : Pending} {waiting : List Pending}
      {operands after : List Operand} (hs : Stretch p.level ts waiting operands) (hl : Links t p)
      (hp : p.level < level) (h : Chain level us operands after) :
      Stretch level (ts ++ t :: us) (p :: waiting) after

theorem Stretch.isGroup {level : Nat} {ts : List Token} {waiting : List Pending}
    {operands : List Operand} (h : Stretch level ts waiting operands) :
    ∀ p ∈ waiting, p.isGroup = false := by
  induction h with
  | chain => simp
  | link _ hl _ _ ih => simpa [isGroup_of_links hl] using ih

theorem Stretch.of_zero {ts : List Token} {waiting : List Pending} {operands : List Operand}
    (h : Stretch 0 ts waiting operands) : waiting = [] ∧ Chain 0 ts [] operands := by
  cases h with
  | chain h => exact ⟨rfl, h⟩
  | link _ _ hp => exact absurd hp (Nat.not_lt_zero _)

theorem Stretch.item {us vs : List Token} {waiting : List Pending} {operands after : List Operand}
    (h : Stretch itemLevel us waiting operands) (hi : Item vs operands after)
    (hp : Parted us vs) : Stretch itemLevel (us ++ vs) waiting after := by
  cases h with
  | chain h => exact .chain (.items (.snoc h.items_of_itemLevel hi hp))
  | @link _ ts us t p waiting _ _ hs hl hlt h =>
    have hlast : Parted ((ts ++ [t]) ++ us) vs := by simpa using hp
    have hitems := h.items_of_itemLevel.snoc hi (parted_of_append hlast)
    simpa using Stretch.link hs hl hlt (.items hitems)

theorem Stretch.join {level : Nat} {ts us : List Token} {t : Token} {p : Pending}
    {waiting : List Pending} {operands after joined : List Operand}
    (hs : Stretch level ts waiting operands) (hl : Links t p) (hp : p.level = level)
    (h : Chain (p.level + 1) us operands after) (hj : Joins p after joined) :
    Stretch level (ts ++ t :: us) waiting joined := by
  subst hp
  cases hs with
  | chain hs => exact .chain (.link hl (Nat.le_refl _) hs h hj)
  | link hs hl' hlt hlast =>
    have hchain := Chain.link hl (Nat.le_refl _) hlast h hj
    simpa using Stretch.link hs hl' hlt hchain

theorem Stretch.mono {level tighter : Nat} {ts : List Token} {waiting : List Pending}
    {operands : List Operand} (h : Stretch tighter ts waiting operands) (hl : level ≤ tighter)
    (hw : ∀ top ∈ waiting.head?, top.level < level) : Stretch level ts waiting operands := by
  cases h with
  | chain h => exact .chain (h.mono hl)
  | link hs ht hp h => exact .link hs ht (hw _ rfl) (h.mono hl)

theorem floor_append {waiting outer : List Pending} (h : ∀ p ∈ waiting, p.isGroup = false) :
    Pending.floor (waiting ++ outer) = Pending.floor outer := by
  induction waiting with
  | nil => rfl
  | cons p waiting ih =>
    have hp : p.depth? = none := by simpa [Pending.isGroup] using h p (by simp)
    simpa [Pending.floor_cons, hp] using ih fun q hq => h q (by simp [hq])

theorem exists_of_append {operands below rest : List Operand} {a b : Operand}
    (h : operands ++ below = a :: b :: rest) (hl : below.length ≤ rest.length) :
    ∃ before, rest = before ++ below ∧ operands = a :: b :: before := by
  have hsuf : below <:+ rest := List.suffix_of_suffix_length_le ⟨operands, h⟩
    ((List.suffix_cons _ _).trans (List.suffix_cons _ _)) hl
  obtain ⟨before, rfl⟩ := hsuf
  exact ⟨before, rfl, List.append_cancel_right h⟩

/-- Above the floor of its group, an operator takes operands of the group. -/
theorem exists_joins {p : Pending} {operands below after : List Operand}
    (h : Joins p (operands ++ below) after) (hl : below.length < after.length) :
    ∃ joined, after = joined ++ below ∧ Joins p operands joined := by
  generalize hops : operands ++ below = ops at h
  cases h with
  | binary =>
    obtain ⟨before, rfl, rfl⟩ := exists_of_append hops (Nat.le_of_lt_succ hl)
    exact ⟨_ :: before, rfl, .binary⟩
  | comma =>
    obtain ⟨before, rfl, rfl⟩ := exists_of_append hops (Nat.le_of_lt_succ hl)
    exact ⟨_ :: before, rfl, .comma⟩

/-- The operators of a group are applied to its own operands, and none of a group around it is. -/
theorem Stretch.applies {level tighter : Nat} {us : List Token} {waiting outer : List Pending}
    {operands below : List Operand} {s : Stacks} (hs : Stretch tighter us waiting operands)
    (hl : level ≤ tighter) (hfloor : Pending.floor outer = below.length)
    (houter : ∀ top ∈ outer.head?, top.isGroup = true)
    (ha : Applies level ⟨operands ++ below, waiting ++ outer⟩ s) :
    ∃ waiting operands, s = ⟨operands ++ below, waiting ++ outer⟩ ∧
      Stretch level us waiting operands := by
  generalize hnow : (⟨operands ++ below, waiting ++ outer⟩ : Stacks) = now at ha
  induction ha generalizing tighter us waiting operands with
  | stop h =>
    subst hnow
    refine ⟨waiting, operands, rfl, hs.mono hl ?_⟩
    intro top htop
    have hgroup := hs.isGroup top (List.mem_of_mem_head? htop)
    have hnot := h top (by simp [List.head?_append, Option.mem_def.1 htop])
    simpa [Pending.isAbove, hgroup] using hnot
  | @join p pending ops after s hp hj hf _ ih =>
    simp only [Stacks.mk.injEq] at hnow
    obtain ⟨rfl, hpending⟩ := hnow
    cases hs with
    | chain =>
      -- a group is left on top
      subst hpending
      simp [Pending.isAbove, houter p (by simp)] at hp
    | @link _ ts us t q waiting _ _ hs ht hlt h =>
      rw [List.cons_append, List.cons.injEq] at hpending
      obtain ⟨rfl, rfl⟩ := hpending
      rw [floor_append hs.isGroup, hfloor] at hf
      obtain ⟨joined, rfl, hjoin⟩ := exists_joins hj hf
      have habove : level ≤ q.level := by simpa [isAbove_of_links ht] using hp
      exact ih (hs.join ht rfl (h.mono hlt) hjoin) habove rfl

/-- What stands outside of the innermost group: the groups around it, with all that was finished in
them and waits in them when the next one opened. -/
inductive Outside : List Token → List Pending → List Operand → Prop where
  | nil : Outside [] [] []
  | group {ts us vs : List Token} {outer waiting : List Pending} {below operands : List Operand}
      {p : Pending} (ho : Outside ts outer below) (hs : Stretch itemLevel us waiting operands)
      (hp : Parted us vs) (h : Opens vs p (operands ++ below).length) :
      Outside (ts ++ us ++ vs) (p :: (waiting ++ outer)) (operands ++ below)

theorem Outside.floor {ts : List Token} {outer : List Pending} {below : List Operand}
    (h : Outside ts outer below) : Pending.floor outer = below.length := by
  cases h with
  | nil => rfl
  | group _ _ _ h => simp [Pending.floor_cons, depth?_of_opens h]

theorem Outside.isGroup {ts : List Token} {outer : List Pending} {below : List Operand}
    (h : Outside ts outer below) : ∀ top ∈ outer.head?, top.isGroup = true := by
  cases h with
  | nil => simp
  | group _ _ _ h => simpa using isGroup_of_opens h

theorem exists_item {us inner : List Token} {t : Token} {p : Pending}
    {s inside below after : List Operand} (ho : Opens us p (s ++ below).length)
    (hi : Chain 0 inner [] inside) (hc : Closes t p (inside ++ (s ++ below)) after)
    (hg : t.isPunct "]" = true → below.length < after.length) :
    ∃ left, after = left ++ below ∧ Item (us ++ inner ++ [t]) s left := by
  generalize hops : inside ++ (s ++ below) = operands at hc
  have hlength := congrArg List.length hops
  cases ho with
  | call hn ho =>
    cases hc with
    | bare ht hd =>
      obtain rfl : inside = [] := by
        rw [← List.length_eq_zero_iff]
        rw [List.length_append] at hlength
        omega
      exact ⟨_ :: s, by simp [← hops], .call hn ho hi ht⟩
    | @call _ _ o rest ht hd =>
      obtain ⟨rfl, rfl⟩ : inside = [o] ∧ s ++ below = rest :=
        List.append_inj' (by simpa using hops) hd.symm
      exact ⟨_ :: s, rfl, .callWith hn ho hi ht⟩
  | paren ho =>
    cases hc with
    | paren ht => exact ⟨inside ++ s, by simp [← hops], .parens ho hi ht⟩
  | bracket ho =>
    cases hc with
    | @bracket _ _ base position rest ht hd =>
      have hne : inside ≠ [] := by
        rintro rfl
        rw [List.nil_append, List.length_cons, List.length_cons] at hlength
        omega
      rw [← List.append_assoc] at hops
      obtain ⟨before, rfl, hs⟩ := exists_of_append hops (Nat.le_of_lt_succ (hg ht))
      exact ⟨_ :: before, rfl, .index ho hi ht hne hs⟩

/-- All tokens are accounted for, those that were read and those that are left. -/
inductive Holds : List Token → Reading → Prop where
  | mk {ts us left : List Token} {outer waiting : List Pending} {below operands : List Operand}
      (ho : Outside ts outer below) (hs : Stretch itemLevel us waiting operands)
      (hp : Parted us left) :
      Holds (ts ++ us ++ left) ⟨⟨operands ++ below, waiting ++ outer⟩, left⟩

/-- An operand is an item, an operator begins a new part, and what is read between the ends of a
group becomes an item of the group around it. -/
theorem Holds.step {ts : List Token} {r r' : Reading} (h : Holds ts r) (hg : r.GroundedNow)
    (hr : r.Step r') : Holds ts r' := by
  obtain @⟨ts, us, left, outer, waiting, below, operands, ho, hs, hp⟩ := h
  cases hr with
  | @operand _ t e rest hleaf hn =>
    have hlast : Parted us [t] := parted_of_append_left hp
    have hstretch := hs.item (.leaf hleaf) hlast
    simpa [Stacks.push] using Holds.mk ho hstretch (parted_snoc hn)
  | @link _ s' t p rest hl ha =>
    obtain ⟨waiting', operands', rfl, hs'⟩ :=
      hs.applies (Nat.le_of_lt p.level_lt) ho.floor ho.isGroup ha
    have hlast : Parted (us ++ [t]) rest := parted_snoc fun hn => by
      cases hl with
      | operator hk => simp [hk] at hn
      | comma hk => simp [(kind_of_isPunct hk).1] at hn
    have hnext := Stretch.link hs' hl p.level_lt (.items .nil)
    simpa [Stacks.wait] using Holds.mk ho hnext hlast
  | @opening _ u p rest hopen =>
    have hopened : Outside (ts ++ us ++ u) (p :: (waiting ++ outer)) (operands ++ below) :=
      .group ho hs (parted_of_append_left hp) hopen
    have hnil : Stretch itemLevel [] [] [] := .chain (.items .nil)
    have hempty : Parted [] rest := by simp [Parted]
    simpa [Stacks.wait] using Holds.mk hopened hnil hempty
  | @closing _ t p outer' ops after rest ha hc =>
    obtain ⟨waiting', inside, heq, hs'⟩ := hs.applies (Nat.zero_le _) ho.floor ho.isGroup ha
    obtain ⟨rfl, hinner⟩ := hs'.of_zero
    obtain ⟨rfl, rfl⟩ : ops = inside ++ below ∧ p :: outer' = outer := by simpa using heq
    cases ho with
    | @group ts₀ us₀ vs outer₀ waiting₀ below₀ operands₀ _ ho hs₀ hp₀ hopen =>
      have hkept (ht : t.isPunct "]" = true) : below₀.length < after.length := by
        obtain ⟨opening, depth, rfl⟩ := bracket_of_closes hc ht
        have hfloor := hg _ _ _ _ _ ⟨ha, t, rest, rfl, hc⟩
        rwa [floor_append hs₀.isGroup, ho.floor] at hfloor
      obtain ⟨left, rfl, hitem⟩ := exists_item hopen hinner hc hkept
      have hstretch := hs₀.item hitem (by simpa using parted_append hp₀ (ne_nil_of_opens hopen))
      have hlast : Parted (us₀ ++ (vs ++ us) ++ [t]) rest :=
        parted_snoc fun hn => by simp [kind_of_closes hc] at hn
      simpa using Holds.mk ho hstretch (by simpa using hlast)

theorem Holds.loose {ts : List Token} {s : Stacks} {e : Expression} (h : Holds ts ⟨s, []⟩)
    (ha : Applies 0 s ⟨[.plain e], []⟩) : Loose ts e := by
  obtain @⟨_, us, _, outer, waiting, below, operands, ho, hs, -⟩ := h
  obtain ⟨waiting', operands', heq, hs'⟩ := hs.applies (Nat.zero_le _) ho.floor ho.isGroup ha
  obtain ⟨rfl, hchain⟩ := hs'.of_zero
  obtain ⟨hoperands, rfl⟩ : [.plain e] = operands' ++ below ∧ [] = outer := by simpa using heq
  cases ho with
  | nil =>
    obtain rfl : [.plain e] = operands' := by simpa using hoperands
    simpa [Loose] using hchain

theorem Holds.steps {ts : List Token} (hg : Reading.Grounded ts) {r : Reading}
    (h : Reading.Steps (.start ts) r) : Holds ts r := by
  induction h with
  | refl => exact .mk .nil (.chain (.items .nil)) (by simp [Parted])
  | tail hsteps hstep ih => exact ih.step (hg _ hsteps) hstep

end Loose

/-- The tokens that are read as an expression, with no index that takes its base from outside of
the group around it, are those that the grammar derives it from. -/
theorem parse_eq_ok_iff_loose (ts : List Token) (e : Expression) :
    parse ts = .ok e ∧ Reading.Grounded ts ↔ Loose ts e := by
  constructor
  · rintro ⟨h, hg⟩
    obtain ⟨s, hsteps, happlies⟩ := Reading.parse_eq_ok_iff.1 h
    exact (Loose.Holds.steps hg hsteps).loose happlies
  · exact parse_of_loose

theorem Grammar.Primary.leaf_or {ts : List Token} {e : Expression} (h : Primary ts e) :
    (∃ t, ts = [t]) ∨ ∃ t ∈ ts, t.kind = .punctuation := by
  cases h with
  | number | string | name => exact .inl ⟨_, rfl⟩
  | call _ ho | callWith _ ho | parens ho | index _ ho =>
    exact .inr ⟨_, by simp, (kind_of_isPunct ho).1⟩

theorem Grammar.Spelled.second {t u : Token} {rest : List Token} {e : Expression}
    (h : Spelled (t :: u :: rest) e) (hp : ∀ v ∈ t :: u :: rest, v.kind ≠ .punctuation) :
    u.kind = .operator := by
  generalize hts : t :: u :: rest = ts at h hp
  cases h with
  | @chain first more _ _ he hm =>
    obtain ⟨v, rfl⟩ | ⟨v, hv, hk⟩ := he.leaf_or
    · obtain ⟨rfl, hmore⟩ := List.cons.inj hts
      cases hm with
      | nil => simp at hmore
      | cons ht =>
        obtain ⟨rfl, -⟩ := List.cons.inj hmore
        exact ht
    · exact absurd hk (hp v (by simp [hv]))

/-- Parentheses directly inside the parentheses of a call are left out. -/
inductive Bared : List Token → List Token → Prop where
  | refl (ts : List Token) : Bared ts ts
  | strip {name opening inside closing after : Token} {front inner back us : List Token}
      (hn : name.kind = .name) (ho : opening.isPunct "(" = true) (hi : inside.isPunct "(" = true)
      (hc : closing.isPunct ")" = true) (ha : after.isPunct ")" = true)
      (h : Bared (front ++ [name, opening] ++ inner ++ [after] ++ back) us) :
      Bared (front ++ [name, opening, inside] ++ inner ++ [closing, after] ++ back) us

/-- `1 2 +`, token by token. -/
def postfixTokens : List Token :=
  [⟨.number, "1", 0, 1⟩, ⟨.number, "2", 2, 1⟩, ⟨.operator, "+", 4, 1⟩]

/-- What is accepted need not be spelled as an expression, not even without such parentheses. -/
theorem postfixTokens_not_spelled :
    parse postfixTokens = .ok (.binary .add (.number "1") (.number "2")) ∧
      ∀ us e, Bared postfixTokens us → ¬ Grammar.Spelled us e := by
  refine ⟨rfl, fun us e hb hs => ?_⟩
  generalize hts : postfixTokens = ts at hb
  cases hb with
  | refl =>
    subst hts
    simpa using Grammar.Spelled.second hs (by simp)
  | @strip name opening inside _ _ front _ _ _ _ ho =>
    have hmem : opening ∈ postfixTokens := by simp [hts]
    simp [postfixTokens] at hmem
    rcases hmem with rfl | rfl | rfl <;> simp [Token.isPunct] at ho

end Stencil.Expression
