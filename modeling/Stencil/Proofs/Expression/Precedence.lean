import Stencil.Proofs.Expression.Grammar
/-!
The reader of expressions finds the tree of the grammar. Whatever surrounds an operand on the two
stacks stays as it is while the operand is read, and what waits above it when it has been read are
operators of at least its own priority, which every later token applies first.
-/
set_option autoImplicit false

namespace Stencil.Expression

theorem Pending.floor_cons (top : Pending) (outer : List Pending) :
    floor (top :: outer) = top.depth?.getD (floor outer) := by
  cases hd : top.depth? <;> simp [floor, hd]

namespace Stacks

def Founded (s : Stacks) : Prop := Pending.floor s.pending ≤ s.operands.length

def Blocks (p : Nat) (s : Stacks) : Prop := ∀ top ∈ s.pending.head?, top.yieldsTo p = false

def hold (s : Stacks) (o : Operand) : Stacks := ⟨o :: s.operands, s.pending⟩

theorem Founded.hold {s : Stacks} (h : s.Founded) (o : Operand) : (s.hold o).Founded :=
  Nat.le_succ_of_le h

theorem Founded.push {s : Stacks} (h : s.Founded) (e : Expression) : (s.push e).Founded :=
  h.hold (.plain e)

theorem Founded.wait {s : Stacks} (h : s.Founded) {p : Pending}
    (hp : ∀ depth ∈ p.depth?, depth = s.operands.length) : (s.wait p).Founded := by
  have hfloor : Pending.floor (p :: s.pending) ≤ s.operands.length := by
    rw [Pending.floor_cons]
    cases hd : p.depth? with
    | none => exact h
    | some depth => exact Nat.le_of_eq (hp depth hd)
  exact hfloor

theorem applyWhile_stop {c : Pending → Bool} {s : Stacks}
    (h : ∀ top ∈ s.pending.head?, c top = false) : s.applyWhile c = .ok s := by
  obtain ⟨operands, pending⟩ := s
  cases pending with
  | nil => rfl
  | cons top outer =>
    have ht : c top = false := h top (by simp)
    simp [applyWhile, Expression.applyWhile, ht, bind, Except.bind, pure, Except.pure]

theorem applyWhile_cons {c : Pending → Bool} {top : Pending} {outer : List Pending}
    {operands after : List Operand} (hc : c top = true)
    (ha : apply outer operands top = .ok after) :
    (⟨operands, top :: outer⟩ : Stacks).applyWhile c = (⟨after, outer⟩ : Stacks).applyWhile c := by
  simp [applyWhile, Expression.applyWhile, hc, ha]

theorem applyWhile_binary {c : Pending → Bool} {s : Stacks} (hs : s.Founded) {op : BinaryOp}
    {t : Token} (hc : c (.binary op t) = true) (a b : Expression) :
    (((s.push a).wait (.binary op t)).push b).applyWhile c
      = (s.push (.binary op a b)).applyWhile c := by
  have hf : ¬ s.operands.length + 1 + 1 < Pending.floor s.pending + 2 := by
    unfold Founded at hs
    omega
  apply applyWhile_cons hc
  simp [apply, Stacks.wait, push, popPlain, hf, bind, Except.bind, pure, Except.pure]

theorem applyWhile_comma {c : Pending → Bool} {s : Stacks} (hs : s.Founded) {t : Token}
    (hc : c (.comma t) = true) (o : Operand) (b : Expression) :
    (((s.hold o).wait (.comma t)).push b).applyWhile c
      = (s.hold (gather t b o)).applyWhile c := by
  have hf : ¬ s.operands.length + 1 + 1 < Pending.floor s.pending + 2 := by
    unfold Founded at hs
    omega
  apply applyWhile_cons hc
  simp [apply, Stacks.wait, hold, popPlain, hf, bind, Except.bind, pure, Except.pure]

theorem takeAll_of_take {s s' : Stacks} {t : Token} {rest : List Token} (h : s.take t = .ok s')
    (hn : t.kind = .name → ∀ next ∈ rest.head?, next.isPunct "(" = false) :
    s.takeAll (t :: rest) = s'.takeAll rest := by
  cases rest with
  | nil => simp [takeAll, h]
  | cons next rest =>
    have hc : ¬ (t.kind = .name ∧ next.isPunct "(" = true) := by
      rintro ⟨ht, hp⟩
      rw [hn ht next (by simp)] at hp
      simp at hp
    simp [takeAll, hc, h]

theorem takeAll_call {name opening : Token} (hn : name.kind = .name)
    (ho : opening.isPunct "(" = true) (s : Stacks) (rest : List Token) :
    s.takeAll (name :: opening :: rest) = (s.wait (.call name s.operands.length)).takeAll rest := by
  simp [takeAll, hn, ho]

end Stacks

theorem kind_of_isPunct {t : Token} {symbol : String} (h : t.isPunct symbol = true) :
    t.kind = .punctuation ∧ t.value = symbol := by simpa [Token.isPunct] using h

namespace Stacks

variable {s : Stacks} {t : Token}

theorem take_openParen (h : t.isPunct "(" = true) :
    s.take t = .ok (s.wait (.paren t s.operands.length)) := by
  obtain ⟨hk, hv⟩ := kind_of_isPunct h
  simp [take, hk, punctuation, hv]

theorem take_openBracket (h : t.isPunct "[" = true) :
    s.take t = .ok (s.wait (.bracket t s.operands.length)) := by
  obtain ⟨hk, hv⟩ := kind_of_isPunct h
  simp [take, hk, punctuation, hv]

theorem take_comma (h : t.isPunct "," = true) {s' : Stacks} (hg : s.applyGroup = .ok s') :
    s.take t = .ok (s'.wait (.comma t)) := by
  obtain ⟨hk, hv⟩ := kind_of_isPunct h
  simp [take, hk, punctuation, hv, hg, bind, Except.bind, pure, Except.pure]

theorem take_closeParen (h : t.isPunct ")" = true) : s.take t = s.closeParen t := by
  obtain ⟨hk, hv⟩ := kind_of_isPunct h
  simp [take, hk, punctuation, hv]

theorem take_closeBracket (h : t.isPunct "]" = true) : s.take t = s.closeBracket t := by
  obtain ⟨hk, hv⟩ := kind_of_isPunct h
  simp [take, hk, punctuation, hv]

theorem closeParen_paren {operands : List Operand} {opening : Token} {depth : Nat}
    {outer : List Pending} (h : s.applyGroup = .ok ⟨operands, .paren opening depth :: outer⟩) :
    s.closeParen t = .ok ⟨operands, outer⟩ := by
  simp [closeParen, h, bind, Except.bind, pure, Except.pure]

theorem closeParen_call {operands after : List Operand} {name : Token} {depth : Nat}
    {outer : List Pending} (h : s.applyGroup = .ok ⟨operands, .call name depth :: outer⟩)
    (he : endCall name depth t operands = .ok after) : s.closeParen t = .ok ⟨after, outer⟩ := by
  simp [closeParen, h, he, bind, Except.bind, pure, Except.pure]

theorem closeBracket_bracket {rest : List Operand} {base position : Expression} {opening : Token}
    {outer : List Pending} (h : s.applyGroup
      = .ok ⟨.plain position :: .plain base :: rest, .bracket opening (rest.length + 1) :: outer⟩) :
    s.closeBracket t = .ok ⟨.plain (.index base position) :: rest, outer⟩ := by
  simp [closeBracket, h, popPlain, bind, Except.bind, pure, Except.pure]

end Stacks

theorem isPunct_of_kind {t : Token} (h : t.kind ≠ .punctuation) (symbol : String) :
    t.isPunct symbol = false := by simp [Token.isPunct, h]

theorem isPunct_of_isPunct {t : Token} {a b : String} (h : t.isPunct a = true) (hab : a ≠ b) :
    t.isPunct b = false := by
  simp [Token.isPunct, (kind_of_isPunct h).1, (kind_of_isPunct h).2, hab]

def Unopened (rest : List Token) : Prop := ∀ t ∈ rest.head?, t.isPunct "(" = false

/-- `s'` comes to the same as `s` under every condition that operators of priority `p` meet. -/
def Settles (p : Nat) (s s' : Stacks) : Prop :=
  ∀ c : Pending → Bool, (∀ op t, p ≤ op.priority → c (.binary op t) = true) →
    s'.applyWhile c = s.applyWhile c

def Pushes (ts : List Token) (e : Expression) : Prop :=
  ∀ (s : Stacks) (rest : List Token), s.Founded → Unopened rest →
    s.takeAll (ts ++ rest) = (s.push e).takeAll rest

/-- Reading the tokens leaves the expression, up to operators of priority `p` that still wait. -/
def Yields (p : Nat) (ts : List Token) (e : Expression) : Prop :=
  ∀ (s : Stacks) (rest : List Token), s.Founded → s.Blocks p → Unopened rest →
    ∃ s', s.takeAll (ts ++ rest) = s'.takeAll rest ∧ Settles p (s.push e) s'

theorem Pushes.yields {ts : List Token} {e : Expression} (h : Pushes ts e) (p : Nat) :
    Yields p ts e :=
  fun s rest hs _ hr => ⟨s.push e, h s rest hs hr, fun _ _ => rfl⟩

theorem Yields.mono {p q : Nat} {ts : List Token} {e : Expression} (h : Yields q ts e)
    (hpq : p ≤ q) : Yields p ts e := by
  intro s rest hs hb hr
  have hq : s.Blocks q := by
    intro top ht
    have := hb top ht
    cases top <;> simp_all [Pending.yieldsTo]
    omega
  obtain ⟨s', ht, hs'⟩ := h s rest hs hq hr
  exact ⟨s', ht, fun c hc => hs' c fun op t hop => hc op t (Nat.le_trans hpq hop)⟩

theorem pushes_number {t : Token} (h : t.kind = .number) : Pushes [t] (.number t.value) := by
  intro s rest _ _
  exact Stacks.takeAll_of_take (by simp [Stacks.take, h]) (by simp [h])

theorem pushes_string {t : Token} {text : String} (h : t.kind = .string)
    (hu : t.unquote = some text) : Pushes [t] (.string text) := by
  intro s rest _ _
  exact Stacks.takeAll_of_take (by simp [Stacks.take, h, Stacks.string, hu]) (by simp [h])

theorem pushes_name {t : Token} (h : t.kind = .name) : Pushes [t] (.identifier t.value) := by
  intro s rest _ hr
  exact Stacks.takeAll_of_take (by simp [Stacks.take, h]) (fun _ => hr)

theorem take_operator {p : Nat} {s s' : Stacks} {t : Token} {op : BinaryOp} {a : Expression}
    (ht : t.kind = .operator) (hop : BinaryOp.ofSymbol? t.value = some op)
    (hp : op.priority = p) (hb : s.Blocks p) (hs : Settles p (s.push a) s') :
    s'.take t = .ok ((s.push a).wait (.binary op t)) := by
  have hw : s'.applyWhile (·.yieldsTo op.priority) = .ok (s.push a) := by
    rw [hs _ (by simp [Pending.yieldsTo, hp])]
    exact Stacks.applyWhile_stop (by subst hp; exact hb)
  simp [Stacks.take, ht, Stacks.operator, hop, hw, bind, Except.bind, pure, Except.pure]

theorem yields_binary {l r : List Token} {t : Token} {op : BinaryOp} {a b : Expression}
    (hl : Yields op.priority l a) (ht : t.kind = .operator)
    (hop : BinaryOp.ofSymbol? t.value = some op) (hr : Yields (op.priority + 1) r b) :
    Yields op.priority (l ++ t :: r) (.binary op a b) := by
  intro s rest hs hb hrest
  have hu : Unopened (t :: r ++ rest) := by
    intro t' ht'
    simp only [List.cons_append, List.head?_cons, Option.mem_some_iff] at ht'
    subst ht'
    exact isPunct_of_kind (by simp [ht]) _
  obtain ⟨s₁, h₁, hs₁⟩ := hl s (t :: r ++ rest) hs hb hu
  have htake := take_operator ht hop rfl hb hs₁
  have hmid : ((s.push a).wait (.binary op t)).Founded :=
    (hs.push a).wait (by simp [Pending.depth?])
  have hblock : ((s.push a).wait (.binary op t)).Blocks (op.priority + 1) := by
    simp [Stacks.Blocks, Stacks.wait, Pending.yieldsTo]
  obtain ⟨s₂, h₂, hs₂⟩ := hr _ rest hmid hblock hrest
  refine ⟨s₂, ?_, ?_⟩
  · rw [List.append_assoc, h₁, List.cons_append, Stacks.takeAll_of_take htake (by simp [ht]), h₂]
  · intro c hc
    rw [hs₂ c fun o u ho => hc o u (by omega)]
    exact Stacks.applyWhile_binary hs (hc op t (Nat.le_refl _)) a b

theorem Settles.applyGroup {s s' : Stacks} (h : Settles 0 s s')
    (hg : ∀ top ∈ s.pending.head?, top.isGroup = true) : s'.applyGroup = .ok s := by
  have hw := h (!·.isGroup) (by simp [Pending.isGroup, Pending.depth?])
  rw [Stacks.applyGroup, hw]
  exact Stacks.applyWhile_stop (by simpa using hg)

theorem Yields.inside {inner : List Token} {e : Expression} (h : Yields 0 inner e) {s : Stacks}
    {p : Pending} (hp : p.isGroup = true) (hs : (s.wait p).Founded) {closing : Token}
    (hc : closing.isPunct "(" = false) (rest : List Token) :
    ∃ s' : Stacks, (s.wait p).takeAll (inner ++ closing :: rest) = s'.takeAll (closing :: rest) ∧
      s'.applyGroup = .ok ((s.wait p).push e) := by
  have hb : (s.wait p).Blocks 0 := by
    intro top ht
    simp only [Stacks.wait, List.head?_cons, Option.mem_some_iff] at ht
    subst ht
    cases p <;> simp_all [Pending.isGroup, Pending.depth?, Pending.yieldsTo]
  obtain ⟨s', h₁, h₂⟩ := h (s.wait p) (closing :: rest) hs hb (by simpa [Unopened] using hc)
  exact ⟨s', h₁, h₂.applyGroup (by simpa [Stacks.wait, Stacks.push] using hp)⟩

theorem pushes_parens {opening closing : Token} {inner : List Token} {e : Expression}
    (ho : opening.isPunct "(" = true) (hi : Yields 0 inner e) (hc : closing.isPunct ")" = true) :
    Pushes (opening :: inner ++ [closing]) e := by
  intro s rest _ _
  obtain ⟨s', h₁, hg⟩ := hi.inside (s := s) (p := .paren opening s.operands.length) rfl
    (Nat.le_refl _) (isPunct_of_isPunct hc (by decide)) rest
  have hclose : s'.take closing = .ok (s.push e) := by
    rw [Stacks.take_closeParen hc]
    exact Stacks.closeParen_paren hg
  simp only [List.cons_append, List.append_assoc, List.nil_append]
  rw [Stacks.takeAll_of_take (Stacks.take_openParen ho) (by simp [(kind_of_isPunct ho).1]), h₁]
  exact Stacks.takeAll_of_take hclose (by simp [(kind_of_isPunct hc).1])

theorem pushes_index {opening closing : Token} {outer inner : List Token}
    {base position : Expression} (hb : Pushes outer base) (ho : opening.isPunct "[" = true)
    (hi : Yields 0 inner position) (hc : closing.isPunct "]" = true) :
    Pushes (outer ++ opening :: inner ++ [closing]) (.index base position) := by
  intro s rest hs _
  have hbase : s.takeAll (outer ++ opening :: (inner ++ closing :: rest))
      = (s.push base).takeAll (opening :: (inner ++ closing :: rest)) :=
    hb s _ hs (by simpa [Unopened] using isPunct_of_isPunct ho (by decide))
  obtain ⟨s', h₁, hg⟩ := hi.inside (s := s.push base)
    (p := .bracket opening (s.push base).operands.length) rfl (Nat.le_refl _)
    (isPunct_of_isPunct hc (by decide)) rest
  have hclose : s'.take closing = .ok (s.push (.index base position)) := by
    rw [Stacks.take_closeBracket hc]
    exact Stacks.closeBracket_bracket hg
  simp only [List.cons_append, List.append_assoc, List.nil_append]
  rw [hbase, Stacks.takeAll_of_take (Stacks.take_openBracket ho) (by simp [(kind_of_isPunct ho).1]),
    h₁]
  exact Stacks.takeAll_of_take hclose (by simp [(kind_of_isPunct hc).1])

theorem pushes_call {name opening closing : Token} (hn : name.kind = .name)
    (ho : opening.isPunct "(" = true) (hc : closing.isPunct ")" = true) :
    Pushes [name, opening, closing] (.call name.value none) := by
  intro s rest _ _
  have hg : (s.wait (.call name s.operands.length)).applyGroup
      = .ok (s.wait (.call name s.operands.length)) :=
    Stacks.applyWhile_stop (by simp [Stacks.wait, Pending.isGroup, Pending.depth?])
  have hclose : (s.wait (.call name s.operands.length)).take closing
      = .ok (s.push (.call name.value none)) := by
    rw [Stacks.take_closeParen hc]
    exact Stacks.closeParen_call hg (by simp [Stacks.endCall])
  simp only [List.cons_append, List.nil_append]
  rw [Stacks.takeAll_call hn ho]
  exact Stacks.takeAll_of_take hclose (by simp [(kind_of_isPunct hc).1])

def Operand.Lists : Operand → List Expression → Prop
  | .plain e, es => es = [e]
  | .arguments items _, es => es = items ∧ es ≠ []

theorem Operand.Lists.gather {o : Operand} {es : List Expression} (h : o.Lists es) (comma : Token)
    (e : Expression) : (gather comma e o).Lists (es ++ [e]) := by
  cases o <;> simp_all [Lists, Expression.gather]

theorem endCall_of_lists {o : Operand} {es : List Expression} (h : o.Lists es)
    (name close : Token) (operands : List Operand) :
    Stacks.endCall name operands.length close (o :: operands)
      = .ok (.plain (.call name.value (some es)) :: operands) := by
  cases o <;> simp_all [Operand.Lists, Stacks.endCall]

def Gathers (ts : List Token) (es : List Expression) : Prop :=
  ∀ (s : Stacks) (name : Token) (rest : List Token), Unopened rest →
    ∃ (s' : Stacks) (o : Operand),
      (s.wait (.call name s.operands.length)).takeAll (ts ++ rest) = s'.takeAll rest ∧
      s'.applyGroup = .ok ((s.wait (.call name s.operands.length)).hold o) ∧ o.Lists es

theorem gathers_one {ts : List Token} {e : Expression} (h : Yields 0 ts e) : Gathers ts [e] := by
  intro s name rest hr
  have hb : (s.wait (.call name s.operands.length)).Blocks 0 := by
    simp [Stacks.Blocks, Stacks.wait, Pending.yieldsTo]
  obtain ⟨s', h₁, h₂⟩ := h _ rest (Nat.le_refl _) hb hr
  have hg := h₂.applyGroup (by simp [Stacks.wait, Stacks.push, Pending.isGroup, Pending.depth?])
  exact ⟨s', .plain e, h₁, hg, rfl⟩

theorem gathers_snoc {ts us : List Token} {comma : Token} {es : List Expression} {e : Expression}
    (hes : Gathers ts es) (hc : comma.isPunct "," = true) (he : Yields 0 us e) :
    Gathers (ts ++ comma :: us) (es ++ [e]) := by
  intro s name rest hr
  obtain ⟨s₁, o, h₁, hg₁, ho⟩ := hes s name (comma :: (us ++ rest))
    (by simpa [Unopened] using isPunct_of_isPunct hc (by decide))
  have hf : (s.wait (.call name s.operands.length)).Founded := Nat.le_refl _
  -- the call, the arguments so far on top of it, and the comma that waits for the next
  have hb : (((s.wait (.call name s.operands.length)).hold o).wait (.comma comma)).Blocks 0 := by
    simp [Stacks.Blocks, Stacks.wait, Pending.yieldsTo]
  obtain ⟨s₂, h₂, hs₂⟩ := he _ rest ((hf.hold o).wait (by simp [Pending.depth?])) hb hr
  refine ⟨s₂, gather comma e o, ?_, ?_, ho.gather comma e⟩
  · rw [List.append_assoc, List.cons_append, h₁,
      Stacks.takeAll_of_take (Stacks.take_comma hc hg₁) (by simp [(kind_of_isPunct hc).1]), h₂]
  · have hw := hs₂ (!·.isGroup) (by simp [Pending.isGroup, Pending.depth?])
    rw [Stacks.applyGroup, hw,
      Stacks.applyWhile_comma hf (by simp [Pending.isGroup, Pending.depth?])]
    exact Stacks.applyWhile_stop (by simp [Stacks.hold, Stacks.wait, Pending.isGroup,
      Pending.depth?])

theorem pushes_callWith {name opening closing : Token} {inner : List Token}
    {args : List Expression} (hn : name.kind = .name) (ho : opening.isPunct "(" = true)
    (hi : Gathers inner args) (hc : closing.isPunct ")" = true) :
    Pushes (name :: opening :: inner ++ [closing]) (.call name.value (some args)) := by
  intro s rest _ _
  obtain ⟨s', o, h₁, hg, hl⟩ := hi s name (closing :: rest)
    (by simpa [Unopened] using isPunct_of_isPunct hc (by decide))
  have hclose : s'.take closing = .ok (s.push (.call name.value (some args))) := by
    rw [Stacks.take_closeParen hc]
    exact Stacks.closeParen_call hg (endCall_of_lists hl name closing s.operands)
  simp only [List.cons_append, List.append_assoc, List.nil_append]
  rw [Stacks.takeAll_call hn ho, h₁]
  exact Stacks.takeAll_of_take hclose (by simp [(kind_of_isPunct hc).1])

/-- Operators and operands in turn, each operand with no operator below priority `p` in it. -/
inductive Linked (p : Nat) : List Token → List (BinaryOp × Expression) → Prop where
  | nil : Linked p [] []
  | cons {t : Token} {op : BinaryOp} {operand more : List Token} {e : Expression}
      {rest : List (BinaryOp × Expression)} (ht : t.kind = .operator)
      (hop : BinaryOp.ofSymbol? t.value = some op) (he : Yields p operand e)
      (hm : Linked p more rest) : Linked p (t :: operand ++ more) ((op, e) :: rest)

namespace Tier

theorem priority_products (op : BinaryOp) (h : products.has op = true) : op.priority = 10 := by
  cases op <;> first | rfl | contradiction

theorem priority_sums (op : BinaryOp) (h : sums.has op = true) : op.priority = 5 := by
  cases op <;> first | rfl | contradiction

theorem priority_comparisons (op : BinaryOp) (h : comparisons.has op = true) :
    op.priority = 0 := by
  cases op <;> first | rfl | contradiction

end Tier

/-- One pass of grouping moves the border between the first operand and the operators after it. -/
theorem yields_fold {p q : Nat} (hpq : p < q) {tier : Tier}
    (htier : ∀ op, tier.has op = true → op.priority = p) {us : List Token}
    {rest : List (BinaryOp × Expression)} (hl : Linked q us rest) :
    ∀ {ts : List Token} {e : Expression}, Yields p ts e →
      ∃ ts' us', ts ++ us = ts' ++ us' ∧ Yields p ts' (fold tier e rest).1 ∧
        Linked p us' (fold tier e rest).2 := by
  induction hl with
  | nil =>
    intro ts e he
    exact ⟨ts, [], rfl, he, .nil⟩
  | @cons t op operand more f rest ht hop hf hm ih =>
    intro ts e he
    rw [fold]
    split
    · rename_i hop'
      obtain rfl := htier op hop'
      have hb := yields_binary he ht hop (hf.mono hpq)
      obtain ⟨ts', us', heq, hy, hl'⟩ := ih hb
      exact ⟨ts', us', by simpa using heq, hy, hl'⟩
    · obtain ⟨ts', us', heq, hy, hl'⟩ := ih (hf.mono (Nat.le_of_lt hpq))
      refine ⟨ts, t :: ts' ++ us', ?_, he, .cons ht hop hy hl'⟩
      rw [List.cons_append, List.cons_append, heq]

theorem yields_group {ts us : List Token} {e : Expression} {rest : List (BinaryOp × Expression)}
    (he : Pushes ts e) (hl : Linked 11 us rest) : Yields 0 (ts ++ us) (group e rest) := by
  obtain ⟨ts₁, us₁, h₁, hy₁, hl₁⟩ :=
    yields_fold (p := 10) (by decide) Tier.priority_products hl (he.yields 10)
  obtain ⟨ts₂, us₂, h₂, hy₂, hl₂⟩ :=
    yields_fold (p := 5) (by decide) Tier.priority_sums hl₁ (hy₁.mono (by decide))
  obtain ⟨ts₃, us₃, h₃, hy₃, hl₃⟩ :=
    yields_fold (p := 0) (by decide) Tier.priority_comparisons hl₂ (hy₂.mono (by decide))
  have hnil := fold_fold_fold e rest
  dsimp only at hnil
  rw [hnil] at hl₃
  cases hl₃
  rw [h₁, h₂, h₃, List.append_nil]
  exact hy₃

mutual

theorem pushes_of_primary : {ts : List Token} → {e : Expression} → Grammar.Primary ts e →
    Token.Legible ts → Pushes ts e
  | _, _, .number ht, _ => pushes_number ht
  | _, _, .string ht hu, hl => by
    obtain ⟨content, hcontent⟩ := Option.isSome_iff_exists.1 (hl _ (List.mem_singleton_self _))
    exact hu content hcontent ▸ pushes_string ht hcontent
  | _, _, .name ht, _ => pushes_name ht
  | _, _, .call hn ho hc, _ => pushes_call hn ho hc
  | _, _, .callWith hn ho hi hc, hl =>
    pushes_callWith hn ho (gathers_of_arguments hi fun t ht => hl t (by simp [ht])) hc
  | _, _, .parens ho hi hc, hl =>
    pushes_parens ho (yields_of_spelled hi fun t ht => hl t (by simp [ht])) hc
  | _, _, .index hb ho hi hc, hl =>
    pushes_index (pushes_of_primary hb fun t ht => hl t (by simp [ht])) ho
      (yields_of_spelled hi fun t ht => hl t (by simp [ht])) hc

theorem linked_of_operations : {ts : List Token} → {rest : List (BinaryOp × Expression)} →
    Grammar.Operations ts rest → Token.Legible ts → Linked 11 ts rest
  | _, _, .nil, _ => .nil
  | _, _, .cons ht hop he hm, hl =>
    .cons ht (Tier.mem_all_iff.1 hop)
      ((pushes_of_primary he fun t ht => hl t (by simp [ht])).yields 11)
      (linked_of_operations hm fun t ht => hl t (by simp [ht]))

theorem yields_of_spelled : {ts : List Token} → {e : Expression} → Grammar.Spelled ts e →
    Token.Legible ts → Yields 0 ts e
  | _, _, .chain he hm, hl =>
    yields_group (pushes_of_primary he fun t ht => hl t (by simp [ht]))
      (linked_of_operations hm fun t ht => hl t (by simp [ht]))

theorem gathers_of_arguments : {ts : List Token} → {es : List Expression} →
    Grammar.Arguments ts es → Token.Legible ts → Gathers ts es
  | _, _, .one he, hl => gathers_one (yields_of_spelled he hl)
  | _, _, .snoc hes hc he, hl =>
    gathers_snoc (gathers_of_arguments hes fun t ht => hl t (by simp [ht])) hc
      (yields_of_spelled he fun t ht => hl t (by simp [ht]))

end

theorem parse_of_yields {ts : List Token} {e : Expression} (h : Yields 0 ts e) :
    parse ts = .ok e := by
  obtain ⟨s', h₁, h₂⟩ :=
    h ⟨[], []⟩ [] (Nat.le_refl _) (by simp [Stacks.Blocks]) (by simp [Unopened])
  rw [List.append_nil] at h₁
  have hg : s'.applyGroup = .ok ⟨[.plain e], []⟩ := h₂.applyGroup (by simp [Stacks.push])
  have ht : Stacks.takeAll ⟨[], []⟩ ts = .ok s' := h₁
  simp [parse, ht, Stacks.finish, hg, bind, Except.bind, pure, Except.pure]

end Stencil.Expression
