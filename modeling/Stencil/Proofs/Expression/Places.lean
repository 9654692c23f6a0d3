import Mathlib.Data.List.Forall2
import Stencil.Expression.Reader
import Stencil.Outcome
set_option autoImplicit false

namespace Stencil

structure Token.Same (t u : Token) : Prop where
  kind : t.kind = u.kind
  value : t.value = u.value

namespace Token.Same

variable {t u : Token}

theorem isPunct (h : t.Same u) (symbol : String) : t.isPunct symbol = u.isPunct symbol := by
  rw [Token.isPunct, Token.isPunct, h.kind, h.value]

theorem isOperator (h : t.Same u) (symbol : String) :
    t.isOperator symbol = u.isOperator symbol := by
  rw [Token.isOperator, Token.isOperator, h.kind, h.value]

theorem isName (h : t.Same u) (word : String) : t.isName word = u.isName word := by
  rw [Token.isName, Token.isName, h.kind, h.value]

theorem unquote (h : t.Same u) : t.unquote = u.unquote := by
  rw [Token.unquote, Token.unquote, h.kind, h.value]

end Token.Same

abbrev SameTokens : List Token → List Token → Prop := List.Forall₂ Token.Same

namespace Expression

inductive Operand.Same : Operand → Operand → Prop where
  | plain (e : Expression) : Same (.plain e) (.plain e)
  | arguments (items : List Expression) (c d : Token) :
      Same (.arguments items c) (.arguments items d)

inductive Pending.Same : Pending → Pending → Prop where
  | binary (op : BinaryOp) (t u : Token) : Same (.binary op t) (.binary op u)
  | comma (t u : Token) : Same (.comma t) (.comma u)
  | call {t u : Token} (h : t.value = u.value) (depth : Nat) : Same (.call t depth) (.call u depth)
  | paren (t u : Token) (depth : Nat) : Same (.paren t depth) (.paren u depth)
  | bracket (t u : Token) (depth : Nat) : Same (.bracket t depth) (.bracket u depth)

abbrev SameOperands : List Operand → List Operand → Prop := List.Forall₂ Operand.Same
abbrev SamePending : List Pending → List Pending → Prop := List.Forall₂ Pending.Same

theorem Pending.Same.depth? {p q : Pending} (h : p.Same q) : p.depth? = q.depth? := by
  cases h <;> rfl

theorem Pending.Same.isGroup {p q : Pending} (h : p.Same q) : p.isGroup = q.isGroup := by
  cases h <;> rfl

theorem Pending.Same.yieldsTo {p q : Pending} (h : p.Same q) (priority : Nat) :
    p.yieldsTo priority = q.yieldsTo priority := by
  cases h <;> rfl

theorem SamePending.floor {ps qs : List Pending} (h : SamePending ps qs) :
    Pending.floor ps = Pending.floor qs := by
  have hfind : ps.findSome? Pending.depth? = qs.findSome? Pending.depth? := by
    induction h with
    | nil => rfl
    | cons hp _ ih => rw [List.findSome?_cons, List.findSome?_cons, hp.depth?, ih]
  rw [Pending.floor, Pending.floor, hfind]

def SamePopped (a b : Expression × List Operand) : Prop := a.1 = b.1 ∧ SameOperands a.2 b.2

theorem popPlain_same (t u : Token) {os ps : List Operand} (h : SameOperands os ps) :
    Carries SamePopped (popPlain t os) (popPlain u ps) := by
  cases h with
  | nil => exact .error _
  | cons ho hrest =>
    cases ho with
    | plain e => exact .ok ⟨rfl, hrest⟩
    | arguments => exact .error _

theorem gather_same (t u : Token) (e : Expression) {o p : Operand} (h : o.Same p) :
    (gather t e o).Same (gather u e p) := by
  cases h with
  | plain => exact .arguments _ t u
  | arguments _ c d => exact .arguments _ c d

theorem apply_same {outer outer' : List Pending} (hout : SamePending outer outer')
    {os ps : List Operand} (hos : SameOperands os ps) {p q : Pending} (hp : p.Same q) :
    Carries SameOperands (apply outer os p) (apply outer' ps q) := by
  cases hp with
  | binary op t u =>
    rw [apply, apply, hos.length_eq, hout.floor]
    refine .ite (.error _) (.bind (popPlain_same t u hos) ?_)
    rintro ⟨right, rest⟩ ⟨_, rest'⟩ ⟨rfl, hrest⟩
    refine .bind (popPlain_same t u hrest) ?_
    rintro ⟨left, rest⟩ ⟨_, rest'⟩ ⟨rfl, hrest⟩
    exact .ok (.cons (.plain _) hrest)
  | comma t u =>
    rw [apply, apply, hos.length_eq, hout.floor]
    refine .ite (.error _) (.bind (popPlain_same t u hos) ?_)
    rintro ⟨right, rest⟩ ⟨_, rest'⟩ ⟨rfl, hrest⟩
    cases hrest with
    | nil => exact .error _
    | cons ho hrest => exact .ok (.cons (gather_same t u right ho) hrest)
  | call | paren | bracket => exact .error _

def SameLeft (a b : List Pending × List Operand) : Prop :=
  SamePending a.1 b.1 ∧ SameOperands a.2 b.2

theorem applyWhile_same {c : Pending → Bool} (hc : ∀ p q : Pending, p.Same q → c p = c q)
    {ps qs : List Pending} (hps : SamePending ps qs) {os os' : List Operand}
    (hos : SameOperands os os') : Carries SameLeft (applyWhile c ps os) (applyWhile c qs os') := by
  induction hps generalizing os os' with
  | nil => exact .ok ⟨.nil, hos⟩
  | @cons p q outer outer' hp hout ih =>
    rw [applyWhile, applyWhile, hc p q hp]
    split
    · intro r hr
      cases ha : apply outer os p with
      | error e => simp [ha] at hr
      | ok after =>
        obtain ⟨after', ha', hsame⟩ := apply_same hout hos hp after ha
        rw [ha] at hr
        rw [ha']
        exact ih hsame r hr
    · exact .ok ⟨.cons hp hout, hos⟩

structure Stacks.Same (s s' : Stacks) : Prop where
  operands : SameOperands s.operands s'.operands
  pending : SamePending s.pending s'.pending

namespace Stacks.Same

variable {s s' : Stacks} (h : s.Same s') {t u : Token}
include h

theorem push (e : Expression) : (s.push e).Same (s'.push e) :=
  ⟨.cons (.plain e) h.operands, h.pending⟩

theorem wait {p q : Pending} (hp : p.Same q) : (s.wait p).Same (s'.wait q) :=
  ⟨h.operands, .cons hp h.pending⟩

theorem applyWhile {c : Pending → Bool} (hc : ∀ p q : Pending, p.Same q → c p = c q) :
    Carries Same (s.applyWhile c) (s'.applyWhile c) :=
  .bind (applyWhile_same hc h.pending h.operands) fun _ _ hl => .ok ⟨hl.2, hl.1⟩

theorem applyGroup : Carries Same s.applyGroup s'.applyGroup :=
  h.applyWhile fun _ _ hp => by rw [hp.isGroup]

theorem operator (ht : t.Same u) : Carries Same (s.operator t) (s'.operator u) := by
  rw [Stacks.operator, Stacks.operator, ht.value]
  cases BinaryOp.ofSymbol? u.value with
  | none => exact .error _
  | some op =>
    exact .bind (h.applyWhile fun _ _ hp => hp.yieldsTo op.priority) fun _ _ hs =>
      .ok (hs.wait (.binary op t u))

end Stacks.Same

namespace Stacks

variable {s s' : Stacks} {t u : Token}

theorem endCall_same {name name' : Token} (hn : name.value = name'.value) (depth : Nat)
    (close close' : Token) {os ps : List Operand} (h : SameOperands os ps) :
    Carries SameOperands (endCall name depth close os) (endCall name' depth close' ps) := by
  unfold endCall
  rw [h.length_eq, hn]
  generalize ps.length - depth = count
  match count, h with
  | 0, h => exact .ok (.cons (.plain _) h)
  | 1, .nil => exact .ok (.cons (.plain _) .nil)
  | 1, .cons (.plain e) hrest => exact .ok (.cons (.plain _) hrest)
  | 1, .cons (.arguments items c d) hrest => exact .ok (.cons (.plain _) hrest)
  | n + 2, h => exact .error _

theorem closeParen_same (h : s.Same s') (t u : Token) :
    Carries Same (s.closeParen t) (s'.closeParen u) := by
  refine .bind h.applyGroup ?_
  rintro ⟨os, ps⟩ ⟨os', ps'⟩ ⟨hos, hps⟩
  cases hps with
  | nil => exact .error _
  | cons hp hout =>
    cases hp with
    | paren => exact .ok ⟨hos, hout⟩
    | call hn depth => exact .bind (endCall_same hn depth t u hos) fun _ _ hos => .ok ⟨hos, hout⟩
    | binary | comma | bracket => exact .error _

theorem closeBracket_same (h : s.Same s') (t u : Token) :
    Carries Same (s.closeBracket t) (s'.closeBracket u) := by
  refine .bind h.applyGroup ?_
  rintro ⟨os, ps⟩ ⟨os', ps'⟩ ⟨hos, hps⟩
  cases hps with
  | nil => exact .error _
  | cons hp hout =>
    cases hp with
    | bracket opening opening' depth =>
      dsimp only
      rw [hos.length_eq]
      refine .ite (.error _) (.bind (popPlain_same _ _ hos) ?_)
      rintro ⟨position, rest⟩ ⟨_, rest'⟩ ⟨rfl, hrest⟩
      refine .bind (popPlain_same _ _ hrest) ?_
      rintro ⟨base, rest⟩ ⟨_, rest'⟩ ⟨rfl, hrest⟩
      exact .ok ⟨.cons (.plain _) hrest, hout⟩
    | binary | comma | call | paren => exact .error _

theorem punctuation_same (h : s.Same s') (ht : t.Same u) :
    Carries Same (s.punctuation t) (s'.punctuation u) := by
  unfold punctuation
  rw [ht.value]
  split
  · rw [h.operands.length_eq]
    exact .ok (h.wait (.paren t u _))
  · rw [h.operands.length_eq]
    exact .ok (h.wait (.bracket t u _))
  · exact .bind h.applyGroup fun _ _ hs => .ok (hs.wait (.comma t u))
  · exact closeParen_same h t u
  · exact closeBracket_same h t u
  · exact .error _

theorem string_same (h : s.Same s') (ht : t.Same u) :
    Carries Same (s.string t) (s'.string u) := by
  unfold string
  rw [ht.unquote]
  split
  · exact .ok (h.push _)
  · exact .error _

theorem take_same (h : s.Same s') (ht : t.Same u) : Carries Same (s.take t) (s'.take u) := by
  unfold take
  rw [ht.kind, ht.value]
  split
  · exact .ok (h.push _)
  · exact string_same h ht
  · exact .ok (h.push _)
  · exact h.operator ht
  · exact punctuation_same h ht
  · exact .error _

theorem takeAll_same {ts us : List Token} (hts : SameTokens ts us) (h : s.Same s') :
    Carries Same (s.takeAll ts) (s'.takeAll us) := by
  fun_induction takeAll s ts generalizing s' us with
  | case1 s =>
    cases hts
    exact .ok h
  | case2 s t =>
    cases hts with
    | cons ht hrest =>
      cases hrest
      exact take_same h ht
  | case3 s t next rest hcall ih =>
    cases hts with
    | @cons _ u _ _ ht hrest =>
      cases hrest with
      | @cons _ v _ _ hnext hrest =>
        -- a name before a parenthesis begins a call on both sides, over as many operands
        rw [ht.kind, hnext.isPunct] at hcall
        rw [takeAll, if_pos hcall, ← h.operands.length_eq]
        exact ih hrest (h.wait (.call ht.value _))
  | case4 s t next rest hcall e he => exact .error e
  | case5 s t next rest hcall after hs ih =>
    cases hts with
    | @cons _ u _ _ ht hrest =>
      cases hrest with
      | @cons _ v _ _ hnext hrest =>
        rw [ht.kind, hnext.isPunct] at hcall
        obtain ⟨after', hs', hsame⟩ := take_same h ht after hs
        rw [takeAll, if_neg hcall, hs']
        exact ih (.cons hnext hrest) hsame

theorem finish_same (h : s.Same s') (line line' : Nat) :
    Carries Eq (s.finish line) (s'.finish line') := by
  refine .bind h.applyGroup ?_
  rintro ⟨os, ps⟩ ⟨os', ps'⟩ ⟨hos, hps⟩
  cases hps with
  | cons => exact .error _
  | nil =>
    cases hos with
    | nil => exact .error _
    | cons ho hrest =>
      cases hrest with
      | nil =>
        cases ho with
        | plain e => exact .ok rfl
        | arguments => exact .error _
      | cons => cases ho <;> exact .error _

end Stacks

/-- Tokens that differ in nothing but their places are read as the same expression. -/
theorem parse_same {ts us : List Token} (h : SameTokens ts us) :
    Carries Eq (parse ts) (parse us) :=
  .bind (Stacks.takeAll_same h ⟨.nil, .nil⟩) fun _ _ hs => Stacks.finish_same hs _ _

end Expression

end Stencil
