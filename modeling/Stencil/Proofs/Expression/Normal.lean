import Stencil.Assignment.Reader
import Stencil.Outcome
import Stencil.Proofs.Lexeme
set_option autoImplicit false

namespace Stencil

/-- Names, numbers and strings are lexemes, and text is there and holds no carriage return. -/
structure Token.Lexical (t : Token) : Prop where
  name : t.kind = .name → Lexeme.Name t.value.toList
  number : t.kind = .number → Lexeme.Numeral t.value.toList
  string : t.kind = .string → Lexeme.Quotation t.value.toList
  text : t.kind = .text → t.value ≠ "" ∧ '\r' ∉ t.value.toList

namespace Expression

mutual

def Normal : Expression → Prop
  | identifier name => Lexeme.Name name.toList
  | number text => Lexeme.Numeral text.toList
  | string _ => True
  | binary _ left right => left.Normal ∧ right.Normal
  | index base position => base.Normal ∧ position.Normal
  | call function none => Lexeme.Name function.toList
  | call function (some args) => Lexeme.Name function.toList ∧ args ≠ [] ∧ AllNormal args

def AllNormal : List Expression → Prop
  | [] => True
  | e :: rest => e.Normal ∧ AllNormal rest

end

mutual

def decNormal : (e : Expression) → Decidable e.Normal
  | identifier name => inferInstanceAs (Decidable (Lexeme.Name name.toList))
  | number text => inferInstanceAs (Decidable (Lexeme.Numeral text.toList))
  | string _ => inferInstanceAs (Decidable True)
  | binary _ left right =>
    have := left.decNormal
    have := right.decNormal
    inferInstanceAs (Decidable (left.Normal ∧ right.Normal))
  | index base position =>
    have := base.decNormal
    have := position.decNormal
    inferInstanceAs (Decidable (base.Normal ∧ position.Normal))
  | call function none => inferInstanceAs (Decidable (Lexeme.Name function.toList))
  | call function (some args) =>
    have := decAllNormal args
    inferInstanceAs (Decidable (Lexeme.Name function.toList ∧ args ≠ [] ∧ AllNormal args))

def decAllNormal : (es : List Expression) → Decidable (AllNormal es)
  | [] => inferInstanceAs (Decidable True)
  | e :: rest =>
    have := e.decNormal
    have := decAllNormal rest
    inferInstanceAs (Decidable (e.Normal ∧ AllNormal rest))

end

instance : DecidablePred Normal := decNormal

theorem allNormal_iff {es : List Expression} : AllNormal es ↔ ∀ e ∈ es, e.Normal := by
  induction es with
  | nil => simp [AllNormal]
  | cons e rest ih => simp [AllNormal, ih]

def Operand.Normal : Operand → Prop
  | .plain e => e.Normal
  | .arguments items _ => items ≠ [] ∧ ∀ e ∈ items, e.Normal

def Pending.Named : Pending → Prop
  | .call name _ => Lexeme.Name name.value.toList
  | .binary _ _ | .comma _ | .paren _ _ | .bracket _ _ => True

structure Stacks.Normal (s : Stacks) : Prop where
  operands : ∀ o ∈ s.operands, o.Normal
  pending : ∀ p ∈ s.pending, p.Named

theorem popPlain_normal {t : Token} {operands rest : List Operand} {e : Expression}
    (h : popPlain t operands = .ok (e, rest)) (hn : ∀ o ∈ operands, o.Normal) :
    e.Normal ∧ ∀ o ∈ rest, o.Normal := by
  cases operands with
  | nil => simp [popPlain] at h
  | cons o operands =>
    cases o with
    | plain f =>
      simp only [popPlain, Except.ok.injEq, Prod.mk.injEq] at h
      obtain ⟨rfl, rfl⟩ := h
      exact ⟨hn (.plain f) (by simp), fun o ho => hn o (by simp [ho])⟩
    | arguments => simp [popPlain] at h

theorem gather_normal {o : Operand} {e : Expression} (ho : o.Normal) (he : e.Normal)
    (comma : Token) : (gather comma e o).Normal := by
  cases o with
  | plain f =>
    have hf : f.Normal := ho
    simp [gather, Operand.Normal, hf, he]
  | arguments items first =>
    obtain ⟨_, hi⟩ := ho
    refine ⟨by simp, ?_⟩
    intro f hf
    cases List.mem_append.1 hf with
    | inl hf => exact hi f hf
    | inr hf => rw [List.mem_singleton.1 hf]; exact he

theorem cons_normal {o : Operand} {rest : List Operand} (ho : o.Normal)
    (hr : ∀ o ∈ rest, o.Normal) : ∀ p ∈ o :: rest, p.Normal := by
  intro p hp
  cases hp with
  | head => exact ho
  | tail _ hp => exact hr p hp

theorem apply_normal {outer : List Pending} {operands after : List Operand} {p : Pending}
    (h : apply outer operands p = .ok after) (hn : ∀ o ∈ operands, o.Normal) :
    ∀ o ∈ after, o.Normal := by
  cases p with
  | binary op t =>
    rw [apply] at h
    split at h
    · simp at h
    · obtain ⟨⟨right, rest⟩, hr, h⟩ := bind_eq_ok h
      obtain ⟨⟨left, rest'⟩, hl, h⟩ := bind_eq_ok h
      simp only [pure, Except.pure, Except.ok.injEq] at h
      subst h
      obtain ⟨hright, hrest⟩ := popPlain_normal hr hn
      obtain ⟨hleft, hrest⟩ := popPlain_normal hl hrest
      exact cons_normal ⟨hleft, hright⟩ hrest
  | comma t =>
    rw [apply] at h
    split at h
    · simp at h
    · obtain ⟨⟨right, rest⟩, hr, h⟩ := bind_eq_ok h
      obtain ⟨hright, hrest⟩ := popPlain_normal hr hn
      cases rest with
      | nil => simp at h
      | cons o rest =>
        simp only [pure, Except.pure, Except.ok.injEq] at h
        subst h
        have ho : o.Normal := hrest o (by simp)
        exact cons_normal (gather_normal ho hright t) fun p hp => hrest p (by simp [hp])
  | call | paren | bracket => simp [apply] at h

theorem applyWhile_normal {c : Pending → Bool} {pending left : List Pending}
    {operands after : List Operand}
    (h : Expression.applyWhile c pending operands = .ok (left, after))
    (hn : ∀ o ∈ operands, o.Normal) : left <:+ pending ∧ ∀ o ∈ after, o.Normal := by
  induction pending generalizing operands with
  | nil =>
    simp only [applyWhile, Except.ok.injEq, Prod.mk.injEq] at h
    obtain ⟨rfl, rfl⟩ := h
    exact ⟨List.suffix_rfl, hn⟩
  | cons top outer ih =>
    rw [applyWhile] at h
    split at h
    · split at h
      · simp at h
      · rename_i operands' ha
        obtain ⟨hl, ho⟩ := ih h (apply_normal ha hn)
        exact ⟨hl.trans (List.suffix_cons top outer), ho⟩
    · simp only [Except.ok.injEq, Prod.mk.injEq] at h
      obtain ⟨rfl, rfl⟩ := h
      exact ⟨List.suffix_rfl, hn⟩

namespace Stacks

theorem Normal.push {s : Stacks} (hs : s.Normal) {e : Expression} (he : e.Normal) :
    (s.push e).Normal := ⟨cons_normal he hs.operands, hs.pending⟩

theorem Normal.wait {s : Stacks} (hs : s.Normal) {p : Pending} (hp : p.Named) :
    (s.wait p).Normal := by
  refine ⟨hs.operands, ?_⟩
  intro q hq
  cases hq with
  | head => exact hp
  | tail _ hq => exact hs.pending q hq

theorem applyWhile_normal {c : Pending → Bool} {s after : Stacks}
    (h : s.applyWhile c = .ok after) (hs : s.Normal) : after.Normal := by
  obtain ⟨⟨pending, operands⟩, hw, h⟩ := bind_eq_ok h
  simp only [pure, Except.pure, Except.ok.injEq] at h
  subst h
  obtain ⟨hp, ho⟩ := Expression.applyWhile_normal hw hs.operands
  exact ⟨ho, fun p hm => hs.pending p (hp.subset hm)⟩

theorem endCall_normal {name close : Token} {depth : Nat} {operands after : List Operand}
    (h : endCall name depth close operands = .ok after) (hn : ∀ o ∈ operands, o.Normal)
    (hname : Lexeme.Name name.value.toList) : ∀ o ∈ after, o.Normal := by
  unfold endCall at h
  split at h
  · simp only [Except.ok.injEq] at h
    subst h
    exact cons_normal hname hn
  · rename_i items comma rest _
    simp only [Except.ok.injEq] at h
    subst h
    obtain ⟨hne, hi⟩ : Operand.Normal (.arguments items comma) := hn _ (by simp)
    exact cons_normal ⟨hname, hne, allNormal_iff.2 hi⟩ fun p hp => hn p (by simp [hp])
  · rename_i e rest _
    simp only [Except.ok.injEq] at h
    subst h
    have he : Operand.Normal (.plain e) := hn _ (by simp)
    refine cons_normal ⟨hname, by simp, ?_⟩ fun p hp => hn p (by simp [hp])
    exact allNormal_iff.2 fun f hf => List.mem_singleton.1 hf ▸ he
  · simp only [Except.ok.injEq] at h
    subst h
    exact cons_normal hname (by simp)
  · simp at h

theorem closeParen_normal {s after : Stacks} {t : Token} (h : s.closeParen t = .ok after)
    (hs : s.Normal) : after.Normal := by
  obtain ⟨s', hg, h⟩ := bind_eq_ok h
  obtain ⟨ho, hp⟩ := applyWhile_normal hg hs
  split at h
  · rename_i opening depth outer hpend
    simp only [pure, Except.pure, Except.ok.injEq] at h
    subst h
    exact ⟨ho, fun p hm => hp p (by simp [hpend, hm])⟩
  · rename_i name depth outer hpend
    obtain ⟨operands, he, h⟩ := bind_eq_ok h
    simp only [pure, Except.pure, Except.ok.injEq] at h
    subst h
    have hname : Pending.Named (.call name depth) := hp _ (by simp [hpend])
    exact ⟨endCall_normal he ho hname, fun p hm => hp p (by simp [hpend, hm])⟩
  · simp at h

theorem closeBracket_normal {s after : Stacks} {t : Token} (h : s.closeBracket t = .ok after)
    (hs : s.Normal) : after.Normal := by
  obtain ⟨s', hg, h⟩ := bind_eq_ok h
  obtain ⟨ho, hp⟩ := applyWhile_normal hg hs
  split at h
  · rename_i opening depth outer hpend
    split at h
    · simp at h
    · obtain ⟨⟨position, rest⟩, hpos, h⟩ := bind_eq_ok h
      obtain ⟨⟨base, rest'⟩, hbase, h⟩ := bind_eq_ok h
      simp only [pure, Except.pure, Except.ok.injEq] at h
      subst h
      obtain ⟨hposition, hrest⟩ := popPlain_normal hpos ho
      obtain ⟨hb, hrest⟩ := popPlain_normal hbase hrest
      exact ⟨cons_normal ⟨hb, hposition⟩ hrest, fun p hm => hp p (by simp [hpend, hm])⟩
  · simp at h

theorem punctuation_normal {s after : Stacks} {t : Token} (h : s.punctuation t = .ok after)
    (hs : s.Normal) : after.Normal := by
  unfold punctuation at h
  split at h
  · simp only [Except.ok.injEq] at h
    subst h
    exact hs.wait trivial
  · simp only [Except.ok.injEq] at h
    subst h
    exact hs.wait trivial
  · obtain ⟨s', hg, h⟩ := bind_eq_ok h
    simp only [pure, Except.pure, Except.ok.injEq] at h
    subst h
    exact (applyWhile_normal hg hs).wait trivial
  · exact closeParen_normal h hs
  · exact closeBracket_normal h hs
  · simp at h

theorem operator_normal {s after : Stacks} {t : Token} (h : s.operator t = .ok after)
    (hs : s.Normal) : after.Normal := by
  unfold operator at h
  split at h
  · simp at h
  · obtain ⟨s', hw, h⟩ := bind_eq_ok h
    simp only [pure, Except.pure, Except.ok.injEq] at h
    subst h
    exact (applyWhile_normal hw hs).wait trivial

theorem string_normal {s after : Stacks} {t : Token} (h : s.string t = .ok after)
    (hs : s.Normal) : after.Normal := by
  unfold string at h
  split at h
  · simp only [Except.ok.injEq] at h
    subst h
    exact hs.push trivial
  · simp at h

theorem take_normal {s after : Stacks} {t : Token} (h : s.take t = .ok after) (hs : s.Normal)
    (ht : t.Lexical) : after.Normal := by
  unfold take at h
  split at h
  · rename_i hk
    simp only [Except.ok.injEq] at h
    subst h
    exact hs.push (ht.number hk)
  · exact string_normal h hs
  · rename_i hk
    simp only [Except.ok.injEq] at h
    subst h
    exact hs.push (ht.name hk)
  · exact operator_normal h hs
  · exact punctuation_normal h hs
  · simp at h

theorem takeAll_normal {s after : Stacks} {ts : List Token} (h : s.takeAll ts = .ok after)
    (hs : s.Normal) (ht : ∀ t ∈ ts, t.Lexical) : after.Normal := by
  fun_induction takeAll s ts with
  | case1 s =>
    simp only [Except.ok.injEq] at h
    subst h
    exact hs
  | case2 s t => exact take_normal h hs (ht t (by simp))
  | case3 s t next rest hc ih =>
    simp only [Bool.and_eq_true, decide_eq_true_eq] at hc
    have hname : Lexeme.Name t.value.toList := (ht t (by simp)).name hc.1
    exact ih h (hs.wait hname) fun u hu => ht u (by simp [hu])
  | case4 => simp at h
  | case5 s t next rest _ s' hk ih =>
    exact ih h (take_normal hk hs (ht t (by simp))) fun u hu => ht u (by simp [hu])

theorem finish_normal {s : Stacks} {line : Nat} {e : Expression} (h : s.finish line = .ok e)
    (hs : s.Normal) : e.Normal := by
  obtain ⟨s', hg, h⟩ := bind_eq_ok h
  obtain ⟨ho, hp⟩ := applyWhile_normal hg hs
  split at h
  · simp at h
  · split at h
    · simp at h
    · rename_i f hops
      simp only [pure, Except.pure, Except.ok.injEq] at h
      subst h
      exact ho (.plain f) (by simp [hops])
    · simp at h
    · simp at h

end Stacks

theorem parse_normal {ts : List Token} {e : Expression} (h : parse ts = .ok e)
    (ht : ∀ t ∈ ts, t.Lexical) : e.Normal := by
  obtain ⟨s, hs, h⟩ := bind_eq_ok h
  have hempty : Stacks.Normal ⟨[], []⟩ := ⟨by simp, by simp⟩
  exact Stacks.finish_normal h (Stacks.takeAll_normal hs hempty ht)

theorem parseIn_normal {ts : List Token} {e : Expression} (h : parseIn ts = .ok e)
    (ht : ∀ t ∈ ts, t.Lexical) : e.Normal := by
  cases hp : parse ts with
  | error f => simp [parseIn, hp, mapError_error] at h
  | ok f =>
    simp only [parseIn, hp, mapError_ok, Except.ok.injEq] at h
    subst h
    exact parse_normal hp ht

end Expression

namespace Assignment

structure Normal (a : Assignment) : Prop where
  target : Lexeme.Name a.target.toList
  valueless : a.value = none ↔ a.op = .increment ∨ a.op = .decrement
  value : ∀ e ∈ a.value, e.Normal

instance : DecidablePred Normal := fun a =>
  decidable_of_iff (Lexeme.Name a.target.toList ∧
      (a.value = none ↔ a.op = .increment ∨ a.op = .decrement) ∧ ∀ e ∈ a.value, e.Normal)
    ⟨fun ⟨ht, hv, he⟩ => ⟨ht, hv, he⟩, fun ⟨ht, hv, he⟩ => ⟨ht, hv, he⟩⟩

theorem parseValue_normal {target opToken : Token} {op : SetOp} {rest : List Token}
    {value : Option Expression} (h : parseValue target opToken op rest = .ok value)
    (ht : ∀ t ∈ rest, t.Lexical) :
    (value = none ↔ op = .increment ∨ op = .decrement) ∧ ∀ e ∈ value, e.Normal := by
  unfold parseValue at h
  split at h
  · simp at h
  · rename_i hv _
    obtain ⟨e, he, rfl⟩ := map_eq_ok h
    refine ⟨?_, ?_⟩
    · cases op <;> simp_all [SetOp.takesValue]
    · simpa using Expression.parseIn_normal he ht
  · rename_i hv
    simp only [Except.ok.injEq] at h
    subst h
    refine ⟨?_, by simp⟩
    cases op <;> simp_all [SetOp.takesValue]
  · simp at h

theorem parse_normal {line : Nat} {ts : List Token} {a : Assignment}
    (h : parse line ts = .ok a) (ht : ∀ t ∈ ts, t.Lexical) : a.Normal := by
  unfold parse at h
  split at h
  · simp at h
  · rename_i target rest
    split at h
    · simp at h
    · rename_i hk
      split at h
      · simp at h
      · rename_i opToken rest
        split at h
        · simp at h
        · rename_i op _
          obtain ⟨value, hv, rfl⟩ := map_eq_ok h
          obtain ⟨hnone, hsome⟩ := parseValue_normal hv fun t hm => ht t (by simp [hm])
          exact ⟨(ht target (by simp)).name (by simpa using hk), hnone, hsome⟩

end Assignment

end Stencil
