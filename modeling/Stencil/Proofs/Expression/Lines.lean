import Stencil.Outcome
import Stencil.Expression.Reader
set_option autoImplicit false

namespace Stencil

/-- An error found at a token with a property. Only a string without content makes the program
panic. -/
structure ExpressionError.At (L : Token → Prop) (e : ExpressionError) : Prop where
  line : ∃ t, L t ∧ t.line = e.line
  panic : e.cause = .panic → ∃ t, L t ∧ t.unquote = none

namespace Expression

variable {L : Token → Prop} {t : Token}

theorem unexpected_at (ht : L t) : (unexpected t).At L := ⟨⟨t, ht, rfl⟩, by simp [unexpected]⟩

theorem missingOperand_at (ht : L t) : (missingOperand t).At L :=
  ⟨⟨t, ht, rfl⟩, by simp [missingOperand]⟩

theorem residualOperands_at (ht : L t) (count : Nat) :
    ExpressionError.At L ⟨.residualOperands count, t.line⟩ := ⟨⟨t, ht, rfl⟩, by simp⟩

theorem panic_at (ht : L t) (hu : t.unquote = none) : (panic t).At L :=
  ⟨⟨t, ht, rfl⟩, fun _ => ⟨t, ht, hu⟩⟩

def Operand.On (L : Token → Prop) : Operand → Prop
  | plain _ => True
  | arguments _ comma => L comma

structure Stacks.On (L : Token → Prop) (s : Stacks) : Prop where
  operands : ∀ o ∈ s.operands, o.On L
  pending : ∀ p ∈ s.pending, L p.token

theorem Operand.on_cons {o : Operand} {rest : List Operand} (ho : o.On L)
    (hr : ∀ o ∈ rest, o.On L) : ∀ p ∈ o :: rest, p.On L :=
  List.forall_mem_cons.2 ⟨ho, hr⟩

theorem popPlain_on {t : Token} (ht : L t) {operands : List Operand}
    (ho : ∀ o ∈ operands, o.On L) :
    Ensures (·.At L) (fun r => ∀ o ∈ r.2, o.On L) (popPlain t operands) := by
  cases operands with
  | nil => exact .error (missingOperand_at ht)
  | cons o rest =>
    obtain ⟨hfirst, hrest⟩ := List.forall_mem_cons.1 ho
    cases o with
    | plain e => exact .ok hrest
    | arguments items comma => exact .error (unexpected_at hfirst)

theorem gather_on {comma : Token} (hc : L comma) (right : Expression) {o : Operand}
    (ho : o.On L) : (gather comma right o).On L := by
  cases o with
  | plain left => exact hc
  | arguments items first => exact ho

theorem apply_on (outer : List Pending) {operands : List Operand} {p : Pending}
    (hp : L p.token) (ho : ∀ o ∈ operands, o.On L) :
    Ensures (·.At L) (fun after => ∀ o ∈ after, o.On L) (apply outer operands p) := by
  cases p with
  | binary op t =>
    rw [apply]
    split
    · exact .error (missingOperand_at hp)
    · refine .bind (popPlain_on hp ho) fun right hright => ?_
      refine .bind (popPlain_on hp hright) fun left hleft => ?_
      exact .ok (Operand.on_cons trivial hleft)
  | comma t =>
    rw [apply]
    split
    · exact .error (missingOperand_at hp)
    · refine .bind (popPlain_on hp ho) fun right hright => ?_
      obtain ⟨right, rest⟩ := right
      cases rest with
      | nil => exact .error (missingOperand_at hp)
      | cons left rest =>
        obtain ⟨hleft, hrest⟩ := List.forall_mem_cons.1 hright
        exact .ok (Operand.on_cons (gather_on hp right hleft) hrest)
  | call name depth | paren t depth | bracket t depth => exact .error (unexpected_at hp)

theorem applyWhile_on (c : Pending → Bool) {pending : List Pending} {operands : List Operand}
    (hp : ∀ p ∈ pending, L p.token) (ho : ∀ o ∈ operands, o.On L) :
    Ensures (·.At L) (fun r => Stacks.On L ⟨r.2, r.1⟩)
      (applyWhile c pending operands) := by
  induction pending generalizing operands with
  | nil => exact .ok ⟨ho, hp⟩
  | cons top outer ih =>
    obtain ⟨htop, houter⟩ := List.forall_mem_cons.1 hp
    rw [applyWhile]
    split
    · have happly := apply_on outer htop ho
      split
      · rename_i e he
        exact .error (happly.fails e he)
      · rename_i after he
        exact ih houter (happly.gives after he)
    · exact .ok ⟨ho, hp⟩

namespace Stacks

theorem On.push {s : Stacks} (hs : s.On L) (e : Expression) : (s.push e).On L :=
  ⟨Operand.on_cons trivial hs.operands, hs.pending⟩

theorem On.wait {s : Stacks} (hs : s.On L) {p : Pending} (hp : L p.token) :
    (s.wait p).On L :=
  ⟨hs.operands, List.forall_mem_cons.2 ⟨hp, hs.pending⟩⟩

theorem On.inner {operands : List Operand} {p : Pending} {outer : List Pending}
    (hs : Stacks.On L ⟨operands, p :: outer⟩) :
    L p.token ∧ ∀ q ∈ outer, L q.token :=
  List.forall_mem_cons.1 hs.pending

theorem On.applyWhile {s : Stacks} (hs : s.On L) (c : Pending → Bool) :
    Ensures (·.At L) (·.On L) (s.applyWhile c) :=
  .bind (applyWhile_on c hs.pending hs.operands) fun _ h => .ok h

theorem On.operator {s : Stacks} (hs : s.On L) {t : Token} (ht : L t) :
    Ensures (·.At L) (·.On L) (s.operator t) := by
  unfold Stacks.operator
  split
  · exact .error (unexpected_at ht)
  · exact .bind (hs.applyWhile _) fun s hs => .ok (hs.wait ht)

theorem endCall_on (name : Token) (depth : Nat) {close : Token} (hc : L close)
    {operands : List Operand} (ho : ∀ o ∈ operands, o.On L) :
    Ensures (·.At L) (fun after => ∀ o ∈ after, o.On L)
      (endCall name depth close operands) := by
  unfold endCall
  split
  · exact .ok (Operand.on_cons trivial ho)
  · exact .ok (Operand.on_cons trivial (List.forall_mem_cons.1 ho).2)
  · exact .ok (Operand.on_cons trivial (List.forall_mem_cons.1 ho).2)
  · exact .ok (Operand.on_cons trivial (by simp))
  · exact .error (residualOperands_at hc _)

theorem On.closeParen {s : Stacks} (hs : s.On L) {t : Token} (ht : L t) :
    Ensures (·.At L) (·.On L) (s.closeParen t) := by
  refine .bind (hs.applyWhile _) fun ⟨operands, pending⟩ hs => ?_
  match pending with
  | .paren _ _ :: outer => exact .ok ⟨hs.operands, hs.inner.2⟩
  | .call name depth :: outer =>
    exact .bind (endCall_on name depth ht hs.operands) fun _ ho => .ok ⟨ho, hs.inner.2⟩
  | .bracket _ _ :: _ | .binary _ _ :: _ | .comma _ :: _ | [] => exact .error (unexpected_at ht)

theorem On.closeBracket {s : Stacks} (hs : s.On L) {t : Token} (ht : L t) :
    Ensures (·.At L) (·.On L) (s.closeBracket t) := by
  refine .bind (hs.applyWhile _) fun ⟨operands, pending⟩ hs => ?_
  match pending with
  | .bracket opening depth :: outer =>
    obtain ⟨hopening, houter⟩ := hs.inner
    simp only
    split
    · exact .error (missingOperand_at ht)
    · refine .bind (popPlain_on hopening hs.operands) fun position hposition => ?_
      refine .bind (popPlain_on hopening hposition) fun base hbase => ?_
      exact .ok ⟨Operand.on_cons trivial hbase, houter⟩
  | .paren _ _ :: _ | .call _ _ :: _ | .binary _ _ :: _ | .comma _ :: _ | [] =>
    exact .error (unexpected_at ht)

theorem On.punctuation {s : Stacks} (hs : s.On L) {t : Token} (ht : L t) :
    Ensures (·.At L) (·.On L) (s.punctuation t) := by
  unfold Stacks.punctuation
  split
  · exact .ok (hs.wait ht)
  · exact .ok (hs.wait ht)
  · exact .bind (hs.applyWhile _) fun s hs => .ok (hs.wait ht)
  · exact hs.closeParen ht
  · exact hs.closeBracket ht
  · exact .error (unexpected_at ht)

theorem On.string {s : Stacks} (hs : s.On L) {t : Token} (ht : L t) :
    Ensures (·.At L) (·.On L) (s.string t) := by
  unfold Stacks.string
  split
  · exact .ok (hs.push _)
  · exact .error (panic_at ht ‹_›)

theorem On.take {s : Stacks} (hs : s.On L) {t : Token} (ht : L t) :
    Ensures (·.At L) (·.On L) (s.take t) := by
  unfold Stacks.take
  split
  · exact .ok (hs.push _)
  · exact hs.string ht
  · exact .ok (hs.push _)
  · exact hs.operator ht
  · exact hs.punctuation ht
  · exact .error (unexpected_at ht)

theorem On.takeAll {s : Stacks} (hs : s.On L) {tokens : List Token}
    (ht : ∀ t ∈ tokens, L t) : Ensures (·.At L) (·.On L) (s.takeAll tokens) := by
  fun_induction Stacks.takeAll s tokens with
  | case1 s => exact .ok hs
  | case2 s t => exact hs.take (ht t (by simp))
  | case3 s t next rest _ ih =>
    exact ih (hs.wait (ht t (by simp))) fun u hu => ht u (by simp [hu])
  | case4 s t next rest _ e he => exact .error ((hs.take (ht t (by simp))).fails e he)
  | case5 s t next rest _ s' he ih =>
    exact ih ((hs.take (ht t (by simp))).gives s' he) fun u hu => ht u (by simp [hu])

theorem On.finish {s : Stacks} (hs : s.On L) {first : Token} (hf : L first) :
    FailsAs (·.At L) (s.finish first.line) := by
  refine (Ensures.bind (R := fun _ => True) (hs.applyWhile _)
    fun ⟨operands, pending⟩ hs => ?_).fails
  match pending, operands with
  | group :: _, _ => exact .error (unexpected_at hs.inner.1)
  | [], [] => exact .error (missingOperand_at hf)
  | [], [.plain e] => exact .ok trivial
  | [], [.arguments _ comma] => exact .error (unexpected_at (List.forall_mem_cons.1 hs.operands).1)
  | [], .plain _ :: _ :: _ | [], .arguments _ _ :: _ :: _ =>
    exact .error (residualOperands_at hf _)

end Stacks

/-- An error in an expression is found at one of its tokens. -/
theorem parse_on {tokens : List Token} (hn : tokens ≠ []) (ht : ∀ t ∈ tokens, L t) :
    FailsAs (·.At L) (parse tokens) := by
  cases tokens with
  | nil => exact absurd rfl hn
  | cons first rest =>
    have hempty : Stacks.On L ⟨[], []⟩ := ⟨by simp, by simp⟩
    have hfirst := (List.forall_mem_cons.1 ht).1
    refine (Ensures.bind (R := fun _ => True) (hempty.takeAll ht) fun s hs => ?_).fails
    exact ⟨hs.finish hfirst, fun _ _ => trivial⟩

end Expression

end Stencil
