import Mathlib.Logic.Relation
import Stencil.Outcome
import Stencil.Proofs.Expression.Precedence
/-!
Reading an expression step by step. Every token does one of four things: it is an operand, it is an
operator that waits for its right operand, it opens a group, or it ends one; a name and the
parenthesis after it are taken together. What can be shown of all steps holds of every run of the
reader.
-/
set_option autoImplicit false

namespace Stencil.Expression

inductive Leaf : Token → Expression → Prop where
  | number {t : Token} (h : t.kind = .number) : Leaf t (.number t.value)
  | string {t : Token} {text : String} (h : t.kind = .string) (hu : t.unquote = some text) :
      Leaf t (.string text)
  | name {t : Token} (h : t.kind = .name) : Leaf t (.identifier t.value)

inductive Links : Token → Pending → Prop where
  | operator {t : Token} {op : BinaryOp} (h : t.kind = .operator)
      (hop : BinaryOp.ofSymbol? t.value = some op) : Links t (.binary op t)
  | comma {t : Token} (h : t.isPunct "," = true) : Links t (.comma t)

inductive Opens : List Token → Pending → Nat → Prop where
  | call {name opening : Token} {depth : Nat} (hn : name.kind = .name)
      (ho : opening.isPunct "(" = true) : Opens [name, opening] (.call name depth) depth
  | paren {opening : Token} {depth : Nat} (ho : opening.isPunct "(" = true) :
      Opens [opening] (.paren opening depth) depth
  | bracket {opening : Token} {depth : Nat} (ho : opening.isPunct "[" = true) :
      Opens [opening] (.bracket opening depth) depth

inductive Joins : Pending → List Operand → List Operand → Prop where
  | binary {op : BinaryOp} {t : Token} {left right : Expression} {rest : List Operand} :
      Joins (.binary op t) (.plain right :: .plain left :: rest)
        (.plain (.binary op left right) :: rest)
  | comma {t : Token} {left : Operand} {right : Expression} {rest : List Operand} :
      Joins (.comma t) (.plain right :: left :: rest) (gather t right left :: rest)

def Operand.items : Operand → List Expression
  | plain e => [e]
  | arguments items _ => items

inductive Closes (t : Token) : Pending → List Operand → List Operand → Prop where
  | paren {opening : Token} {depth : Nat} {operands : List Operand} (ht : t.isPunct ")" = true) :
      Closes t (.paren opening depth) operands operands
  | bare {name : Token} {depth : Nat} {operands : List Operand} (ht : t.isPunct ")" = true)
      (hd : operands.length ≤ depth) :
      Closes t (.call name depth) operands (.plain (.call name.value none) :: operands)
  | call {name : Token} {depth : Nat} {o : Operand} {rest : List Operand}
      (ht : t.isPunct ")" = true) (hd : rest.length = depth) :
      Closes t (.call name depth) (o :: rest) (.plain (.call name.value (some o.items)) :: rest)
  | bracket {opening : Token} {depth : Nat} {base position : Expression} {rest : List Operand}
      (ht : t.isPunct "]" = true) (hd : depth ≤ rest.length + 1) :
      Closes t (.bracket opening depth) (.plain position :: .plain base :: rest)
        (.plain (.index base position) :: rest)

namespace Pending

/-- Products bind tighter than sums, these tighter than comparisons, and commas loosest of all. -/
def level : Pending → Nat
  | binary op _ => if Tier.products.has op then 3 else if Tier.sums.has op then 2 else 1
  | comma _ | call _ _ | paren _ _ | bracket _ _ => 0

def isAbove (level : Nat) (p : Pending) : Bool := !p.isGroup && level ≤ p.level

theorem isAbove_mono {level tighter : Nat} {p : Pending} (h : p.isAbove tighter = true)
    (hl : level ≤ tighter) : p.isAbove level = true := by
  simp only [isAbove, Bool.and_eq_true, decide_eq_true_eq] at h ⊢
  exact ⟨h.1, Nat.le_trans hl h.2⟩

theorem isAbove_zero : isAbove 0 = fun p => !p.isGroup := by
  funext p
  simp [isAbove]

theorem level_le_level_iff (op other : BinaryOp) (t u : Token) :
    (binary op t).level ≤ (binary other u).level ↔ op.priority ≤ other.priority := by
  cases op <;> cases other <;> exact decide_eq_decide.1 rfl

/-- An operator has those applied before it that bind as tightly. -/
theorem isAbove_level (op : BinaryOp) (t : Token) :
    isAbove (binary op t).level = yieldsTo op.priority := by
  funext p
  cases p with
  | binary other u => simp [isAbove, yieldsTo, isGroup, depth?, level_le_level_iff]
  | comma | call | paren | bracket => cases op <;> rfl

end Pending

theorem depth?_of_opens {us : List Token} {p : Pending} {depth : Nat} (h : Opens us p depth) :
    p.depth? = some depth := by cases h <;> rfl

theorem isGroup_of_opens {us : List Token} {p : Pending} {depth : Nat} (h : Opens us p depth) :
    p.isGroup = true := by cases h <;> rfl

theorem ne_nil_of_opens {us : List Token} {p : Pending} {depth : Nat} (h : Opens us p depth) :
    us ≠ [] := by cases h <;> simp

theorem isGroup_of_links {t : Token} {p : Pending} (h : Links t p) : p.isGroup = false := by
  cases h <;> rfl

theorem bracket_of_closes {t : Token} {p : Pending} {operands after : List Operand}
    (h : Closes t p operands after) (ht : t.isPunct "]" = true) :
    ∃ opening depth, p = .bracket opening depth := by
  cases h with
  | paren h | bare h | call h => simp [isPunct_of_isPunct h (b := "]") (by decide)] at ht
  | @bracket opening depth => exact ⟨opening, depth, rfl⟩

theorem kind_of_closes {t : Token} {p : Pending} {operands after : List Operand}
    (h : Closes t p operands after) : t.kind = .punctuation := by
  cases h with
  | paren h | bare h | call h | bracket h => exact (kind_of_isPunct h).1

/-- The waiting operators of at least a given level are applied, from the topmost one down. -/
inductive Applies (level : Nat) : Stacks → Stacks → Prop where
  | stop {s : Stacks} (h : ∀ top ∈ s.pending.head?, top.isAbove level = false) : Applies level s s
  | join {p : Pending} {outer : List Pending} {operands after : List Operand} {s : Stacks}
      (hp : p.isAbove level = true) (hj : Joins p operands after)
      (hf : Pending.floor outer < after.length) (hs : Applies level ⟨after, outer⟩ s) :
      Applies level ⟨operands, p :: outer⟩ s

theorem popPlain_eq_ok {t : Token} {operands rest : List Operand} {e : Expression}
    (h : popPlain t operands = .ok (e, rest)) : operands = .plain e :: rest := by
  unfold popPlain at h
  split at h
  · simp at h
  · obtain ⟨rfl, rfl⟩ := Prod.mk.inj (Except.ok.inj h)
    rfl
  · simp at h

theorem apply_eq_ok_iff {outer : List Pending} {operands after : List Operand} {p : Pending} :
    apply outer operands p = .ok after ↔
      Joins p operands after ∧ Pending.floor outer < after.length := by
  constructor
  · intro h
    cases p with
    | binary op t =>
      rw [apply] at h
      split at h
      · simp at h
      · rename_i hf
        obtain ⟨⟨right, rest⟩, hr, h⟩ := bind_eq_ok h
        obtain ⟨⟨left, rest'⟩, hl, h⟩ := bind_eq_ok h
        obtain rfl := Except.ok.inj h
        obtain rfl := popPlain_eq_ok hl
        obtain rfl := popPlain_eq_ok hr
        simp only [List.length_cons] at hf ⊢
        exact ⟨.binary, by omega⟩
    | comma t =>
      rw [apply] at h
      split at h
      · simp at h
      · rename_i hf
        obtain ⟨⟨right, rest⟩, hr, h⟩ := bind_eq_ok h
        obtain rfl := popPlain_eq_ok hr
        cases rest with
        | nil => simp at hf
        | cons left rest =>
          obtain rfl := Except.ok.inj h
          simp only [List.length_cons] at hf ⊢
          exact ⟨.comma, by omega⟩
    | call | paren | bracket => simp [apply] at h
  · rintro ⟨hj, hf⟩
    cases hj <;>
    · simp only [List.length_cons] at hf
      rw [apply, if_neg (by simp only [List.length_cons]; omega)]
      rfl

theorem Joins.isGroup {p : Pending} {operands after : List Operand} (h : Joins p operands after) :
    p.isGroup = false := by cases h <;> rfl

theorem applies_iff {level : Nat} {s s' : Stacks} :
    Applies level s s' ↔ s.applyWhile (Pending.isAbove level) = .ok s' := by
  constructor
  · intro h
    induction h with
    | stop h => exact Stacks.applyWhile_stop h
    | join hp hj hf _ ih => rw [Stacks.applyWhile_cons hp (apply_eq_ok_iff.2 ⟨hj, hf⟩), ih]
  · intro h
    obtain ⟨operands, pending⟩ := s
    induction pending generalizing operands with
    | nil =>
      obtain rfl := Except.ok.inj h
      exact .stop (by simp)
    | cons top outer ih =>
      by_cases hp : top.isAbove level = true
      · cases ha : apply outer operands top with
        | error e => simp [Stacks.applyWhile, applyWhile, hp, ha, bind, Except.bind] at h
        | ok after =>
          obtain ⟨hj, hf⟩ := apply_eq_ok_iff.1 ha
          rw [Stacks.applyWhile_cons hp ha] at h
          exact .join hp hj hf (ih after h)
      · have hstop : ∀ p ∈ (top :: outer).head?, p.isAbove level = false := by simpa using hp
        rw [Stacks.applyWhile_stop hstop] at h
        obtain rfl := Except.ok.inj h
        exact .stop hstop

theorem applyGroup_eq_ok_iff {s s' : Stacks} : s.applyGroup = .ok s' ↔ Applies 0 s s' := by
  rw [applies_iff, Pending.isAbove_zero]
  rfl

theorem Applies.suffix {level : Nat} {s s' : Stacks} (h : Applies level s s') :
    s'.pending <:+ s.pending := by
  induction h with
  | stop => exact List.suffix_rfl
  | join _ _ _ _ ih => exact ih.trans (List.suffix_cons _ _)

theorem Applies.trans {level tighter : Nat} {s s' s'' : Stacks} (h : Applies tighter s s')
    (hl : level ≤ tighter) (h' : Applies level s' s'') : Applies level s s'' := by
  induction h with
  | stop => exact h'
  | join hp hj hf _ ih => exact .join (Pending.isAbove_mono hp hl) hj hf (ih h')

theorem endCall_eq_ok_iff {name close : Token} {depth : Nat} {operands after : List Operand}
    (ht : close.isPunct ")" = true) : Stacks.endCall name depth close operands = .ok after ↔
      Closes close (.call name depth) operands after := by
  constructor
  · intro h
    unfold Stacks.endCall at h
    split at h
    · rename_i hd
      obtain rfl := Except.ok.inj h
      exact .bare ht (by omega)
    · rename_i items comma rest hd
      obtain rfl := Except.ok.inj h
      exact .call (o := .arguments items comma) ht (by simp at hd; omega)
    · rename_i e rest hd
      obtain rfl := Except.ok.inj h
      exact .call (o := .plain e) ht (by simp at hd; omega)
    · rename_i hd
      simp at hd
    · simp at h
  · intro h
    cases h with
    | bare _ hd =>
      have hzero : operands.length - depth = 0 := by omega
      simp [Stacks.endCall, hzero]
    | @call _ _ o rest _ hd =>
      subst hd
      cases o <;> simp [Stacks.endCall, Operand.items]

namespace Stacks

theorem closeParen_eq_ok_iff {s s' : Stacks} {t : Token} (ht : t.isPunct ")" = true) :
    s.closeParen t = .ok s' ↔
      ∃ p operands, Applies 0 s ⟨operands, p :: s'.pending⟩ ∧ Closes t p operands s'.operands := by
  constructor
  · intro h
    obtain ⟨⟨operands, pending⟩, hg, h⟩ := bind_eq_ok h
    have ha := applyGroup_eq_ok_iff.1 hg
    split at h
    · rename_i opening depth outer hp
      obtain rfl : pending = _ := hp
      obtain rfl := Except.ok.inj h
      exact ⟨_, _, ha, .paren ht⟩
    · rename_i name depth outer hp
      obtain rfl : pending = _ := hp
      obtain ⟨after, he, h⟩ := bind_eq_ok h
      obtain rfl := Except.ok.inj h
      exact ⟨_, _, ha, (endCall_eq_ok_iff ht).1 he⟩
    · simp at h
  · rintro ⟨p, operands, ha, hc⟩
    have hg := applyGroup_eq_ok_iff.2 ha
    obtain ⟨after, outer⟩ := s'
    cases hc with
    | paren => exact closeParen_paren hg
    | bare _ hd => exact closeParen_call hg ((endCall_eq_ok_iff ht).2 (.bare ht hd))
    | call _ hd => exact closeParen_call hg ((endCall_eq_ok_iff ht).2 (.call ht hd))
    | bracket hb => simp [isPunct_of_isPunct hb (b := ")") (by decide)] at ht

theorem closeBracket_eq_ok_iff {s s' : Stacks} {t : Token} (ht : t.isPunct "]" = true) :
    s.closeBracket t = .ok s' ↔
      ∃ p operands, Applies 0 s ⟨operands, p :: s'.pending⟩ ∧ Closes t p operands s'.operands := by
  constructor
  · intro h
    obtain ⟨⟨operands, pending⟩, hg, h⟩ := bind_eq_ok h
    have ha := applyGroup_eq_ok_iff.1 hg
    split at h
    · rename_i opening depth outer hp
      obtain rfl : pending = _ := hp
      split at h
      · simp at h
      · rename_i hd
        obtain ⟨⟨position, rest⟩, hpos, h⟩ := bind_eq_ok h
        obtain ⟨⟨base, rest'⟩, hbase, h⟩ := bind_eq_ok h
        obtain rfl := Except.ok.inj h
        obtain rfl := popPlain_eq_ok hbase
        obtain rfl := popPlain_eq_ok hpos
        simp only [List.length_cons] at hd
        exact ⟨_, _, ha, .bracket ht (by omega)⟩
    · simp at h
  · rintro ⟨p, operands, ha, hc⟩
    have hg := applyGroup_eq_ok_iff.2 ha
    obtain ⟨after, outer⟩ := s'
    cases hc with
    | @bracket _ depth base position rest _ hd =>
      have hlt : ¬ rest.length + 1 + 1 ≤ depth := Nat.not_le.2 (Nat.lt_succ_of_le hd)
      simp [closeBracket, hg, popPlain, hlt, bind, Except.bind, pure, Except.pure]
    | paren hp | bare hp | call hp => simp [isPunct_of_isPunct hp (b := "]") (by decide)] at ht

end Stacks

structure Reading where
  state : Stacks
  left : List Token

namespace Reading

def start (ts : List Token) : Reading := ⟨⟨[], []⟩, ts⟩

/-- All that reading a token, or a name with the parenthesis after it, can come to. -/
inductive Step : Reading → Reading → Prop where
  | operand {s : Stacks} {t : Token} {e : Expression} {rest : List Token} (h : Leaf t e)
      (hn : t.kind = .name → Unopened rest) : Step ⟨s, t :: rest⟩ ⟨s.push e, rest⟩
  | link {s s' : Stacks} {t : Token} {p : Pending} {rest : List Token} (h : Links t p)
      (ha : Applies p.level s s') : Step ⟨s, t :: rest⟩ ⟨s'.wait p, rest⟩
  | opening {s : Stacks} {u : List Token} {p : Pending} {rest : List Token}
      (h : Opens u p s.operands.length) : Step ⟨s, u ++ rest⟩ ⟨s.wait p, rest⟩
  | closing {s : Stacks} {t : Token} {p : Pending} {outer : List Pending}
      {operands after : List Operand} {rest : List Token}
      (ha : Applies 0 s ⟨operands, p :: outer⟩) (hc : Closes t p operands after) :
      Step ⟨s, t :: rest⟩ ⟨⟨after, outer⟩, rest⟩

abbrev Steps : Reading → Reading → Prop := Relation.ReflTransGen Step

theorem step_of_take {s s' : Stacks} {t : Token} {rest : List Token} (h : s.take t = .ok s')
    (hn : t.kind = .name → Unopened rest) : Step ⟨s, t :: rest⟩ ⟨s', rest⟩ := by
  unfold Stacks.take at h
  split at h
  · rename_i hk
    obtain rfl := Except.ok.inj h
    exact .operand (.number hk) hn
  · rename_i hk
    unfold Stacks.string at h
    split at h
    · rename_i content hu
      obtain rfl := Except.ok.inj h
      exact .operand (.string hk hu) hn
    · simp at h
  · rename_i hk
    obtain rfl := Except.ok.inj h
    exact .operand (.name hk) hn
  · rename_i hk
    unfold Stacks.operator at h
    split at h
    · simp at h
    · rename_i op hop
      obtain ⟨s₁, ha, h⟩ := bind_eq_ok h
      obtain rfl := Except.ok.inj h
      refine .link (.operator hk hop) (applies_iff.2 ?_)
      rw [Pending.isAbove_level]
      exact ha
  · rename_i hk
    have hp {symbol : String} (hv : t.value = symbol) : t.isPunct symbol = true := by
      simp [Token.isPunct, hk, hv]
    unfold Stacks.punctuation at h
    split at h
    · rename_i hv
      obtain rfl := Except.ok.inj h
      exact .opening (u := [t]) (.paren (hp hv))
    · rename_i hv
      obtain rfl := Except.ok.inj h
      exact .opening (u := [t]) (.bracket (hp hv))
    · rename_i hv
      obtain ⟨s₁, hg, h⟩ := bind_eq_ok h
      obtain rfl := Except.ok.inj h
      exact .link (.comma (hp hv)) (applyGroup_eq_ok_iff.1 hg)
    · rename_i hv
      obtain ⟨p, operands, ha, hc⟩ := (Stacks.closeParen_eq_ok_iff (hp hv)).1 h
      exact .closing ha hc
    · rename_i hv
      obtain ⟨p, operands, ha, hc⟩ := (Stacks.closeBracket_eq_ok_iff (hp hv)).1 h
      exact .closing ha hc
    · simp at h
  · simp at h

theorem Step.taken {s : Stacks} {ts : List Token} {r : Reading} (h : Step ⟨s, ts⟩ r) :
    (∃ name opening rest, ts = name :: opening :: rest ∧ name.kind = .name ∧
      opening.isPunct "(" = true ∧ r = ⟨s.wait (.call name s.operands.length), rest⟩) ∨
    ∃ t rest s', ts = t :: rest ∧ (t.kind = .name → Unopened rest) ∧ s.take t = .ok s' ∧
      r = ⟨s', rest⟩ := by
  cases h with
  | @operand _ t e rest hl hn =>
    refine .inr ⟨t, rest, s.push e, rfl, hn, ?_, rfl⟩
    cases hl with
    | number hk | name hk => simp [Stacks.take, hk]
    | string hk hu => simp [Stacks.take, hk, Stacks.string, hu]
  | @link _ s' t p rest hl ha =>
    cases hl with
    | @operator op hk hop =>
      refine .inr ⟨t, rest, s'.wait _, rfl, by simp [hk], ?_, rfl⟩
      rw [applies_iff, Pending.isAbove_level] at ha
      simp [Stacks.take, hk, Stacks.operator, hop, ha, bind, Except.bind, pure, Except.pure]
    | comma hk =>
      exact .inr ⟨t, rest, s'.wait _, rfl, by simp [(kind_of_isPunct hk).1],
        Stacks.take_comma hk (applyGroup_eq_ok_iff.2 ha), rfl⟩
  | @opening _ us p rest ho =>
    cases ho with
    | call hn ho => exact .inl ⟨_, _, rest, rfl, hn, ho, rfl⟩
    | @paren t _ ho =>
      exact .inr ⟨t, rest, s.wait _, rfl, by simp [(kind_of_isPunct ho).1],
        Stacks.take_openParen ho, rfl⟩
    | @bracket t _ ho =>
      exact .inr ⟨t, rest, s.wait _, rfl, by simp [(kind_of_isPunct ho).1],
        Stacks.take_openBracket ho, rfl⟩
  | @closing _ t p outer operands after rest ha hc =>
    have hparen (ht : t.isPunct ")" = true) : s.take t = .ok ⟨after, outer⟩ :=
      (Stacks.take_closeParen ht).trans
        ((Stacks.closeParen_eq_ok_iff ht).2 ⟨p, operands, ha, hc⟩)
    refine .inr ⟨t, rest, ⟨after, outer⟩, rfl, ?_, ?_, rfl⟩
    · simp [kind_of_closes hc]
    · cases hc with
      | paren ht | bare ht | call ht => exact hparen ht
      | bracket ht hd =>
        rw [Stacks.take_closeBracket ht]
        exact (Stacks.closeBracket_eq_ok_iff ht).2 ⟨_, _, ha, .bracket ht hd⟩

theorem Step.takeAll {r r' : Reading} (h : Step r r') :
    r.state.takeAll r.left = r'.state.takeAll r'.left := by
  obtain ⟨s, ts⟩ := r
  rcases h.taken with ⟨name, opening, rest, rfl, hn, ho, rfl⟩ | ⟨t, rest, s', rfl, hn, ht, rfl⟩
  · exact Stacks.takeAll_call hn ho s rest
  · exact Stacks.takeAll_of_take ht hn

theorem Step.unique {r r' r'' : Reading} (h : Step r r') (h' : Step r r'') : r' = r'' := by
  obtain ⟨s, ts⟩ := r
  rcases h.taken with ⟨name, opening, rest, rfl, hn, ho, rfl⟩ | ⟨t, rest, s', rfl, hn, ht, rfl⟩
  · rcases h'.taken with ⟨_, _, _, heq, _, _, rfl⟩ | ⟨_, _, _, heq, hn', _, rfl⟩
    · obtain ⟨rfl, rfl, rfl⟩ : _ ∧ _ ∧ _ := by simpa using heq
      rfl
    · obtain ⟨rfl, rfl⟩ := List.cons.inj heq
      have := hn' hn opening (by simp)
      simp [ho] at this
  · rcases h'.taken with ⟨_, opening, _, heq, hk, ho, rfl⟩ | ⟨_, _, _, heq, _, ht', rfl⟩
    · obtain ⟨rfl, rfl⟩ := List.cons.inj heq
      have := hn hk opening (by simp)
      simp [ho] at this
    · obtain ⟨rfl, rfl⟩ := List.cons.inj heq
      rw [Except.ok.inj (ht.symm.trans ht')]

theorem Steps.takeAll {r r' : Reading} (h : Steps r r') :
    r.state.takeAll r.left = r'.state.takeAll r'.left := by
  induction h with
  | refl => rfl
  | tail _ hs ih => exact ih.trans hs.takeAll

theorem takeAll_eq_ok_iff {s s' : Stacks} {ts : List Token} :
    s.takeAll ts = .ok s' ↔ Steps ⟨s, ts⟩ ⟨s', []⟩ := by
  constructor
  · intro h
    fun_induction Stacks.takeAll s ts with
    | case1 s =>
      obtain rfl := Except.ok.inj h
      exact .refl
    | case2 s t => exact .single (step_of_take h (by simp [Unopened]))
    | case3 s t next rest hc ih =>
      simp only [Bool.and_eq_true, decide_eq_true_eq] at hc
      exact .head (.opening (u := [t, next]) (.call hc.1 hc.2)) (ih h)
    | case4 => simp at h
    | case5 s t next rest hc s₁ hk ih =>
      have hn : t.kind = .name → Unopened (next :: rest) := by
        intro ht u hu
        obtain rfl : next = u := by simpa using hu
        simpa [ht] using hc
      exact .head (step_of_take hk hn) (ih h)
  · intro h
    exact h.takeAll

theorem finish_eq_ok_iff {s : Stacks} {line : Nat} {e : Expression} :
    s.finish line = .ok e ↔ Applies 0 s ⟨[.plain e], []⟩ := by
  rw [← applyGroup_eq_ok_iff]
  constructor
  · intro h
    obtain ⟨⟨operands, pending⟩, hg, h⟩ := bind_eq_ok h
    split at h
    · simp at h
    · rename_i hp
      obtain rfl : pending = _ := hp
      split at h
      · simp at h
      · rename_i f ho
        obtain rfl : operands = _ := ho
        obtain rfl := Except.ok.inj h
        exact hg
      · simp at h
      · simp at h
  · intro h
    simp [Stacks.finish, h, bind, Except.bind, pure, Except.pure]

/-- An expression is read in steps, and then the operators that wait at the end are applied. -/
theorem parse_eq_ok_iff {ts : List Token} {e : Expression} :
    parse ts = .ok e ↔ ∃ s, Steps (start ts) ⟨s, []⟩ ∧ Applies 0 s ⟨[.plain e], []⟩ := by
  constructor
  · intro h
    obtain ⟨s, hs, h⟩ := bind_eq_ok h
    exact ⟨s, takeAll_eq_ok_iff.1 hs, finish_eq_ok_iff.1 h⟩
  · rintro ⟨s, hs, h⟩
    have ht : Stacks.takeAll ⟨[], []⟩ ts = .ok s := takeAll_eq_ok_iff.2 hs
    simp [parse, ht, finish_eq_ok_iff.2 h, bind, Except.bind]

end Reading

end Stencil.Expression
