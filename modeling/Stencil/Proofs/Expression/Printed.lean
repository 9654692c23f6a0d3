import Stencil.Expression.Printer
import Stencil.Proofs.Expression.Normal
import Stencil.Proofs.Expression.Precedence
import Stencil.Proofs.Scanning
set_option autoImplicit false

namespace Stencil

structure Token.Inner (t : Token) : Prop where
  value : t.kind ≠ .valueEnd
  block : t.kind ≠ .blockEnd
  part : t.isPunct ";" = false

theorem Token.inner_of_kind {t : Token}
    (h : t.kind = .name ∨ t.kind = .number ∨ t.kind = .string ∨ t.kind = .operator) :
    t.Inner := by
  rcases h with h | h | h | h <;> constructor <;> simp [Token.isPunct, h]

theorem Token.inner_of_isPunct {t : Token} {symbol : String} (h : t.isPunct symbol = true)
    (hs : symbol ≠ ";") : t.Inner := by
  obtain ⟨hk, _⟩ := Expression.kind_of_isPunct h
  exact ⟨by simp [hk], by simp [hk], Expression.isPunct_of_isPunct h hs⟩

namespace Expression

/-- Tokens that spell an expression, as tightly as its priority promises. -/
structure Spelt (e : Expression) (ts : List Token) : Prop where
  yields : ∀ p ≤ e.priority, Yields p ts e
  pushes : e.priority = indexPriority → Pushes ts e
  inner : ∀ t ∈ ts, t.Inner

theorem spelt_of_pushes {e : Expression} {ts : List Token} (h : Pushes ts e)
    (hi : ∀ t ∈ ts, t.Inner) : Spelt e ts :=
  ⟨fun p _ => h.yields p, fun _ => h, hi⟩

theorem Spelt.parse {e : Expression} {ts : List Token} (h : Spelt e ts) :
    Expression.parse ts = .ok e := parse_of_yields (h.yields 0 (Nat.zero_le _))

def Wrapped (needed : Bool) (e : Expression) (ts : List Token) : Prop :=
  (Pushes ts e ∨ needed = false ∧ Spelt e ts) ∧ ∀ t ∈ ts, t.Inner

theorem Wrapped.yields {needed : Bool} {e : Expression} {ts : List Token} {p : Nat}
    (h : Wrapped needed e ts) (hp : needed = false → p ≤ e.priority) : Yields p ts e := by
  rcases h.1 with h | ⟨hn, h⟩
  · exact h.yields p
  · exact h.yields p (hp hn)

theorem scans_wrap {e : Expression} (he : Scans e.write (Spelt e)) (needed : Bool) :
    Scans (wrap needed e.write) (Wrapped needed e) := by
  cases needed with
  | false => exact he.mono fun ts h => ⟨.inr ⟨rfl, h⟩, h.inner⟩
  | true =>
    refine (Scans.brackets (.inl ⟨rfl, rfl⟩) he).mono ?_
    rintro ts ⟨opening, inner, closing, rfl, ho, hi, hc⟩
    refine ⟨.inl (pushes_parens ho (hi.yields 0 (Nat.zero_le _)) hc), ?_⟩
    intro t ht
    simp only [List.cons_append, List.mem_cons, List.mem_append, List.not_mem_nil, or_false] at ht
    rcases ht with rfl | ht | rfl
    · exact Token.inner_of_isPunct ho (by decide)
    · exact hi.inner t ht
    · exact Token.inner_of_isPunct hc (by decide)

theorem BinaryOp.symbol_mem (op : BinaryOp) : op.symbol.toList ∈ Lexeme.symbols := by
  cases op <;> decide

theorem scans_binary {op : BinaryOp} {left right : Expression} (hl : Scans left.write (Spelt left))
    (hr : Scans right.write (Spelt right)) :
    Scans (binary op left right).write (Spelt (binary op left right)) := by
  have hop := Scans.symbol (BinaryOp.symbol_mem op)
  have hleft := scans_wrap hl (left.priority < op.priority)
  have hright := scans_wrap hr (right.priority ≤ op.priority)
  have hscan := hleft.append (hop.append hright.blank fun _ _ => ⟨' ', _, rfl, by decide⟩).blank
    fun _ _ => ⟨' ', _, rfl, by decide⟩
  have hw : (binary op left right).write = fun tail =>
      wrap (left.priority < op.priority) left.write (' ' :: (op.symbol.toList ++
        ' ' :: wrap (right.priority ≤ op.priority) right.write tail)) := by
    funext tail
    simp [write]
  rw [hw]
  refine hscan.mono ?_
  rintro _ ⟨us, _, rfl, hus, _, vs, rfl, ⟨t, rfl, hk, hv⟩, hvs⟩
  have hsym : BinaryOp.ofSymbol? t.value = some op := by
    rw [hv, String.ofList_toList, BinaryOp.ofSymbol?_symbol]
  have hloose : decide (left.priority < op.priority) = false → op.priority ≤ left.priority := by
    intro h
    exact Nat.not_lt.1 (of_decide_eq_false h)
  have htight : decide (right.priority ≤ op.priority) = false →
      op.priority + 1 ≤ right.priority := by
    intro h
    exact Nat.not_le.1 (of_decide_eq_false h)
  have hyields := yields_binary (hus.yields hloose) hk hsym (hvs.yields htight)
  refine ⟨fun p hp => hyields.mono hp, ?_, ?_⟩
  · cases op <;> simp [priority, BinaryOp.priority, indexPriority]
  · intro u hu
    simp only [List.cons_append, List.nil_append, List.mem_append, List.mem_cons] at hu
    rcases hu with hu | rfl | hu
    · exact hus.2 u hu
    · exact Token.inner_of_kind (by simp [hk])
    · exact hvs.2 u hu

theorem scans_index {base position : Expression} (hb : Scans base.write (Spelt base))
    (hp : Scans position.write (Spelt position)) :
    Scans (index base position).write (Spelt (index base position)) := by
  have hbase := scans_wrap hb (base.priority < indexPriority)
  have hscan := hbase.append (Scans.brackets (.inr ⟨rfl, rfl⟩) hp)
    fun _ _ => ⟨'[', _, rfl, by decide⟩
  have hw : (index base position).write = fun tail =>
      wrap (base.priority < indexPriority) base.write ('[' :: position.write (']' :: tail)) := by
    funext tail
    simp [write]
  rw [hw]
  refine hscan.mono ?_
  rintro _ ⟨us, _, rfl, hus, opening, inner, closing, rfl, ho, hi, hc⟩
  have hpush : Pushes us base := by
    rcases hus.1 with h | ⟨hn, h⟩
    · exact h
    · have hle := base.priority_le
      simp only [decide_eq_false_iff_not, Nat.not_lt] at hn
      exact h.pushes (Nat.le_antisymm hle hn)
  have hindex := pushes_index hpush ho (hi.yields 0 (Nat.zero_le _)) hc
  rw [List.append_assoc] at hindex
  refine spelt_of_pushes hindex ?_
  intro t ht
  simp only [List.cons_append, List.mem_append, List.mem_cons, List.not_mem_nil, or_false] at ht
  rcases ht with ht | rfl | ht | rfl
  · exact hus.2 t ht
  · exact Token.inner_of_isPunct ho (by decide)
  · exact hi.inner t ht
  · exact Token.inner_of_isPunct hc (by decide)

theorem scans_call {function : String} (h : Lexeme.Name function.toList) :
    Scans (call function none).write (Spelt (call function none)) := by
  have hscan := (Scans.name h).append (Scans.brackets (.inl ⟨rfl, rfl⟩) Scans.nothing)
    fun _ _ => ⟨'(', _, rfl, by decide⟩
  have hw : (call function none).write = fun tail => function.toList ++ '(' :: ')' :: tail := by
    funext tail
    simp [write]
  rw [hw]
  refine hscan.mono ?_
  rintro _ ⟨_, _, rfl, ⟨t, rfl, hk, rfl⟩, opening, inner, closing, rfl, ho, rfl, hc⟩
  refine spelt_of_pushes (pushes_call hk ho hc) ?_
  intro u hu
  simp only [List.cons_append, List.nil_append, List.mem_cons, List.not_mem_nil, or_false] at hu
  rcases hu with rfl | rfl | rfl
  · exact Token.inner_of_kind (by simp [hk])
  · exact Token.inner_of_isPunct ho (by decide)
  · exact Token.inner_of_isPunct hc (by decide)

structure Listed (es : List Expression) (ts : List Token) : Prop where
  gathers : Gathers ts es
  after : ∀ us fs comma, Gathers us fs → comma.isPunct "," = true →
    Gathers (us ++ comma :: ts) (fs ++ es)
  inner : ∀ t ∈ ts, t.Inner

theorem scans_callWith {function : String} {args : List Expression}
    (h : Lexeme.Name function.toList) (ha : Scans (writeList args) (Listed args)) :
    Scans (call function (some args)).write (Spelt (call function (some args))) := by
  have hscan := (Scans.name h).append (Scans.brackets (.inl ⟨rfl, rfl⟩) ha)
    fun _ _ => ⟨'(', _, rfl, by decide⟩
  have hw : (call function (some args)).write = fun tail =>
      function.toList ++ '(' :: writeList args (')' :: tail) := by
    funext tail
    simp [write]
  rw [hw]
  refine hscan.mono ?_
  rintro _ ⟨_, _, rfl, ⟨t, rfl, hk, rfl⟩, opening, inner, closing, rfl, ho, hi, hc⟩
  refine spelt_of_pushes (pushes_callWith hk ho hi.gathers hc) ?_
  intro u hu
  simp only [List.cons_append, List.nil_append, List.mem_cons, List.mem_append, List.not_mem_nil,
    or_false] at hu
  rcases hu with rfl | rfl | hu | rfl
  · exact Token.inner_of_kind (by simp [hk])
  · exact Token.inner_of_isPunct ho (by decide)
  · exact hi.inner u hu
  · exact Token.inner_of_isPunct hc (by decide)

theorem listed_one {e : Expression} {ts : List Token} (h : Spelt e ts) : Listed [e] ts :=
  ⟨gathers_one (h.yields 0 (Nat.zero_le _)),
    fun _ _ _ hus hc => gathers_snoc hus hc (h.yields 0 (Nat.zero_le _)), h.inner⟩

theorem listed_cons {e : Expression} {es : List Expression} {ts us : List Token} {comma : Token}
    (he : Spelt e ts) (hc : comma.isPunct "," = true) (hes : Listed es us) :
    Listed (e :: es) (ts ++ comma :: us) := by
  have hy := he.yields 0 (Nat.zero_le _)
  refine ⟨hes.after ts [e] comma (gathers_one hy) hc, ?_, ?_⟩
  · intro vs fs first hvs hf
    have h := hes.after (vs ++ first :: ts) (fs ++ [e]) comma (gathers_snoc hvs hf hy) hc
    simpa using h
  · intro t ht
    simp only [List.mem_append, List.mem_cons] at ht
    rcases ht with ht | rfl | ht
    · exact he.inner t ht
    · exact Token.inner_of_isPunct hc (by decide)
    · exact hes.inner t ht

mutual

theorem scans_write (e : Expression) (h : e.Normal) : Scans e.write (Spelt e) := by
  match e, h with
  | identifier name, h =>
    have hw : (identifier name).write = (name.toList ++ ·) := by funext tail; simp [write]
    rw [hw]
    refine (Scans.name h).mono ?_
    rintro _ ⟨t, rfl, hk, rfl⟩
    exact spelt_of_pushes (pushes_name hk) (by simpa using Token.inner_of_kind (by simp [hk]))
  | number text, h =>
    have hw : (number text).write = (text.toList ++ ·) := by funext tail; simp [write]
    rw [hw]
    refine (Scans.number h).mono ?_
    rintro _ ⟨t, rfl, hk, rfl⟩
    exact spelt_of_pushes (pushes_number hk) (by simpa using Token.inner_of_kind (by simp [hk]))
  | string text, _ =>
    have hw : (string text).write = (Text.Quoted.write text.toList ++ ·) := by
      funext tail
      simp [write]
    rw [hw]
    refine (Scans.string text).mono ?_
    rintro _ ⟨t, rfl, hk, hu⟩
    exact spelt_of_pushes (pushes_string hk hu) (by simpa using Token.inner_of_kind (by simp [hk]))
  | binary _ left right, ⟨hl, hr⟩ => exact scans_binary (scans_write left hl) (scans_write right hr)
  | index base position, ⟨hb, hp⟩ =>
    exact scans_index (scans_write base hb) (scans_write position hp)
  | call _ none, h => exact scans_call h
  | call _ (some args), ⟨hf, hne, ha⟩ => exact scans_callWith hf (scans_writeList args hne ha)

theorem scans_writeList (es : List Expression) (hne : es ≠ []) (h : AllNormal es) :
    Scans (writeList es) (Listed es) := by
  match es, h with
  | [], _ => exact absurd rfl hne
  | [e], ⟨he, _⟩ => exact (scans_write e he).mono fun ts hts => listed_one hts
  | e :: f :: rest, ⟨he, hrest⟩ =>
    have hmore := scans_writeList (f :: rest) (by simp) hrest
    have hcomma := Scans.mark (c := ',') (.inl rfl)
    have hscan := (scans_write e he).append
      (hcomma.append hmore.blank fun _ _ => ⟨' ', _, rfl, by decide⟩)
      fun _ _ => ⟨',', _, rfl, by decide⟩
    refine hscan.mono ?_
    rintro _ ⟨us, _, rfl, hus, _, vs, rfl, ⟨t, rfl, ht⟩, hvs⟩
    exact listed_cons hus ht hvs

end

end Expression

end Stencil
