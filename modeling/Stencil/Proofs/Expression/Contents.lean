import Stencil.Proofs.Expression.Steps
/-!
Strings without content. The program stops at such a string, so what is read has none, and whatever
the grammar derives is read up to the first of them: with the strings mended it would be read to its
end.
-/
set_option autoImplicit false

namespace Stencil

namespace Token

@[simp]
theorem legible_nil : Legible [] := by simp [Legible]

@[simp]
theorem legible_append {ts us : List Token} : Legible (ts ++ us) ↔ Legible ts ∧ Legible us :=
  List.forall_mem_append

@[simp]
theorem legible_cons {t : Token} {ts : List Token} :
    Legible (t :: ts) ↔ t.unquote.isSome = true ∧ Legible ts := List.forall_mem_cons

theorem kind_of_unquote {t : Token} (h : t.unquote = none) : t.kind = .string := by
  refine Decidable.not_not.1 fun hk => ?_
  simp [unquote_of_kind hk] at h

section Contents

variable {t : Token} {symbol : String}

theorem content_of_kind (h : t.kind ≠ .string) : t.unquote.isSome = true := by
  rw [unquote_of_kind h]
  rfl

theorem content_of_isPunct (h : t.isPunct symbol = true) : t.unquote.isSome = true :=
  content_of_kind (by simp [(Expression.kind_of_isPunct h).1])

theorem content_of_isOperator (h : t.isOperator symbol = true) : t.unquote.isSome = true := by
  have hk : t.kind = .operator ∧ t.value = symbol := by simpa [isOperator] using h
  exact content_of_kind (by simp [hk.1])

theorem content_of_isName (h : t.isName symbol = true) : t.unquote.isSome = true := by
  have hk : t.kind = .name ∧ t.value = symbol := by simpa [isName] using h
  exact content_of_kind (by simp [hk.1])

end Contents

end Token

namespace Expression

namespace Reading

theorem Step.legible {r r' : Reading} (h : Step r r') :
    ∃ us, r.left = us ++ r'.left ∧ Token.Legible us := by
  cases h with
  | @operand _ t _ _ h =>
    refine ⟨[t], rfl, ?_⟩
    cases h with
    | number hk | name hk => simp [Token.content_of_kind, hk]
    | string hk hu => simp [hu]
  | @link _ _ t _ _ h =>
    refine ⟨[t], rfl, ?_⟩
    cases h with
    | operator hk => simp [Token.content_of_kind, hk]
    | comma hk => simp [Token.content_of_isPunct hk]
  | @opening _ u _ _ h =>
    refine ⟨u, rfl, ?_⟩
    cases h with
    | call hn ho => simp [Token.content_of_kind, hn, Token.content_of_isPunct ho]
    | paren ho | bracket ho => simp [Token.content_of_isPunct ho]
  | @closing _ t _ _ _ _ _ _ hc =>
    exact ⟨[t], rfl, by simp [Token.content_of_kind, kind_of_closes hc]⟩

theorem Steps.legible {r r' : Reading} (h : Steps r r') (hl : Token.Legible r'.left) :
    Token.Legible r.left := by
  induction h with
  | refl => exact hl
  | tail _ hs ih =>
    obtain ⟨us, heq, hus⟩ := hs.legible
    exact ih (heq ▸ Token.legible_append.2 ⟨hus, hl⟩)

end Reading

theorem legible_of_parse {ts : List Token} {e : Expression} (h : parse ts = .ok e) :
    Token.Legible ts := by
  obtain ⟨s, hs, -⟩ := Reading.parse_eq_ok_iff.1 h
  exact hs.legible Token.legible_nil

namespace Stacks

theorem takeAll_append {s : Stacks} {ts rest : List Token} (h : Unopened rest) :
    s.takeAll (ts ++ rest) = s.takeAll ts >>= (·.takeAll rest) := by
  fun_induction takeAll s ts with
  | case1 s => rfl
  | case2 s t =>
    cases ht : s.take t with
    | ok s' => exact takeAll_of_take ht fun _ => h
    | error e =>
      cases rest with
      | nil => simp [takeAll, ht, bind, Except.bind]
      | cons u rest =>
        have hu : u.isPunct "(" = false := h u rfl
        simp [takeAll, ht, hu, bind, Except.bind]
  | case3 s t next rest hc ih => simpa [takeAll, hc] using ih
  | case4 s t next rest hc e he => simp [takeAll, hc, he, bind, Except.bind]
  | case5 s t next rest hc s' he ih => simpa [takeAll, hc, he] using ih

theorem takeAll_panic {s : Stacks} {t : Token} {rest : List Token} (h : t.unquote = none) :
    s.takeAll (t :: rest) = .error (panic t) := by
  have hk := Token.kind_of_unquote h
  have ht : s.take t = .error (panic t) := by simp [take, hk, string, h]
  cases rest <;> simp [takeAll, hk, ht]

end Stacks

/-- Puts an empty value in the place of a string without content. -/
def mend (t : Token) : Token := if t.unquote.isSome then t else { t with value := "" }

theorem mend_of_isSome {t : Token} (h : t.unquote.isSome = true) : mend t = t := by simp [mend, h]

theorem mend_of_kind {t : Token} (h : t.kind ≠ .string) : mend t = t :=
  mend_of_isSome (Token.content_of_kind h)

theorem kind_mend (t : Token) : (mend t).kind = t.kind := by
  unfold mend
  split <;> rfl

theorem content_mend (t : Token) : (mend t).unquote.isSome = true := by
  unfold mend
  split
  · assumption
  · simp [Token.unquote, Text.size]

theorem mend_of_isPunct {t : Token} {symbol : String} (h : t.isPunct symbol = true) : mend t = t :=
  mend_of_isSome (Token.content_of_isPunct h)

namespace Grammar

mutual

theorem Primary.mend : {ts : List Token} → {e : Expression} → Primary ts e →
    ∃ f, Primary (ts.map mend) f
  | _, _, .number ht => ⟨_, .number ((kind_mend _).trans ht)⟩
  | _, _, @Primary.string t _ ht _ => by
    obtain ⟨content, hu⟩ := Option.isSome_iff_exists.1 (content_mend t)
    have hcontent : ∀ other ∈ (Expression.mend t).unquote, content = other := by simp [hu]
    exact ⟨_, .string ((kind_mend t).trans ht) hcontent⟩
  | _, _, .name ht => ⟨_, .name ((kind_mend _).trans ht)⟩
  | _, _, .call hn ho hc => by
    rw [List.map_cons, List.map_cons, List.map_singleton, mend_of_isPunct ho, mend_of_isPunct hc]
    exact ⟨_, .call ((kind_mend _).trans hn) ho hc⟩
  | _, _, .callWith hn ho hi hc => by
    obtain ⟨args, hargs⟩ := hi.mend
    rw [List.map_append, List.map_cons, List.map_cons, List.map_singleton, mend_of_isPunct ho,
      mend_of_isPunct hc]
    exact ⟨_, .callWith ((kind_mend _).trans hn) ho hargs hc⟩
  | _, _, .parens ho hi hc => by
    obtain ⟨e, he⟩ := hi.mend
    rw [List.map_append, List.map_cons, List.map_singleton, mend_of_isPunct ho, mend_of_isPunct hc]
    exact ⟨_, .parens ho he hc⟩
  | _, _, .index hb ho hi hc => by
    obtain ⟨base, hbase⟩ := hb.mend
    obtain ⟨position, hposition⟩ := hi.mend
    rw [List.map_append, List.map_append, List.map_cons, List.map_singleton, mend_of_isPunct ho,
      mend_of_isPunct hc]
    exact ⟨_, .index hbase ho hposition hc⟩

theorem Operations.mend : {ts : List Token} → {rest : List (BinaryOp × Expression)} →
    Operations ts rest → ∃ more, Operations (ts.map mend) more
  | _, _, .nil => ⟨_, .nil⟩
  | _, _, .cons ht hop he hm => by
    obtain ⟨e, he⟩ := he.mend
    obtain ⟨more, hmore⟩ := hm.mend
    rw [List.map_append, List.map_cons, mend_of_kind (by simp [ht])]
    exact ⟨_, .cons ht hop he hmore⟩

theorem Spelled.mend : {ts : List Token} → {e : Expression} → Spelled ts e →
    ∃ f, Spelled (ts.map mend) f
  | _, _, .chain he hm => by
    obtain ⟨e, he⟩ := he.mend
    obtain ⟨rest, hrest⟩ := hm.mend
    rw [List.map_append]
    exact ⟨_, .chain he hrest⟩

theorem Arguments.mend : {ts : List Token} → {es : List Expression} → Arguments ts es →
    ∃ fs, Arguments (ts.map mend) fs
  | _, _, .one he => by
    obtain ⟨e, he⟩ := he.mend
    exact ⟨_, .one he⟩
  | _, _, .snoc hes hc he => by
    obtain ⟨es, hes⟩ := hes.mend
    obtain ⟨e, he⟩ := he.mend
    rw [List.map_append, List.map_cons, mend_of_isPunct hc]
    exact ⟨_, .snoc hes hc he⟩

end

end Grammar

theorem map_mend {ts : List Token} (h : Token.Legible ts) : ts.map mend = ts := by
  rw [List.map_congr_left fun t ht => mend_of_isSome (h t ht), List.map_id'']
  exact fun _ => rfl

theorem parse_eq_panic {before after : List Token} {t : Token} {e : Expression}
    (h : Grammar.Spelled (before ++ t :: after) e) (hb : Token.Legible before)
    (ht : t.unquote = none) : parse (before ++ t :: after) = .error (panic t) := by
  have hopen {u : Token} (hu : u.kind = .string) (us : List Token) : Unopened (u :: us) := by
    simpa [Unopened] using isPunct_of_kind (t := u) (by simp [hu]) "("
  have hk := Token.kind_of_unquote ht
  obtain ⟨f, hf⟩ := h.mend
  have hlegible : Token.Legible ((before ++ t :: after).map mend) :=
    List.forall_mem_map.2 fun u _ => content_mend u
  have hmended := parse_of_yields (yields_of_spelled hf hlegible)
  rw [List.map_append, List.map_cons, map_mend hb] at hmended
  obtain ⟨s, hs, -⟩ := bind_eq_ok hmended
  rw [Stacks.takeAll_append (hopen ((kind_mend t).trans hk) _)] at hs
  obtain ⟨s₁, hs₁, -⟩ := bind_eq_ok hs
  rw [parse, Stacks.takeAll_append (hopen hk _), hs₁]
  simp [bind, Except.bind, Stacks.takeAll_panic ht]

/-- Every derivation of the grammar in which all strings have content is read, and its tree is the
one that is found; at the first string without content the program stops. -/
theorem parse_of_spelled {ts : List Token} {e : Expression} (h : Grammar.Spelled ts e) :
    (Token.Legible ts → parse ts = .ok e) ∧
      ∀ before t after, ts = before ++ t :: after → Token.Legible before → t.unquote = none →
        parse ts = .error (panic t) := by
  refine ⟨fun hl => parse_of_yields (yields_of_spelled h hl), ?_⟩
  rintro before t after rfl hb ht
  exact parse_eq_panic h hb ht

/-- `a - f(b, (c)) % 2 / x - 'y' >= d[0]`, token by token. -/
def mixedTokens : List Token :=
  [⟨.name, "a", 0, 1⟩, ⟨.operator, "-", 2, 1⟩, ⟨.name, "f", 4, 1⟩, ⟨.punctuation, "(", 5, 1⟩,
    ⟨.name, "b", 6, 1⟩, ⟨.punctuation, ",", 7, 1⟩, ⟨.punctuation, "(", 9, 1⟩, ⟨.name, "c", 10, 1⟩,
    ⟨.punctuation, ")", 11, 1⟩, ⟨.punctuation, ")", 12, 1⟩, ⟨.operator, "%", 14, 1⟩,
    ⟨.number, "2", 16, 1⟩, ⟨.operator, "/", 18, 1⟩, ⟨.name, "x", 20, 1⟩, ⟨.operator, "-", 22, 1⟩,
    ⟨.string, "'y'", 24, 1⟩, ⟨.operator, ">=", 28, 1⟩, ⟨.name, "d", 31, 1⟩,
    ⟨.punctuation, "[", 32, 1⟩, ⟨.number, "0", 33, 1⟩, ⟨.punctuation, "]", 34, 1⟩]

def mixedTree : Expression :=
  .binary .ge
    (.binary .sub
      (.binary .sub (.identifier "a")
        (.binary .div
          (.binary .mod (.call "f" (some [.identifier "b", .identifier "c"])) (.number "2"))
          (.identifier "x")))
      (.string "y"))
    (.index (.identifier "d") (.number "0"))

theorem mixedTokens_spelled : Grammar.Spelled mixedTokens mixedTree := by
  have single {ts : List Token} {e : Expression} (h : Grammar.Primary ts e) :
      Grammar.Spelled ts e := by simpa [group, fold] using Grammar.Spelled.chain h .nil
  have hc : Grammar.Primary [⟨.punctuation, "(", 9, 1⟩, ⟨.name, "c", 10, 1⟩,
      ⟨.punctuation, ")", 11, 1⟩] (.identifier "c") :=
    @Grammar.Primary.parens _ _ [⟨.name, "c", 10, 1⟩] _ rfl (single (.name rfl)) rfl
  have hargs : Grammar.Arguments [⟨.name, "b", 6, 1⟩, ⟨.punctuation, ",", 7, 1⟩,
      ⟨.punctuation, "(", 9, 1⟩, ⟨.name, "c", 10, 1⟩, ⟨.punctuation, ")", 11, 1⟩]
      [.identifier "b", .identifier "c"] :=
    @Grammar.Arguments.snoc [⟨.name, "b", 6, 1⟩] _ _ [.identifier "b"] _
      (.one (single (.name rfl))) rfl (single hc)
  have hd : Grammar.Primary [⟨.name, "d", 31, 1⟩, ⟨.punctuation, "[", 32, 1⟩,
      ⟨.number, "0", 33, 1⟩, ⟨.punctuation, "]", 34, 1⟩] (.index (.identifier "d") (.number "0")) :=
    @Grammar.Primary.index _ _ [⟨.name, "d", 31, 1⟩] _ _ _ (.name rfl) rfl
      (single (.number rfl)) rfl
  have hf : Grammar.Primary [⟨.name, "f", 4, 1⟩, ⟨.punctuation, "(", 5, 1⟩, ⟨.name, "b", 6, 1⟩,
      ⟨.punctuation, ",", 7, 1⟩, ⟨.punctuation, "(", 9, 1⟩, ⟨.name, "c", 10, 1⟩,
      ⟨.punctuation, ")", 11, 1⟩, ⟨.punctuation, ")", 12, 1⟩]
      (.call "f" (some [.identifier "b", .identifier "c"])) := .callWith rfl rfl hargs rfl
  have hy : Grammar.Primary [⟨.string, "'y'", 24, 1⟩] (.string "y") := .string rfl (by decide)
  have operation (offset : Nat) (symbol : String) (op : BinaryOp) {operand more : List Token}
      {e : Expression} {rest : List (BinaryOp × Expression)} (hop : (symbol, op) ∈ Tier.all)
      (he : Grammar.Primary operand e) (hm : Grammar.Operations more rest) :
      Grammar.Operations (⟨.operator, symbol, offset, 1⟩ :: operand ++ more) ((op, e) :: rest) :=
    .cons rfl hop he hm
  have hx : Grammar.Primary [⟨.name, "x", 20, 1⟩] (.identifier "x") := .name rfl
  have h2 : Grammar.Primary [⟨.number, "2", 16, 1⟩] (.number "2") := .number rfl
  have ha : Grammar.Primary [⟨.name, "a", 0, 1⟩] (.identifier "a") := .name rfl
  exact Grammar.Spelled.chain ha <| operation 2 "-" .sub (by decide) hf <|
    operation 14 "%" .mod (by decide) h2 <| operation 18 "/" .div (by decide) hx <|
    operation 22 "-" .sub (by decide) hy <| operation 28 ">=" .ge (by decide) hd .nil

theorem parse_mixedTokens :
    Grammar.Spelled mixedTokens mixedTree ∧ parse mixedTokens = .ok mixedTree :=
  ⟨mixedTokens_spelled, (parse_of_spelled mixedTokens_spelled).1 (by simp [mixedTokens]; decide)⟩

def wideTokens : List Token := [⟨.string, "é", 0, 1⟩]

/-- A string is an operand, but at one without content the program stops. -/
theorem wideTokens_not_read : Grammar.Spelled wideTokens (.string "é") ∧
    parse wideTokens = .error ⟨.panic, 1⟩ := by
  refine ⟨?_, rfl⟩
  have h : Grammar.Primary wideTokens (.string "é") := .string rfl (by decide)
  exact Grammar.Spelled.chain h .nil

end Expression

end Stencil
