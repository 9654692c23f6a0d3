import Stencil.Expression.Reader
/-!
The grammar of expressions. It says which tokens spell an expression by recursion on what they
spell, and knows nothing of stacks and priorities: an expression is a chain of operands with
operators between them, and the tree of a chain is found by forming products first, then sums, then
comparisons.
-/
set_option autoImplicit false

namespace Stencil.Expression

/-- Operators that bind alike, as they are written. -/
abbrev Tier := List (String × BinaryOp)

namespace Tier

def products : Tier := [("*", .mul), ("/", .div), ("%", .mod)]

def sums : Tier := [("+", .add), ("-", .sub)]

def comparisons : Tier :=
  [("==", .eq), ("!=", .ne), (">", .gt), (">=", .ge), ("<", .lt), ("<=", .le)]

def all : Tier := products ++ sums ++ comparisons

def has (tier : Tier) (op : BinaryOp) : Bool := tier.any (·.2 == op)

theorem mem_all_iff {symbol : String} {op : BinaryOp} :
    (symbol, op) ∈ all ↔ BinaryOp.ofSymbol? symbol = some op := by
  constructor
  · have table : ∀ entry ∈ all, BinaryOp.ofSymbol? entry.1 = some entry.2 := by decide
    exact table (symbol, op)
  · intro h
    obtain rfl := beq_iff_eq.1 (List.find?_some (p := fun op => BinaryOp.symbol op == symbol) h)
    cases op <;> decide

end Tier

/-- Applies the operators of one tier in a chain, from left to right. -/
def fold (tier : Tier) (e : Expression) :
    List (BinaryOp × Expression) → Expression × List (BinaryOp × Expression)
  | [] => (e, [])
  | (op, f) :: rest =>
    if tier.has op then fold tier (.binary op e f) rest
    else
      let more := fold tier f rest
      (e, (op, more.1) :: more.2)

def group (e : Expression) (rest : List (BinaryOp × Expression)) : Expression :=
  let products := fold .products e rest
  let sums := fold .sums products.1 products.2
  (fold .comparisons sums.1 sums.2).1

theorem mem_fold {tier : Tier} {e : Expression} {rest : List (BinaryOp × Expression)}
    {x : BinaryOp × Expression} (h : x ∈ (fold tier e rest).2) :
    tier.has x.1 = false ∧ ∃ f, (x.1, f) ∈ rest := by
  induction rest generalizing e with
  | nil => simp [fold] at h
  | cons y rest ih =>
    obtain ⟨op, f⟩ := y
    rw [fold] at h
    split at h
    · obtain ⟨hp, g, hg⟩ := ih h
      exact ⟨hp, g, by simp [hg]⟩
    · rename_i hop
      cases h with
      | head => exact ⟨by simpa using hop, f, by simp⟩
      | tail _ h =>
        obtain ⟨hp, g, hg⟩ := ih h
        exact ⟨hp, g, by simp [hg]⟩

theorem fold_fold_fold (e : Expression) (rest : List (BinaryOp × Expression)) :
    let products := fold .products e rest
    let sums := fold .sums products.1 products.2
    (fold .comparisons sums.1 sums.2).2 = [] := by
  intro products sums
  rw [List.eq_nil_iff_forall_not_mem]
  rintro ⟨op, _⟩ hx
  obtain ⟨hcomparison, f, hf⟩ := mem_fold hx
  obtain ⟨hsum, g, hg⟩ := mem_fold hf
  obtain ⟨hproduct, _⟩ := mem_fold hg
  cases op <;> contradiction

namespace Grammar

mutual

/-- An operand: a literal, a name, a call, an expression in parentheses, or an indexed operand. A
string stands for its content, if it has one. -/
inductive Primary : List Token → Expression → Prop where
  | number {t : Token} (ht : t.kind = .number) : Primary [t] (.number t.value)
  | string {t : Token} {text : String} (ht : t.kind = .string)
      (hu : ∀ content ∈ t.unquote, text = content) : Primary [t] (.string text)
  | name {t : Token} (ht : t.kind = .name) : Primary [t] (.identifier t.value)
  | call {name opening closing : Token} (hn : name.kind = .name) (ho : opening.isPunct "(")
      (hc : closing.isPunct ")") : Primary [name, opening, closing] (.call name.value none)
  | callWith {name opening closing : Token} {inner : List Token} {args : List Expression}
      (hn : name.kind = .name) (ho : opening.isPunct "(") (hi : Arguments inner args)
      (hc : closing.isPunct ")") :
      Primary (name :: opening :: inner ++ [closing]) (.call name.value (some args))
  | parens {opening closing : Token} {inner : List Token} {e : Expression}
      (ho : opening.isPunct "(") (hi : Spelled inner e) (hc : closing.isPunct ")") :
      Primary (opening :: inner ++ [closing]) e
  | index {opening closing : Token} {outer inner : List Token} {base position : Expression}
      (hb : Primary outer base) (ho : opening.isPunct "[") (hi : Spelled inner position)
      (hc : closing.isPunct "]") :
      Primary (outer ++ opening :: inner ++ [closing]) (.index base position)

inductive Operations : List Token → List (BinaryOp × Expression) → Prop where
  | nil : Operations [] []
  | cons {t : Token} {op : BinaryOp} {operand more : List Token} {e : Expression}
      {rest : List (BinaryOp × Expression)} (ht : t.kind = .operator)
      (hop : (t.value, op) ∈ Tier.all) (he : Primary operand e)
      (hm : Operations more rest) : Operations (t :: operand ++ more) ((op, e) :: rest)

inductive Spelled : List Token → Expression → Prop where
  | chain {first more : List Token} {e : Expression} {rest : List (BinaryOp × Expression)}
      (he : Primary first e) (hm : Operations more rest) : Spelled (first ++ more) (group e rest)

inductive Arguments : List Token → List Expression → Prop where
  | one {ts : List Token} {e : Expression} (he : Spelled ts e) : Arguments ts [e]
  | snoc {ts us : List Token} {comma : Token} {es : List Expression} {e : Expression}
      (hes : Arguments ts es) (hc : comma.isPunct ",") (he : Spelled us e) :
      Arguments (ts ++ comma :: us) (es ++ [e])

end

end Grammar

end Stencil.Expression
