import Mathlib.Tactic.Ring
import Stencil.Proofs.Expression.Steps
/-!
What becomes of the tokens of an expression. Whether or not they stand where the grammar wants them,
each one is found in the tree once: what is found in the stacks, together with what is written in
the tokens that are left, stays the same from step to step.
-/
set_option autoImplicit false

namespace Stencil.Expression

mutual

def nodes : Expression → List Expression
  | identifier name => [identifier name]
  | number text => [number text]
  | string text => [string text]
  | binary op left right => binary op left right :: (left.nodes ++ right.nodes)
  | index base position => index base position :: (base.nodes ++ position.nodes)
  | call function none => [call function none]
  | call function (some args) => call function (some args) :: nodesOfAll args

def nodesOfAll : List Expression → List Expression
  | [] => []
  | e :: rest => e.nodes ++ nodesOfAll rest

end

def identifier? : Expression → Option String
  | identifier name => some name
  | _ => none

def function? : Expression → Option String
  | call function _ => some function
  | _ => none

def number? : Expression → Option String
  | number text => some text
  | _ => none

def string? : Expression → Option String
  | string text => some text
  | _ => none

def operator? : Expression → Option String
  | binary op _ _ => some op.symbol
  | _ => none

def isIndex : Expression → Bool
  | index _ _ => true
  | _ => false

def args? : Expression → Option (List Expression)
  | call _ args => args
  | _ => none

def names (calling : Bool) : List Token → List String
  | [] => []
  | t :: rest =>
    if t.kind = .name ∧ rest.head?.any (·.isPunct "(") = calling then t.value :: names calling rest
    else names calling rest

def values {α : Type} (kind : Token.Kind) (value : Token → α) (ts : List Token) : List α :=
  (ts.filter (·.kind = kind)).map value

/-- Everything that is written is found in the tree once, and nothing else is, the content of every
string among it. A comma stands between any two arguments; in integers, an empty list of arguments
would count against that. -/
structure Accounts (ts : List Token) (e : Expression) : Prop where
  identifiers : (e.nodes.filterMap identifier?).Perm (names false ts)
  calls : (e.nodes.filterMap function?).Perm (names true ts)
  numbers : (e.nodes.filterMap number?).Perm (values .number (·.value) ts)
  strings : ((e.nodes.filterMap string?).map some).Perm (values .string (·.unquote) ts)
  operators : (e.nodes.filterMap operator?).Perm (values .operator (·.value) ts)
  indices : e.nodes.countP isIndex = ts.countP (·.isPunct "[")
  commas : ((e.nodes.filterMap args?).map fun args => (args.length - 1 : Int)).sum =
    ts.countP (·.isPunct ",")

/-- What is written in tokens and found in trees. -/
inductive Mark where
  | identifier (name : String)
  | call (name : String)
  | number (text : String)
  | string (text : Option String)
  | operator (symbol : String)
  | index
  | comma
  deriving DecidableEq

def mark : Expression → Mark
  | identifier name => .identifier name
  | number text => .number text
  | string text => .string (some text)
  | binary op _ _ => .operator op.symbol
  | index _ _ => .index
  | call function _ => .call function

def commas : Expression → Int
  | call _ (some args) => args.length - 1
  | _ => 0

theorem symbol_of_ofSymbol? {symbol : String} {op : BinaryOp}
    (h : BinaryOp.ofSymbol? symbol = some op) : op.symbol = symbol :=
  beq_iff_eq.1 (List.find?_some (p := fun op => BinaryOp.symbol op == symbol) h)

namespace Mark

def found (nodes : List Expression) : Mark → Int
  | identifier name => (nodes.filterMap identifier?).count name
  | call name => (nodes.filterMap function?).count name
  | number text => (nodes.filterMap number?).count text
  | string text => ((nodes.filterMap string?).map some).count text
  | operator symbol => (nodes.filterMap operator?).count symbol
  | index => nodes.countP isIndex
  | comma => ((nodes.filterMap args?).map fun args => (args.length - 1 : Int)).sum

def written (ts : List Token) : Mark → Int
  | identifier name => (names false ts).count name
  | call name => (names true ts).count name
  | number text => (values .number (·.value) ts).count text
  | string text => (values .string (·.unquote) ts).count text
  | operator symbol => (values .operator (·.value) ts).count symbol
  | index => ts.countP (·.isPunct "[")
  | comma => ts.countP (·.isPunct ",")

variable (m : Mark)

def once (there : Mark) : Int := if there = m then 1 else 0

@[simp]
theorem found_nil : m.found [] = 0 := by cases m <;> rfl

theorem found_append (a b : List Expression) : m.found (a ++ b) = m.found a + m.found b := by
  cases m <;> simp [found]

theorem found_cons (e : Expression) (rest : List Expression) :
    m.found (e :: rest) = m.once e.mark + e.commas * m.once .comma + m.found rest := by
  rw [← List.singleton_append, found_append]
  congr 1
  match e with
  | .identifier _ | .number _ | .string _ | .binary .. | .index .. | .call _ none
  | .call _ (some _) =>
    cases m <;> simp [found, once, mark, commas, List.filterMap_cons, List.count_cons,
      identifier?, function?, number?, string?, operator?, isIndex, args?]

theorem found_leaf {t : Token} {e : Expression} (h : Leaf t e) :
    m.found e.nodes = m.once e.mark := by
  cases h <;> simp [nodes, found_cons, commas, found_nil]

theorem found_bare (name : String) :
    m.found (nodes (.call name none)) = m.once (.call name) := by
  simp [nodes, found_cons, commas, mark, found_nil]

theorem found_nodesOfAll_append (a b : List Expression) :
    m.found (nodesOfAll (a ++ b)) = m.found (nodesOfAll a) + m.found (nodesOfAll b) := by
  induction a with
  | nil => cases m <;> simp [nodesOfAll, found]
  | cons e a ih => simp only [List.cons_append, nodesOfAll, found_append, ih, Int.add_assoc]

def inOperand (o : Operand) : Int :=
  m.found (nodesOfAll o.items) + (o.items.length - 1) * m.once .comma

def inPending : Pending → Int
  | .binary op _ => m.once (.operator op.symbol)
  | .comma _ => m.once .comma
  | .call name _ => m.once (.call name.value)
  | .bracket _ _ => m.once .index
  | .paren _ _ => 0

theorem inOperand_plain (e : Expression) : m.inOperand (.plain e) = m.found e.nodes := by
  simp [inOperand, Operand.items, nodesOfAll]

theorem inOperand_gather (t : Token) (right : Expression) (left : Operand) :
    m.inOperand (gather t right left) =
      m.inOperand left + m.found right.nodes + m.once .comma := by
  cases left with
  | plain left =>
    simp [inOperand, gather, Operand.items, nodesOfAll, found_append]
  | arguments items first =>
    simp only [inOperand, gather, Operand.items, found_nodesOfAll_append, nodesOfAll,
      List.append_nil, List.length_append, List.length_singleton, Int.natCast_add]
    ring

def inOperands (operands : List Operand) : Int := (operands.map m.inOperand).sum

def inStacks (s : Stacks) : Int := m.inOperands s.operands + (s.pending.map m.inPending).sum

theorem inOperands_cons (o : Operand) (rest : List Operand) :
    m.inOperands (o :: rest) = m.inOperand o + m.inOperands rest := by simp [inOperands]

theorem inOperands_of_joins {p : Pending} {operands after : List Operand}
    (h : Joins p operands after) : m.inOperands after = m.inOperands operands + m.inPending p := by
  cases h with
  | binary =>
    simp only [inOperands_cons, inOperand_plain, nodes, found_cons, found_append, inPending, mark,
      commas]
    ring
  | comma =>
    simp only [inOperands_cons, inOperand_plain, inOperand_gather, inPending]
    ring

theorem inStacks_of_applies {level : Nat} {s s' : Stacks} (h : Applies level s s') :
    m.inStacks s' = m.inStacks s := by
  induction h with
  | stop => rfl
  | join _ hj _ _ ih =>
    rw [ih]
    simp only [inStacks, m.inOperands_of_joins hj, List.map_cons, List.sum_cons]
    ring

theorem inOperands_of_closes {t : Token} {p : Pending} {operands after : List Operand}
    (h : Closes t p operands after) :
    m.inOperands after = m.inOperands operands + m.inPending p := by
  cases h with
  | paren => simp [inPending]
  | bare =>
    simp only [inOperands_cons, inOperand_plain, found_bare, inPending]
    ring
  | call =>
    simp only [inOperands_cons, inOperand_plain, nodes, found_cons, inPending, mark, commas]
    simp only [inOperand]
    ring
  | bracket =>
    simp only [inOperands_cons, inOperand_plain, nodes, found_cons, found_append, inPending, mark,
      commas]
    ring

theorem written_of_leaf {t : Token} {e : Expression} {rest : List Token} (h : Leaf t e)
    (hn : t.kind = .name → Unopened rest) :
    m.written (t :: rest) = m.written rest + m.once e.mark := by
  cases h with
  | number h =>
    cases m <;> simp [written, names, values, h, Token.isPunct, once, mark, List.count_cons]
  | string h hu =>
    cases m <;> simp [written, names, values, h, hu, Token.isPunct, once, mark, List.count_cons]
  | name h =>
    have hu : rest.head?.any (·.isPunct "(") = false := by
      cases rest with
      | nil => rfl
      | cons u rest => exact hn h u rfl
    have hp (symbol : String) : t.isPunct symbol = false := isPunct_of_kind (by simp [h]) symbol
    cases m <;> simp [written, names, values, h, hu, hp, once, mark, List.count_cons]

theorem written_of_links {t : Token} {p : Pending} {rest : List Token} (h : Links t p) :
    m.written (t :: rest) = m.written rest + m.inPending p := by
  cases h with
  | operator hk hop =>
    have hs := symbol_of_ofSymbol? hop
    cases m <;> simp [written, names, values, hk, hs, Token.isPunct, once, inPending,
      List.count_cons]
  | comma h =>
    obtain ⟨hk, hv⟩ := kind_of_isPunct h
    cases m <;> simp [written, names, values, hk, hv, Token.isPunct, once, inPending]

theorem written_of_opens {us : List Token} {p : Pending} {depth : Nat} {rest : List Token}
    (h : Opens us p depth) : m.written (us ++ rest) = m.written rest + m.inPending p := by
  cases h with
  | call hn ho =>
    obtain ⟨hk, hv⟩ := kind_of_isPunct ho
    cases m <;> simp [written, names, values, hn, hk, hv, Token.isPunct, once, inPending,
      List.count_cons]
  | paren h | bracket h =>
    obtain ⟨hk, hv⟩ := kind_of_isPunct h
    cases m <;> simp [written, names, values, hk, hv, Token.isPunct, once, inPending]

theorem written_of_closes {t : Token} {p : Pending} {operands after : List Operand}
    {rest : List Token} (h : Closes t p operands after) :
    m.written (t :: rest) = m.written rest := by
  cases h with
  | paren h | bare h | call h | bracket h =>
    obtain ⟨hk, hv⟩ := kind_of_isPunct h
    cases m <;> simp [written, names, values, hk, hv, Token.isPunct]

/-- What is found already, and what is written in the tokens that are left. -/
def inReading (r : Reading) : Int := m.inStacks r.state + m.written r.left

theorem inReading_of_step {r r' : Reading} (h : r.Step r') : m.inReading r' = m.inReading r := by
  cases h with
  | operand h hn =>
    simp only [inReading, inStacks, Stacks.push, m.written_of_leaf h hn, inOperands_cons,
      inOperand_plain, found_leaf m h]
    omega
  | link h ha =>
    have hs := m.inStacks_of_applies ha
    simp only [inReading, inStacks, Stacks.wait, m.written_of_links h, List.map_cons,
      List.sum_cons] at hs ⊢
    omega
  | opening h =>
    simp only [inReading, inStacks, Stacks.wait, m.written_of_opens h, List.map_cons,
      List.sum_cons]
    omega
  | closing ha hc =>
    have hs := m.inStacks_of_applies ha
    simp only [inReading, inStacks, m.written_of_closes hc, m.inOperands_of_closes hc,
      List.map_cons, List.sum_cons] at hs ⊢
    omega

theorem inReading_of_steps {r r' : Reading} (h : Reading.Steps r r') :
    m.inReading r' = m.inReading r := by
  induction h with
  | refl => rfl
  | tail _ hs ih => exact (m.inReading_of_step hs).trans ih

theorem found_of_parse {ts : List Token} {e : Expression} (h : parse ts = .ok e) :
    m.found e.nodes = m.written ts := by
  obtain ⟨s, hs, ha⟩ := Reading.parse_eq_ok_iff.1 h
  have hwritten : m.written [] = 0 := by cases m <;> rfl
  calc m.found e.nodes
    _ = m.inStacks ⟨[.plain e], []⟩ := by simp [inStacks, inOperands, inOperand_plain]
    _ = m.inStacks s := m.inStacks_of_applies ha
    _ = m.inReading ⟨s, []⟩ := by simp [inReading, hwritten]
    _ = m.inReading (.start ts) := m.inReading_of_steps hs
    _ = m.written ts := by simp [inReading, Reading.start, inStacks, inOperands]

end Mark

/-- Nothing that is written is lost or found twice, wherever in the expression it stands. -/
theorem accounts_of_parse {ts : List Token} {e : Expression} (h : parse ts = .ok e) :
    Accounts ts e where
  identifiers := List.perm_iff_count.2 fun name =>
    Int.ofNat_inj.1 (Mark.found_of_parse (.identifier name) h)
  calls := List.perm_iff_count.2 fun name => Int.ofNat_inj.1 (Mark.found_of_parse (.call name) h)
  numbers := List.perm_iff_count.2 fun text =>
    Int.ofNat_inj.1 (Mark.found_of_parse (.number text) h)
  strings := List.perm_iff_count.2 fun content =>
    Int.ofNat_inj.1 (Mark.found_of_parse (.string content) h)
  operators := List.perm_iff_count.2 fun symbol =>
    Int.ofNat_inj.1 (Mark.found_of_parse (.operator symbol) h)
  indices := Int.ofNat_inj.1 (Mark.found_of_parse .index h)
  commas := Mark.found_of_parse .comma h

/-- `1 f((a, 'b'), a[2]) +`, token by token. -/
def scatteredTokens : List Token :=
  [⟨.number, "1", 0, 1⟩, ⟨.name, "f", 2, 1⟩, ⟨.punctuation, "(", 3, 1⟩,
    ⟨.punctuation, "(", 4, 1⟩, ⟨.name, "a", 5, 1⟩, ⟨.punctuation, ",", 6, 1⟩,
    ⟨.string, "'b'", 8, 1⟩, ⟨.punctuation, ")", 11, 1⟩, ⟨.punctuation, ",", 12, 1⟩,
    ⟨.name, "a", 14, 1⟩, ⟨.punctuation, "[", 15, 1⟩, ⟨.number, "2", 16, 1⟩,
    ⟨.punctuation, "]", 17, 1⟩, ⟨.punctuation, ")", 18, 1⟩, ⟨.operator, "+", 20, 1⟩]

def scatteredTree : Expression :=
  .binary .add (.number "1") (.call "f" (some [.identifier "a", .string "b",
    .index (.identifier "a") (.number "2")]))

theorem scatteredTokens_accounts :
    parse scatteredTokens = .ok scatteredTree ∧ Accounts scatteredTokens scatteredTree :=
  ⟨rfl, accounts_of_parse rfl⟩

end Stencil.Expression
