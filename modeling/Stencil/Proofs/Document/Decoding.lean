import Stencil.Tree.Document
import Stencil.Proofs.Document.Reading
set_option autoImplicit false

namespace Stencil

def Document.optional? {α : Type} (f : Document → Option α) : Document → Option (Option α)
  | .null => some none
  | d => (f d).map some

def Document.name? : Document → Option String
  | .record [("name", .string name)] => some name
  | _ => none

namespace Expression

mutual

def ofDocument? : Document → Option Expression
  | .record [("type", .string "Identifier"), ("name", .string name)] => some (.identifier name)
  | .record [("type", .string "Literal"), ("kind", .string "Number"), ("text", .string text)] =>
    some (.number text)
  | .record [("type", .string "Literal"), ("kind", .string "String"), ("text", .string text)] =>
    some (.string text)
  | .record [("type", .string "Binary"), ("op", .string op), ("left", left), ("right", right)] => do
    return .binary (← BinaryOp.ofSymbol? op) (← ofDocument? left) (← ofDocument? right)
  | .record [("type", .string "Index"), ("base", base), ("index", position)] => do
    return .index (← ofDocument? base) (← ofDocument? position)
  | .record [("type", .string "Call"), ("function", function), ("args", .null)] => do
    return .call (← function.name?) none
  | .record [("type", .string "Call"), ("function", function),
      ("args", .record [("items", .list items)])] => do
    return .call (← function.name?) (some (← ofDocuments? items))
  | _ => none

def ofDocuments? : List Document → Option (List Expression)
  | [] => some []
  | d :: rest => do return (← ofDocument? d) :: (← ofDocuments? rest)

end

mutual

theorem ofDocument?_document (e : Expression) : ofDocument? e.document = some e := by
  match e with
  | .identifier _ | .number _ | .string _ => rfl
  | .binary op left right =>
    simp [document, Document.typed, ofDocument?, BinaryOp.ofSymbol?_symbol,
      left.ofDocument?_document, right.ofDocument?_document]
  | .index base position =>
    simp [document, Document.typed, ofDocument?, base.ofDocument?_document,
      position.ofDocument?_document]
  | .call function none => rfl
  | .call function (some args) =>
    simp [document, Document.typed, ofDocument?, Document.name?, nameDocument,
      ofDocuments?_documents args]

theorem ofDocuments?_documents (es : List Expression) : ofDocuments? (documents es) = some es := by
  match es with
  | [] => rfl
  | e :: rest =>
    simp [documents, ofDocuments?, e.ofDocument?_document, ofDocuments?_documents rest]

end

theorem document_ne_null (e : Expression) : e.document ≠ .null := by
  match e with
  | .identifier _ | .number _ | .string _ | .binary .. | .index .. | .call _ none
  | .call _ (some _) => simp [document, Document.typed]

end Expression

theorem Document.name?_nameDocument (name : String) : name? (nameDocument name) = some name := rfl

theorem Document.optional?_ofOption {α : Type} {f : α → Document} {g : Document → Option α}
    (hread : ∀ a, g (f a) = some a) (hne : ∀ a, f a ≠ .null) (x : Option α) :
    optional? g (ofOption f x) = some x := by
  cases x with
  | none => rfl
  | some a =>
    have h : optional? g (f a) = (g (f a)).map some := optional?.eq_2 g (f a) (hne a)
    rw [ofOption, h, hread]
    rfl

namespace Assignment

def ofFields? : List (String × Document) → Option Assignment
  | [("target", target), ("op", .string op), ("value", value)] => do
    return ⟨← target.name?, ← SetOp.ofSymbol? op, ← value.optional? Expression.ofDocument?⟩
  | _ => none

def ofDocument? : Document → Option Assignment
  | .record fields => ofFields? fields
  | _ => none

theorem ofFields?_fields (a : Assignment) : ofFields? a.fields = some a := by
  have hvalue := Document.optional?_ofOption Expression.ofDocument?_document
    Expression.document_ne_null a.value
  simp [fields, ofFields?, Document.name?_nameDocument, SetOp.ofSymbol?_symbol, hvalue]

theorem ofDocument?_document (a : Assignment) : ofDocument? a.document = some a :=
  a.ofFields?_fields

theorem document_ne_null (a : Assignment) : a.document ≠ .null := by simp [document]

end Assignment

namespace Statement

mutual

def ofDocument? : Document → Option Statement
  | .record [("type", .string "Text"), ("literal", .string literal)] => some (.text literal)
  | .record [("type", .string "Value"), ("expr", expr)] => do
    return .value (← Expression.ofDocument? expr)
  | .record (("type", .string "Set") :: fields) => do return .assign (← Assignment.ofFields? fields)
  | .record [("type", .string "If"), ("cond", test), ("body", .list body),
      ("else_branch", branch)] => do
    return .conditional (← Expression.ofDocument? test) (← ofDocuments? body)
      (← ofBranchDocument? branch)
  | .record [("type", .string "For"), ("init", start), ("cond", test), ("post", step),
      ("body", .list body)] => do
    return .loop (← start.optional? Assignment.ofDocument?)
      (← test.optional? Expression.ofDocument?) (← step.optional? Assignment.ofDocument?)
      (← ofDocuments? body)
  | .record [("type", .string "Range"), ("key", key), ("value", val), ("source", source),
      ("body", .list body)] => do
    return .range (← key.optional? Document.name?) (← val.optional? Document.name?)
      (← Expression.ofDocument? source) (← ofDocuments? body)
  | .record [("type", .string "Block"), ("name", .string name), ("body", .list body)] => do
    return .block name (← ofDocuments? body)
  | .record [("type", .string "Include"), ("template", .string template),
      ("params", .list params)] => do
    return .inclusion template (← params.mapM Assignment.ofDocument?)
  | _ => none

def ofDocuments? : List Document → Option (List Statement)
  | [] => some []
  | d :: rest => do return (← ofDocument? d) :: (← ofDocuments? rest)

def ofBranchDocument? : Document → Option Branch
  | .null => some .none
  | .record [("type", .string "If"), ("cond", test), ("body", .list body),
      ("else_branch", branch)] => do
    return .elseIf (← Expression.ofDocument? test) (← ofDocuments? body)
      (← ofBranchDocument? branch)
  | .record [("type", .string "Else"), ("body", .list body)] => do
    return .otherwise (← ofDocuments? body)
  | _ => none

end

theorem mapM_ofDocument?_document (params : List Assignment) :
    (params.map Assignment.document).mapM Assignment.ofDocument? = some params := by
  induction params with
  | nil => rfl
  | cons a rest ih => simp [Assignment.ofDocument?_document, ih]

mutual

theorem ofDocument?_document (s : Statement) : ofDocument? s.document = some s := by
  match s with
  | .text literal => rfl
  | .value expr => simp [document, Document.typed, ofDocument?, expr.ofDocument?_document]
  | .assign a => simp [document, Document.typed, ofDocument?, a.ofFields?_fields]
  | .conditional test body branch =>
    simp [document, Document.typed, ofDocument?, test.ofDocument?_document,
      ofDocuments?_documents body, ofBranchDocument?_branchDocument branch]
  | .loop start test step body =>
    have hassignment := Document.optional?_ofOption Assignment.ofDocument?_document
      Assignment.document_ne_null
    have htest := Document.optional?_ofOption Expression.ofDocument?_document
      Expression.document_ne_null
    simp [document, Document.typed, ofDocument?, hassignment, htest, ofDocuments?_documents body]
  | .range key val source body =>
    have hname := Document.optional?_ofOption Document.name?_nameDocument (by simp [nameDocument])
    simp [document, Document.typed, ofDocument?, hname, source.ofDocument?_document,
      ofDocuments?_documents body]
  | .block name body =>
    simp [document, Document.typed, ofDocument?, ofDocuments?_documents body]
  | .inclusion template params =>
    simp [document, Document.typed, ofDocument?, mapM_ofDocument?_document params]

theorem ofDocuments?_documents (body : List Statement) :
    ofDocuments? (documents body) = some body := by
  match body with
  | [] => rfl
  | s :: rest =>
    simp [documents, ofDocuments?, s.ofDocument?_document, ofDocuments?_documents rest]

theorem ofBranchDocument?_branchDocument (branch : Branch) :
    ofBranchDocument? (branchDocument branch) = some branch := by
  match branch with
  | .none => rfl
  | .elseIf test body branch =>
    simp [branchDocument, Document.typed, ofBranchDocument?, test.ofDocument?_document,
      ofDocuments?_documents body, ofBranchDocument?_branchDocument branch]
  | .otherwise body =>
    simp [branchDocument, Document.typed, ofBranchDocument?, ofDocuments?_documents body]

end

end Statement

namespace Tree

def extend? : Document → Option String
  | .record [("template", .string template)] => some template
  | _ => none

def ofDocument? : Document → Option Tree
  | .record [("statements", .list statements), ("extend", extend)] => do
    return ⟨← Statement.ofDocuments? statements, ← extend.optional? extend?⟩
  | _ => none

def ofJson? (text : String) : Option Tree := (Document.ofString? text).bind ofDocument?

theorem ofDocument?_document (t : Tree) : ofDocument? t.document = some t := by
  have hextend := Document.optional?_ofOption (g := extend?)
    (f := fun template => .record [("template", .string template)]) (fun _ => rfl) (by simp)
    t.extend
  simp [document, ofDocument?, Statement.ofDocuments?_documents, hextend]

theorem ofJson?_toJson (t : Tree) : ofJson? t.toJson = some t := by
  simp [ofJson?, toJson, Document.ofString?_toString, t.ofDocument?_document]

/-- The JSON of a tree can be decoded, whatever the tree, so no two trees have the same one; and it
is well-formed. -/
theorem toJson_lossless :
    (∀ t : Tree, ofJson? t.toJson = some t) ∧ Function.Injective toJson ∧
      ∀ t : Tree, Json.WellFormed t.toJson := by
  refine ⟨ofJson?_toJson, fun t u h => ?_, fun t => t.document.wellFormed_toString⟩
  have hsome : some t = some u := by rw [← t.ofJson?_toJson, h, u.ofJson?_toJson]
  exact Option.some.inj hsome

end Tree

end Stencil
