import Stencil.Statement
import Stencil.Document
set_option autoImplicit false

namespace Stencil

open Document (ofOption)

def Document.typed (type : String) (fields : List (String × Document)) : Document :=
  record (("type", string type) :: fields)

def nameDocument (name : String) : Document := .record [("name", .string name)]

namespace Expression

mutual

def document : Expression → Document
  | identifier name => .typed "Identifier" [("name", .string name)]
  | number text => .typed "Literal" [("kind", .string "Number"), ("text", .string text)]
  | string text => .typed "Literal" [("kind", .string "String"), ("text", .string text)]
  | binary op left right =>
    .typed "Binary" [("op", .string op.symbol), ("left", left.document), ("right", right.document)]
  | index base position => .typed "Index" [("base", base.document), ("index", position.document)]
  | call function none => .typed "Call" [("function", nameDocument function), ("args", .null)]
  | call function (some args) =>
    .typed "Call" [("function", nameDocument function),
      ("args", .record [("items", .list (documents args))])]

def documents : List Expression → List Document
  | [] => []
  | e :: rest => e.document :: documents rest

end

end Expression

namespace Assignment

def fields (a : Assignment) : List (String × Document) :=
  [("target", nameDocument a.target), ("op", .string a.op.symbol),
    ("value", ofOption Expression.document a.value)]

def document (a : Assignment) : Document := .record a.fields

end Assignment

namespace Statement

mutual

def document : Statement → Document
  | text literal => .typed "Text" [("literal", .string literal)]
  | value expr => .typed "Value" [("expr", expr.document)]
  | assign a => .typed "Set" a.fields
  | conditional test body branch =>
    .typed "If" [("cond", test.document), ("body", .list (documents body)),
      ("else_branch", branchDocument branch)]
  | loop start test step body =>
    .typed "For" [("init", ofOption Assignment.document start),
      ("cond", ofOption Expression.document test), ("post", ofOption Assignment.document step),
      ("body", .list (documents body))]
  | range key val source body =>
    .typed "Range" [("key", ofOption nameDocument key), ("value", ofOption nameDocument val),
      ("source", source.document), ("body", .list (documents body))]
  | block name body => .typed "Block" [("name", .string name), ("body", .list (documents body))]
  | inclusion template params =>
    .typed "Include" [("template", .string template),
      ("params", .list (params.map Assignment.document))]

def documents : List Statement → List Document
  | [] => []
  | s :: rest => s.document :: documents rest

def branchDocument : Branch → Document
  | .none => .null
  | .elseIf test body branch =>
    .typed "If" [("cond", test.document), ("body", .list (documents body)),
      ("else_branch", branchDocument branch)]
  | .otherwise body => .typed "Else" [("body", .list (documents body))]

end

/-- A block as a document outside a tree, where its type is known. -/
def blockDocument (name : String) (body : List Statement) : Document :=
  .record [("name", .string name), ("body", .list (documents body))]

end Statement

namespace Tree

def document (tree : Tree) : Document :=
  .record [("statements", .list (Statement.documents tree.statements)),
    ("extend", ofOption (fun template => .record [("template", .string template)]) tree.extend)]

def toJson (tree : Tree) : String := tree.document.toString

end Tree

end Stencil
