import Stencil.ParseError
import Stencil.Statement
import Stencil.Token.Template
/-!
Writing templates. Text that would open a tag, or would together with what follows it, is written
in verbatim blocks; a block tag inside it is spread over two of them, so that no block holds the tag
that would end it.
-/
set_option autoImplicit false

namespace Stencil

def blockTag (words : List Char) : List Char :=
  Tag.block.opening ++ ' ' :: words ++ ' ' :: Tag.block.closing

def openTag (c : Construct) (args : List Char) : List Char :=
  blockTag (c.keyword.toList ++ ' ' :: args)

def closeTag (c : Construct) : List Char := blockTag c.closer.toList

namespace Statement

/-- Splits every block tag opening between two verbatim blocks. -/
def guardTags : List Char → List Char
  | [] => []
  | '{' :: '%' :: rest =>
    '{' :: blockTag endVerbatim ++ blockTag verbatim ++ '%' :: guardTags rest
  | c :: rest => c :: guardTags rest

def writeVerbatim (s : List Char) : List Char :=
  blockTag verbatim ++ guardTags s ++ blockTag endVerbatim

/-- Whether text would open a tag by itself or could do so with what follows it. -/
def needsVerbatim (s : List Char) : Bool :=
  !(Tag.split s).2.isEmpty || s.getLast? == some '{' || s.getLast? == some '@'

def writeText (s : List Char) : List Char := if needsVerbatim s then writeVerbatim s else s

def writeBinding (name : Option String) : List Char := (name.getD "_").toList

def writeParams : List Assignment → List Char
  | [] => []
  | [a] => a.write
  | a :: rest => a.write ++ ';' :: ' ' :: writeParams rest

def writeClauses (start : Option Assignment) (test : Option Expression)
    (step : Option Assignment) : List Char :=
  let condition := (test.map fun e => e.write []).getD []
  let clause (a : Option Assignment) : List Char := (a.map Assignment.write).getD []
  match start, step with
  | none, none => condition
  | _, _ => clause start ++ ';' :: ' ' :: condition ++ ';' :: ' ' :: clause step

def writeBindings (key value : Option String) : List Char :=
  match value with
  | none => writeBinding key
  | some _ => writeBinding key ++ ',' :: ' ' :: writeBinding value

def writeInclusion (template : String) (params : List Assignment) : List Char :=
  match params with
  | [] => Text.Quoted.write template.toList
  | _ => Text.Quoted.write template.toList ++ " with ".toList ++ writeParams params

mutual

def write : Statement → List Char → List Char
  | text literal, tail => writeText literal.toList ++ tail
  | value expr, tail =>
    Tag.value.opening ++ ' ' :: expr.write (' ' :: Tag.value.closing ++ tail)
  | assign a, tail => blockTag ("set ".toList ++ a.write) ++ tail
  | conditional test body branch, tail =>
    openTag .conditional (test.write []) ++
      writeList body (writeBranch branch (closeTag .conditional ++ tail))
  | loop start test step body, tail =>
    openTag .loop (writeClauses start test step) ++ writeList body (closeTag .loop ++ tail)
  | range key val source body, tail =>
    openTag .range (writeBindings key val ++ " = ".toList ++ source.write []) ++
      writeList body (closeTag .range ++ tail)
  | block name body, tail =>
    openTag .block name.toList ++ writeList body (closeTag .block ++ tail)
  | inclusion template params, tail =>
    blockTag ("include ".toList ++ writeInclusion template params) ++ tail

def writeList : List Statement → List Char → List Char
  | [], tail => tail
  | s :: rest, tail => s.write (writeList rest tail)

def writeBranch : Branch → List Char → List Char
  | .none, tail => tail
  | .elseIf test body branch, tail =>
    blockTag ("elseif ".toList ++ test.write []) ++ writeList body (writeBranch branch tail)
  | .otherwise body, tail => blockTag "else".toList ++ writeList body tail

end

mutual

theorem write_append (s : Statement) (tail : List Char) : s.write tail = s.write [] ++ tail := by
  match s with
  | text _ | assign _ | inclusion _ _ => simp [write]
  | value expr =>
    simp only [write]
    rw [expr.write_append, expr.write_append (_ ++ [])]
    simp
  | conditional test body branch =>
    simp only [write]
    rw [writeList_append, writeBranch_append, writeList_append body (writeBranch _ _),
      writeBranch_append branch (_ ++ [])]
    simp
  | loop _ _ _ body | range _ _ _ body | block _ body =>
    simp only [write]
    rw [writeList_append, writeList_append body (_ ++ [])]
    simp

theorem writeList_append (body : List Statement) (tail : List Char) :
    writeList body tail = writeList body [] ++ tail := by
  match body with
  | [] => rfl
  | s :: rest =>
    simp only [writeList]
    rw [s.write_append, s.write_append (writeList rest []), writeList_append rest]
    simp

theorem writeBranch_append (branch : Branch) (tail : List Char) :
    writeBranch branch tail = writeBranch branch [] ++ tail := by
  match branch with
  | .none => rfl
  | .elseIf _ body branch =>
    simp only [writeBranch]
    rw [writeList_append, writeBranch_append, writeList_append body (writeBranch branch [])]
    simp
  | .otherwise body =>
    simp only [writeBranch]
    rw [writeList_append]
    simp

end

end Statement

namespace Tree

def write (tree : Tree) : List Char :=
  match tree.extend with
  | none => Statement.writeList tree.statements []
  | some template =>
    blockTag ("extend ".toList ++ Text.Quoted.write template.toList) ++
      Statement.writeList tree.statements []

def toString (tree : Tree) : String := String.ofList tree.write

end Tree

end Stencil
