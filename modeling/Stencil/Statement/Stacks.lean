import Stencil.Statement.Draft
/-!
Building a tree on two stacks: the bodies that are being filled, and the open tags that own them,
both with the innermost first. The first body has no tag, so there is meant to be one body more than
tags, but nothing here makes sure of it: a statement without a body to go to is dropped, and a body
that is not there is taken to be the one that is given for it.
-/
set_option autoImplicit false

namespace Stencil

deriving instance DecidableEq for Opening

structure Stacks where
  bodies : List (List Statement)
  tags : List Opening
  template : Option String
  deriving DecidableEq

namespace Stacks

def start : Stacks := ⟨[[]], [], none⟩

def append (st : Stacks) (s : Statement) : Stacks :=
  match st.bodies with
  | [] => st
  | body :: outer => { st with bodies := (s :: body) :: outer }

def appendText (st : Stacks) (literal : String) : Stacks :=
  match st.bodies with
  | [] => st
  | (.text before :: rest) :: outer =>
    { st with bodies := (.text (before ++ literal) :: rest) :: outer }
  | body :: outer => { st with bodies := (.text literal :: body) :: outer }

def openTag (st : Stacks) (opening : Opening) : Stacks :=
  { st with
    bodies := [] :: st.bodies
    tags := opening :: st.tags }

/-- Ends the arm being filled and begins the next one: only the stack of bodies is popped. -/
def nextArm (missing : List Statement) (st : Stacks) (keyword : Token) (test : Option Expression) :
    Except ParseError Stacks :=
  match st.tags with
  | .conditional arms (some current) :: tags =>
    .ok { st with
      bodies := [] :: st.bodies.tail
      tags := .conditional (⟨current, (st.bodies.headD missing).reverse⟩ :: arms) test :: tags }
  | _ => .error (ParseError.unexpected keyword)

/-- Closes the innermost open tag: both stacks are popped. -/
def closeTag (st : Stacks) (keyword : Token) (construct : Construct) : Except ParseError Stacks :=
  match st.tags with
  | [] => .error (ParseError.unexpected keyword)
  | opening :: tags =>
    if opening.construct ≠ construct then .error (ParseError.unexpected keyword)
    else match st.bodies with
      | [] => .error (ParseError.unexpected keyword)
      | body :: outer =>
        match opening.finish? body.reverse with
        | none => .error (ParseError.unexpected keyword)
        | some s => .ok ({ st with bodies := outer, tags := tags }.append s)

def mayExtend (st : Stacks) : Bool :=
  st.template.isNone && st.tags.isEmpty && (st.bodies.getLast?.getD []).all fun
    | .text literal => literal.toList.all Text.isBlank
    | _ => false

def accept (missing : List Statement) (st : Stacks) (keyword : Token) :
    Directive → Except ParseError Stacks
  | .openIf test => .ok (st.openTag (.conditional [] (some test)))
  | .elseIf test => st.nextArm missing keyword (some test)
  | .otherwise => st.nextArm missing keyword none
  | .openLoop start test step => .ok (st.openTag (.loop start test step))
  | .openRange key value source => .ok (st.openTag (.range key value source))
  | .openBlock name => .ok (st.openTag (.block name))
  | .close construct => st.closeTag keyword construct
  | .assign a => .ok (st.append (.assign a))
  | .inclusion template params => .ok (st.append (.inclusion template params))
  | .extend template => .ok { st with template := some template }

def add (missing : List Statement) (st : Stacks) : Segment → Except ParseError Stacks
  | .text literal => .ok (st.appendText literal)
  | .value inside close => do return st.append (.value (← Directive.expression close inside))
  | .block keyword args close =>
    if keyword.value = "extend" && !st.mayExtend then .error (ParseError.unexpected keyword)
    else do st.accept missing keyword (← Directive.parse keyword args close)

def finish (missing : List Statement) (st : Stacks) (line : Nat) : Except ParseError Tree :=
  match st.tags with
  | [] => .ok ⟨(st.bodies.headD missing).reverse, st.template⟩
  | opening :: _ => .error ⟨.endOfTemplate (some opening.construct), line⟩

def parse (missing : List Statement) (s : TokenStream) : Except ParseError Tree := do
  let segments := Segment.split s.endLine s.unread
  let st ← segments.1.foldlM (add missing) start
  match segments.2 with
  | some e => throw e
  | none => st.finish missing s.endLine

end Stacks

end Stencil
