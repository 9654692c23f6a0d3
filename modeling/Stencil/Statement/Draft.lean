import Stencil.Text.Blank
import Stencil.Statement
import Stencil.Statement.Directive
import Stencil.Token.Stream
/-!
Building a tree. A draft holds the body that is being filled and, for every open tag around it, the
tag and the body it stands in; all bodies and arms are kept with the newest member first until they
are finished.
-/
set_option autoImplicit false

namespace Stencil

structure Arm where
  test : Expression
  body : List Statement
  deriving DecidableEq

/-- An open tag. The test of a conditional is that of the arm being filled; in the last body, which
has none, at least one arm is finished. -/
inductive Opening where
  | conditional (arms : List Arm) (test : Option Expression)
  | loop (start : Option Assignment) (test : Option Expression) (step : Option Assignment)
  | range (key value : Option String) (source : Expression)
  | block (name : String)

def Opening.construct : Opening → Construct
  | conditional _ _ => .conditional
  | loop _ _ _ => .loop
  | range _ _ _ => .range
  | block _ => .block

structure Frame where
  opening : Opening
  outer : List Statement

structure Draft where
  frames : List Frame
  body : List Statement
  template : Option String

def Branch.link : List Arm → Branch → Branch
  | [], branch => branch
  | arm :: earlier, branch => link earlier (.elseIf arm.test arm.body branch)

def Branch.conditional? : Branch → Option Statement
  | .elseIf test body branch => some (.conditional test body branch)
  | .none | .otherwise _ => Option.none

def Opening.finish? (body : List Statement) : Opening → Option Statement
  | conditional arms (some test) => (Branch.link (⟨test, body⟩ :: arms) .none).conditional?
  | conditional arms none => (Branch.link arms (.otherwise body)).conditional?
  | loop start test step => some (.loop start test step body)
  | range key value source => some (.range key value source body)
  | block name => some (.block name body)

namespace Draft

def empty : Draft := ⟨[], [], none⟩

def append (d : Draft) (s : Statement) : Draft := { d with body := s :: d.body }

def appendText (d : Draft) (literal : String) : Draft :=
  match d.body with
  | .text before :: rest => { d with body := .text (before ++ literal) :: rest }
  | body => { d with body := .text literal :: body }

theorem frames_appendText (d : Draft) (literal : String) :
    (d.appendText literal).frames = d.frames := by
  unfold appendText
  split <;> rfl

def openTag (d : Draft) (opening : Opening) : Draft :=
  { d with frames := ⟨opening, d.body⟩ :: d.frames, body := [] }

/-- Ends the arm being filled and begins the next one, which has no test if it is the last. -/
def nextArm (d : Draft) (keyword : Token) (test : Option Expression) : Except ParseError Draft :=
  match d.frames with
  | ⟨.conditional arms (some current), outer⟩ :: frames =>
    .ok { d with
      frames := ⟨.conditional (⟨current, d.body.reverse⟩ :: arms) test, outer⟩ :: frames
      body := [] }
  | _ => .error (ParseError.unexpected keyword)

def closeTag (d : Draft) (keyword : Token) (construct : Construct) : Except ParseError Draft :=
  match d.frames with
  | [] => .error (ParseError.unexpected keyword)
  | frame :: frames =>
    if frame.opening.construct ≠ construct then .error (ParseError.unexpected keyword)
    else match frame.opening.finish? d.body.reverse with
      | none => .error (ParseError.unexpected keyword)
      | some s => .ok { d with frames := frames, body := s :: frame.outer }

/-- A template may name the one it extends once, outside all tags and after nothing but blanks. -/
def mayExtend (d : Draft) : Bool :=
  d.template.isNone && d.frames.isEmpty && d.body.all fun
    | .text literal => literal.toList.all Text.isBlank
    | _ => false

def accept (d : Draft) (keyword : Token) : Directive → Except ParseError Draft
  | .openIf test => .ok (d.openTag (.conditional [] (some test)))
  | .elseIf test => d.nextArm keyword (some test)
  | .otherwise => d.nextArm keyword none
  | .openLoop start test step => .ok (d.openTag (.loop start test step))
  | .openRange key value source => .ok (d.openTag (.range key value source))
  | .openBlock name => .ok (d.openTag (.block name))
  | .close construct => d.closeTag keyword construct
  | .assign a => .ok (d.append (.assign a))
  | .inclusion template params => .ok (d.append (.inclusion template params))
  | .extend template => .ok { d with template := some template }

/-- Adds one segment. Whether a template may be extended is settled before its name is read. -/
def add (d : Draft) : Segment → Except ParseError Draft
  | .text literal => .ok (d.appendText literal)
  | .value inside close => do return d.append (.value (← Directive.expression close inside))
  | .block keyword args close =>
    if keyword.value = "extend" && !d.mayExtend then .error (ParseError.unexpected keyword)
    else do d.accept keyword (← Directive.parse keyword args close)

def finish (d : Draft) (line : Nat) : Except ParseError Tree :=
  match d.frames with
  | [] => .ok ⟨d.body.reverse, d.template⟩
  | frame :: _ => .error ⟨.endOfTemplate (some frame.opening.construct), line⟩

end Draft

/-- Builds a tree from segments; an error that ends them counts once all of them are added. -/
def Tree.ofSegments (line : Nat) (segments : List Segment × Option ParseError) :
    Except ParseError Tree := do
  let d ← segments.1.foldlM Draft.add Draft.empty
  match segments.2 with
  | some e => throw e
  | none => d.finish line

/-- The tree that the unread tokens of a stream spell. -/
def Tree.parse (s : TokenStream) : Except ParseError Tree :=
  Tree.ofSegments s.endLine (Segment.split s.endLine s.unread)

end Stencil
