import Stencil.Text.Digest
import Stencil.Text.Line
set_option autoImplicit false

namespace Stencil

/-- A path as the host takes it, which need not be text, and the text that it is shown as. Different
paths may be shown alike. -/
structure Path where
  bytes : List UInt8
  display : String
  deriving DecidableEq, Repr

def Path.ofString (s : String) : Path := ⟨s.toUTF8.data.toList, s⟩

structure Source where
  text : String
  identity : String
  path : Option Path
  deriving DecidableEq, Repr

namespace Source

/-- Texts without a name of their own are known by their digest. -/
def inlineIdentity (text : String) : String :=
  "inline:" ++ String.ofList (Text.hexWord (Text.digest text))

def ofString (text : String) : Source := ⟨text, inlineIdentity text, none⟩

def named (identity text : String) : Source := ⟨text, identity, none⟩

def ofFile (path : Path) (text : String) : Source := ⟨text, path.display, some path⟩

structure ContextLine where
  number : Nat
  text : String
  flagged : Bool
  deriving DecidableEq, Repr

/-- The lines of a source around a given one, at most `radius` of them on either side. -/
def context (s : Source) (line radius : Nat) : List ContextLine :=
  let numbered := (Text.lines (Text.normalize s.text.toList)).zipIdx 1
  let window := numbered.filter fun (_, number) => line - radius ≤ number && number ≤ line + radius
  window.map fun (text, number) => ⟨number, String.ofList text, number == line⟩

end Source

end Stencil
