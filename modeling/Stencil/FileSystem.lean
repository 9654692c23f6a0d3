import Stencil.Source
/-!
The file system as a cache sees it: what a host answers about paths and patterns. Whatever a path
leads to, from the root or from a working directory, is known to the host alone.
-/
set_option autoImplicit false

namespace Stencil

structure Stamp where
  nanoseconds : Int
  deriving DecidableEq, Repr

structure FileError where
  message : String
  deriving DecidableEq, Repr

/-- A pattern finds paths one after the other, and may fail at any of them. Whatever can be read has
a time. -/
structure FileSystem where
  stamp : Path → Except FileError Stamp
  read : Path → Except FileError String
  isFile : Path → Bool
  find : String → Except FileError (List (Except FileError Path))
  timed : ∀ path text, read path = .ok text → ∃ s, stamp path = .ok s

inductive Node where
  | file (text : String) (modified : Stamp)
  | directory (modified : Stamp)
  deriving DecidableEq, Repr

def Node.modified : Node → Stamp
  | file _ modified | directory modified => modified

namespace FileSystem

/-- A file system in which a few paths lead somewhere and a few patterns find something. -/
def ofNodes (nodes : List (Path × Node)) (found : List (String × List Path)) : FileSystem where
  stamp path :=
    match nodes.lookup path with
    | none => .error ⟨"No such file or directory (os error 2)"⟩
    | some node => .ok node.modified
  read path :=
    match nodes.lookup path with
    | none => .error ⟨"No such file or directory (os error 2)"⟩
    | some (.directory _) => .error ⟨"Is a directory (os error 21)"⟩
    | some (.file text _) => .ok text
  isFile path :=
    match nodes.lookup path with
    | some (.file _ _) => true
    | _ => false
  find pattern := .ok (((found.lookup pattern).getD []).map .ok)
  timed path text h := by
    cases hn : nodes.lookup path with
    | none => simp [hn] at h
    | some node => exact ⟨node.modified, rfl⟩

def empty : FileSystem := ofNodes [] []

end FileSystem

end Stencil
