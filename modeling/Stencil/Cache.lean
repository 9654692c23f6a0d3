import Stencil.Diagnostic
import Stencil.FileSystem
import Stencil.Settings
import Stencil.Table
/-!
A cache of compiled templates, each under its identity. A template that came from a file is reloaded
when the file has changed; a reload that fails keeps the template and remembers the time of the
file, so that it is tried again only after another change.
-/
set_option autoImplicit false

namespace Stencil

inductive Origin where
  | inline
  | embedded
  | file (path : Path)
  deriving DecidableEq, Repr

/-- A compiled template; the serial tells apart the results of different compilations. -/
structure Template where
  source : Source
  tree : Tree
  origin : Origin
  modified : Option Stamp
  serial : Nat
  deriving DecidableEq

inductive LoadError where
  | badPattern (pattern : String) (error : FileError)
  | unreadable (pattern : String) (error : FileError)
  | assets (failed : List String) (total : Nat)
  deriving DecidableEq, Repr

def LoadError.message : LoadError → String
  | badPattern pattern error => "invalid glob pattern " ++ pattern ++ ": " ++ error.message
  | unreadable pattern error => "cannot read path " ++ pattern ++ ": " ++ error.message
  | assets failed total =>
    toString failed.length ++ " of " ++ toString total ++ " embedded templates failed: " ++
      ", ".intercalate failed

inductive CacheError where
  | invalid (diagnostic : Diagnostic)
  | load (error : LoadError)
  | notFound (identity : String)
  | duplicate (identity : String)
  | file (error : FileError)
  deriving DecidableEq, Repr

def CacheError.message : CacheError → String
  | invalid diagnostic => "Template Syntax Error: " ++ diagnostic.headline
  | load error => "Template Load Error: " ++ error.message
  | notFound identity => "Template Not Found: " ++ identity
  | duplicate identity => "Duplicate Template: " ++ identity
  | file error => "I/O Error: " ++ error.message

structure Cache where
  templates : Table String Template
  failures : Table String Stamp
  settings : Settings
  compiled : Nat

namespace Cache

def empty (settings : Settings) : Cache := ⟨.empty, .empty, settings, 0⟩

def get? (c : Cache) (identity : String) : Option Template := c.templates.find? identity

def contains (c : Cache) (identity : String) : Bool := c.templates.contains identity

def size (c : Cache) : Nat := c.templates.size

def isEmpty (c : Cache) : Bool := c.size == 0

def identities (c : Cache) : List String := c.templates.keys

def remove (c : Cache) (identity : String) : Cache :=
  { c with templates := c.templates.erase identity, failures := c.failures.erase identity }

def clear (c : Cache) : Cache := { c with templates := .empty, failures := .empty }

def put (c : Cache) (identity : String) (t : Template) : Cache :=
  { c with templates := c.templates.insert identity t, compiled := c.compiled + 1 }

def add (c : Cache) (source : Source) (origin : Origin) (modified : Option Stamp) :
    Except CacheError Template × Cache :=
  match source.compile c.settings.contextRadius with
  | .error d => (.error (.invalid d), c)
  | .ok tree =>
    let t : Template := ⟨source, tree, origin, modified, c.compiled⟩
    (.ok t, c.put source.identity t)

/-- The template of a text, known by the digest of the text. -/
def parseText (c : Cache) (text : String) : Except CacheError Template × Cache :=
  let source := Source.ofString text
  match c.get? source.identity with
  | some t => (.ok t, c)
  | none => c.add source .inline none

/-- The source of a file and the time of the file; the time is looked up first. -/
def openFile (fs : FileSystem) (path : Path) : Except FileError (Source × Stamp) :=
  match fs.stamp path with
  | .error e => .error e
  | .ok stamp =>
    match fs.read path with
    | .error e => .error e
    | .ok text => .ok (Source.ofFile path text, stamp)

/-- The template of a file, known by what its path is shown as. -/
def parseFile (c : Cache) (fs : FileSystem) (path : Path) : Except CacheError Template × Cache :=
  match c.get? path.display with
  | some t => (.ok t, c)
  | none =>
    match openFile fs path with
    | .error e => (.error (.file e), c)
    | .ok (source, stamp) => c.add source (.file path) (some stamp)

def register (c : Cache) (identity text : String) : Except CacheError Template × Cache :=
  if c.contains identity then (.error (.duplicate identity), c)
  else c.add (Source.named identity text) .embedded none

/-- Compiles the files among the paths that a pattern finds, one after the other, and counts them.
The first path that fails ends it. -/
def parseFiles (c : Cache) (fs : FileSystem) (pattern : String) (count : Nat) :
    List (Except FileError Path) → Except CacheError Nat × Cache
  | [] => (.ok count, c)
  | .error e :: _ => (.error (.load (.unreadable pattern e)), c)
  | .ok path :: rest =>
    if fs.isFile path then
      match c.parseFile fs path with
      | (.error e, c) => (.error e, c)
      | (.ok _, c) => parseFiles c fs pattern (count + 1) rest
    else parseFiles c fs pattern count rest

def load (c : Cache) (fs : FileSystem) (pattern : String) : Except CacheError Nat × Cache :=
  match fs.find pattern with
  | .error e => (.error (.load (.badPattern pattern e)), c)
  | .ok entries => c.parseFiles fs pattern 0 entries

def registerAll (c : Cache) : List (String × String) → List String × Cache
  | [] => ([], c)
  | (identity, text) :: rest =>
    match c.register identity text with
    | (.error _, c) =>
      let more := registerAll c rest
      (identity :: more.1, more.2)
    | (.ok _, c) => registerAll c rest

def loadAssets (c : Cache) (assets : List (String × String)) : Except CacheError Nat × Cache :=
  match c.registerAll assets with
  | ([], c) => (.ok assets.length, c)
  | (failed, c) => (.error (.load (.assets failed assets.length)), c)

def failedAt (c : Cache) (identity : String) (stamp : Stamp) : Bool :=
  c.failures.find? identity == some stamp

def isStale (c : Cache) (fs : FileSystem) (identity : String) (t : Template) : Bool :=
  match t.origin with
  | .inline | .embedded => false
  | .file path =>
    match fs.stamp path with
    | .error _ => false
    | .ok stamp => t.modified != some stamp && !c.failedAt identity stamp

def stale (c : Cache) (fs : FileSystem) : List String :=
  (c.templates.entries.filter fun (identity, t) => c.isStale fs identity t).map Prod.fst

def recompile (c : Cache) (fs : FileSystem) (path : Path) : Except CacheError (Source × Tree) :=
  match fs.read path with
  | .error e => .error (.file e)
  | .ok text =>
    let source := Source.ofFile path text
    match source.compile c.settings.contextRadius with
    | .error d => .error (.invalid d)
    | .ok tree => .ok (source, tree)

/-- Compiles the template of an identity again if its file has changed, and tells whether it did. -/
def reload (c : Cache) (fs : FileSystem) (identity : String) : Except CacheError Bool × Cache :=
  match c.get? identity with
  | none => (.error (.notFound identity), c)
  | some t =>
    match t.origin with
    | .inline | .embedded => (.ok false, c)
    | .file path =>
      match fs.stamp path with
      | .error e => (.error (.file e), c)
      | .ok stamp =>
        if t.modified == some stamp || c.failedAt identity stamp then (.ok false, c)
        else match c.recompile fs path with
          | .error e => (.error e, { c with failures := c.failures.insert identity stamp })
          | .ok (source, tree) =>
            let fresh : Template := ⟨source, tree, t.origin, some stamp, c.compiled⟩
            let c := c.put identity fresh
            (.ok true, { c with failures := c.failures.erase identity })

end Cache

end Stencil
