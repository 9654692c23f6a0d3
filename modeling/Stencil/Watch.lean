import Stencil.Cache
/-!
A watch over the files of a cache. A ticker takes down which templates are stale and offers them one
by one to a bounded queue; a worker takes identities from the queue, reloads them and then releases
them. An identity is marked from before it is queued until it is released, and one that is marked is
not queued again. Marks and queue are changed one after the other, so that ticker and worker may
come in between each other's changes.
-/
set_option autoImplicit false

namespace Stencil

/-- What the ticker has before it: the rest of its last scan; an identity that it has marked and is
about to queue; or one whose mark it takes back, since the queue was full. -/
inductive Ticker where
  | scanning (rest : List String)
  | offering (identity : String) (rest : List String)
  | withdrawing (identity : String)
  deriving DecidableEq, Repr

inductive Worker where
  | free
  | reloading (identity : String)
  | releasing (identity : String)
  deriving DecidableEq, Repr

structure Watch where
  capacity : Nat
  ticker : Ticker
  queue : List String
  marked : List String
  worker : Worker
  deriving DecidableEq, Repr

namespace Watch

def start (queueCapacity : Nat) : Watch := ⟨max queueCapacity 1, .scanning [], [], [], .free⟩

def scan (w : Watch) (found : List String) : Option Watch :=
  match w.ticker with
  | .scanning [] => some { w with ticker := .scanning found }
  | _ => none

/-- Marks the next identity of the scan, or passes over it if it is marked already. -/
def mark (w : Watch) : Option Watch :=
  match w.ticker with
  | .scanning (identity :: rest) =>
    if w.marked.contains identity then some { w with ticker := .scanning rest }
    else some { w with ticker := .offering identity rest, marked := identity :: w.marked }
  | _ => none

def send (w : Watch) : Option Watch :=
  match w.ticker with
  | .offering identity rest =>
    if w.queue.length < w.capacity then
      some { w with ticker := .scanning rest, queue := w.queue ++ [identity] }
    else some { w with ticker := .withdrawing identity }
  | _ => none

def unmark (w : Watch) (identity : String) : Watch :=
  { w with marked := w.marked.filter (· != identity) }

/-- Takes a mark back; the rest of the scan is left to the next one. -/
def withdraw (w : Watch) : Option Watch :=
  match w.ticker with
  | .withdrawing identity => some { w.unmark identity with ticker := .scanning [] }
  | _ => none

def receive (w : Watch) : Option Watch :=
  match w.worker, w.queue with
  | .free, identity :: rest => some { w with queue := rest, worker := .reloading identity }
  | _, _ => none

def reload (w : Watch) : Option (String × Watch) :=
  match w.worker with
  | .reloading identity => some (identity, { w with worker := .releasing identity })
  | _ => none

def release (w : Watch) : Option Watch :=
  match w.worker with
  | .releasing identity => some { w.unmark identity with worker := .free }
  | _ => none

end Watch

/-- The cache once a watch has nothing left to do: every stale template has been reloaded once, and
what could not be compiled is kept as it was. -/
def Cache.settle (c : Cache) (fs : FileSystem) : Cache :=
  (c.stale fs).foldl (fun c identity => (c.reload fs identity).2) c

end Stencil
