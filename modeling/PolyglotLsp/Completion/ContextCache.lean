import PolyglotLsp.Language
import PolyglotLsp.Url.Basic

/-!
# Where completion lists came from

Resolving a completion item has to reach the server that offered it. Each list handed to the editor
is remembered under a fresh number, and only the most recent lists are kept: the cache is a window
at the end of the log of insertions.
-/

namespace PolyglotLsp

/-- The origin of a completion list. -/
structure CompletionContext where
  host : Url
  projected : Url
  language : Language
  server : String
  deriving DecidableEq, Repr

/-- The origins of the latest lists, oldest first. -/
structure ContextCache where
  capacity : Nat
  nextId : Nat
  entries : List (Nat × CompletionContext)
  deriving Repr

namespace ContextCache

/-- How many lists are remembered unless the settings say otherwise. -/
def defaultCapacity : Nat := 10

/-- An empty cache; it always has room for one list. -/
def new (capacity : Nat) : ContextCache := ⟨max capacity 1, 1, []⟩

/-- The last `n` entries. -/
def newest {α : Type} (n : Nat) (entries : List α) : List α := entries.drop (entries.length - n)

def setCapacity (c : ContextCache) (capacity : Nat) : ContextCache :=
  { c with capacity := max capacity 1, entries := newest (max capacity 1) c.entries }

/-- Remembers an origin under a fresh number; the oldest entry makes room if need be. -/
def insert (c : ContextCache) (context : CompletionContext) : ContextCache × Nat :=
  ({ c with
      nextId := c.nextId + 1
      entries := newest (c.capacity - 1) c.entries ++ [(c.nextId, context)] },
    c.nextId)

def get? (c : ContextCache) (id : Nat) : Option CompletionContext :=
  (c.entries.find? (·.1 = id)).map (·.2)

def size (c : ContextCache) : Nat := c.entries.length

end ContextCache

end PolyglotLsp
