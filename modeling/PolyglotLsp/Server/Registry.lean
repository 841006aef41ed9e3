import PolyglotLsp.Document.Table

/-!
# Backing servers

Servers are known by name and serve content types. A request for content types goes to every server
that serves one of them, in the order of their names.
-/

namespace PolyglotLsp

/-- A registered server; the endpoint's number says which connection it is. -/
structure Server where
  name : String
  contentTypes : List String
  endpoint : Nat
  deriving DecidableEq, Repr, Inhabited

namespace Server

def serves (s : Server) (contentType : String) : Bool := s.contentTypes.contains contentType

end Server

/-- All registered servers, one per name. -/
structure Registry where
  servers : Table String Server
  deriving Repr, Inhabited

namespace Registry

def empty : Registry := ⟨[]⟩

/-- Registers a server; one of the same name is replaced. -/
def register (r : Registry) (s : Server) : Registry := ⟨r.servers.set s.name s⟩

def unregister (r : Registry) (name : String) : Registry × Bool :=
  (⟨r.servers.erase name⟩, (r.servers.get? name).isSome)

def get? (r : Registry) (name : String) : Option Server := r.servers.get? name

/-- The servers for any of these content types, by name. -/
def serversFor (r : Registry) (contentTypes : List String) : List Server :=
  ((r.servers.map (·.2)).filter fun s => contentTypes.any s.serves).mergeSort
    fun a b => decide (a.name ≤ b.name)

end Registry

end PolyglotLsp
