import PolyglotLsp.Text.Splice
import PolyglotLsp.VirtualUri

/-!
# Snapshots of documents

A host document has the version and text the editor gave it, and one virtual document per embedded
language. A virtual document counts its own versions from zero and remembers which host version it
was last generated from.
-/

namespace PolyglotLsp

/-- A virtual document at one moment. -/
structure VirtualSnapshot where
  uri : VirtualUri
  version : Int
  hostVersion : Option Int
  text : String
  deriving DecidableEq, Repr

namespace VirtualSnapshot

/-- A virtual document before its first generation. -/
def empty (uri : VirtualUri) : VirtualSnapshot := ⟨uri, 0, none, ""⟩

def url (d : VirtualSnapshot) : Url := d.uri.url

def host (d : VirtualSnapshot) : Url := d.uri.host

def language (d : VirtualSnapshot) : Language := d.uri.language

/-- Whether the document reflects the host up to a version. -/
def isSynchronizedWith (d : VirtualSnapshot) (hostVersion : Int) : Bool :=
  match d.hostVersion with
  | some v => decide (hostVersion ≤ v)
  | none => false

end VirtualSnapshot

/-- A host document at one moment, with its virtual documents in the order of the languages. -/
structure HostSnapshot where
  url : Url
  version : Int
  text : String
  virtuals : List VirtualSnapshot
  deriving DecidableEq, Repr

namespace HostSnapshot

def virtual? (h : HostSnapshot) (language : Language) : Option VirtualSnapshot :=
  h.virtuals.find? fun d => d.language = language

end HostSnapshot

/-- One edit from the editor: the text of a range, or of the whole document. -/
structure ContentChange where
  range : Option Range
  rangeLength : Option Nat
  text : String
  deriving DecidableEq, Repr, Inhabited

/-- A regeneration of one virtual document from a host version. -/
structure Regeneration where
  host : Url
  language : Language
  hostVersion : Int
  changes : List TextChange
  deriving DecidableEq, Repr

end PolyglotLsp
