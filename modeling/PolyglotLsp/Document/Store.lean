import PolyglotLsp.Document.Snapshot
import PolyglotLsp.Document.Table

/-!
# The document store

All open host documents with their virtual documents, and the reverse index from the names of
virtual documents to their hosts. Every opening of a host has a number of its own; the virtual
documents of an opening stay readable by that number after it is closed, which is how a wait that
subscribed to one opening never sees another.
-/

namespace PolyglotLsp

/-- One opening of a host document. -/
structure Opening where
  number : Nat
  version : Int
  text : String
  virtuals : List VirtualSnapshot
  deriving DecidableEq, Repr

namespace Opening

def snapshot (o : Opening) (url : Url) : HostSnapshot := ⟨url, o.version, o.text, o.virtuals⟩

def virtual? (o : Opening) (language : Language) : Option VirtualSnapshot :=
  o.virtuals.find? fun d => d.language = language

/-- Replaces the virtual document of a language. -/
def setVirtual (o : Opening) (d : VirtualSnapshot) : Opening :=
  { o with virtuals := o.virtuals.map fun e => if e.language = d.language then d else e }

end Opening

/-- What a subscriber sees of a virtual document: its latest text, and whether more can follow. -/
structure Publication where
  latest : VirtualSnapshot
  live : Bool
  deriving DecidableEq, Repr

/-- Open documents, the reverse index, closed openings and the number of the next opening. -/
structure Store where
  documents : Table Url Opening
  index : Table Url (Url × Language)
  closed : List Opening
  nextNumber : Nat
  deriving Repr

namespace Store

def empty : Store := ⟨[], [], [], 0⟩

def size (s : Store) : Nat := s.documents.length

def get? (s : Store) (url : Url) : Option HostSnapshot :=
  (s.documents.get? url).map (·.snapshot url)

def hostVersion? (s : Store) (url : Url) : Option Int :=
  (s.documents.get? url).map (·.version)

def virtual? (s : Store) (url : Url) (language : Language) : Option VirtualSnapshot := do
  let o ← s.documents.get? url
  o.virtual? language

/-- The host and language of an open virtual document. -/
def resolve? (s : Store) (virtualUrl : Url) : Option (Url × Language) :=
  s.index.get? virtualUrl

/-- The number of the opening that a subscriber of this virtual document follows from now on. -/
def subscribe? (s : Store) (url : Url) (language : Language) : Option Nat := do
  let o ← s.documents.get? url
  let _ ← o.virtual? language
  some o.number

/-- What subscribers of an opening's virtual document see. -/
def publication? (s : Store) (number : Nat) (language : Language) : Option Publication :=
  match (s.documents.map (·.2)).find? (·.number = number) with
  | some o => (o.virtual? language).map (⟨·, true⟩)
  | none => do
    let o ← s.closed.find? (·.number = number)
    (o.virtual? language).map (⟨·, false⟩)

/-- Closes a host document and drops its virtual documents' names from the index. -/
def close (s : Store) (url : Url) : Store :=
  match s.documents.get? url with
  | none => s
  | some o =>
    { s with
      documents := s.documents.erase url
      index := o.virtuals.foldl (fun index d => index.erase d.url) s.index
      closed := o :: s.closed }

/-- The names of a host's virtual documents. -/
def virtualUris (url : Url) : List VirtualUri :=
  Language.embedded.filterMap (VirtualUri.of? url)

/-- Opens a host document; one that is open already is closed first. -/
def openDocument (s : Store) (url : Url) (version : Int) (text : String) : Store :=
  let s := s.close url
  let uris := virtualUris url
  let opening : Opening := ⟨s.nextNumber, version, text, uris.map .empty⟩
  { s with
    documents := s.documents.set url opening
    index := uris.foldl (fun index v => index.set v.url (url, v.language)) s.index
    nextNumber := s.nextNumber + 1 }

/-- How a range is written in a failure. -/
def rangeText (r : Range) : String :=
  let position (p : Position) : String :=
    "Position \x7b line: " ++ toString p.line ++ ", character: " ++ toString p.character ++ " \x7d"
  "Range \x7b start: " ++ position r.start ++ ", end: " ++ position r.stop ++ " \x7d"

/-- Applies one edit of the editor to a text. -/
def applyChange (url : Url) (text : String) (change : ContentChange) : Except RouterError String :=
  match change.range with
  | none => .ok change.text
  | some r =>
    let cs := text.toList
    let edited := do
      let (start, stop) ← Text.offsetsOf cs r
      Text.replace? cs start stop change.text.toList
    match edited with
    | some next => .ok (String.ofList next)
    | none => .error (.invalidEdit ("range " ++ rangeText r ++ " is outside of " ++ url.text))

/-- Applies the editor's edits one after the other; nothing changes if any of them fails. -/
def applyChanges (s : Store) (url : Url) (version : Int) (changes : List ContentChange) :
    Except RouterError (Store × HostSnapshot) := do
  match s.documents.get? url with
  | none => .error (.documentNotFound url.text)
  | some o =>
    if version ≤ o.version then
      .error (.invalidEdit ("version " ++ toString version ++ " is not newer than " ++
        toString o.version ++ " for " ++ url.text))
    else
      let text ← changes.foldlM (applyChange url) o.text
      let next := { o with version, text }
      .ok ({ s with documents := s.documents.set url next }, next.snapshot url)

/-- Takes in a regeneration. One from an older host version than the document reflects is ignored;
`none` says so. -/
def regenerate (s : Store) (r : Regeneration) :
    Except RouterError (Store × Option VirtualSnapshot) :=
  match s.documents.get? r.host with
  | none => .error (.documentNotFound r.host.text)
  | some o =>
    match o.virtual? r.language with
    | none => .error (.documentNotFound (r.host.text ++ " (" ++ r.language.id ++ ")"))
    | some d =>
      if d.hostVersion.any (r.hostVersion < ·) then .ok (s, none)
      else do
        let text ← TextChange.splice d.text r.changes
        let next : VirtualSnapshot :=
          { d with version := d.version + 1, hostVersion := some r.hostVersion, text }
        .ok ({ s with documents := s.documents.set r.host (o.setVirtual next) }, some next)

end Store

end PolyglotLsp
