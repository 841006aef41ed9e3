import PolyglotLsp.Router.Mapping

/-!
# From a host position to a virtual one

Every request about a position begins here: the host must be open, the position must belong to an
embedded language, and that language's virtual document must reflect the host as the request saw it.
-/

namespace PolyglotLsp

/-- A host position and where it lies in a virtual document. -/
structure Projection where
  host : HostSnapshot
  hostPosition : Position
  language : Language
  url : Url
  uri : Uri
  position : Position
  contentTypes : List String

namespace Projection

/-- The host version that every mapped result must be about. -/
def expected (p : Projection) : Int := p.host.version

/-- The host document that a URI names, if it is open. -/
def hostOf (uri : Uri) : Action (Option HostSnapshot) := do
  match uri.toUrl? with
  | none => pure none
  | some url => Action.call (.host url)

/-- The URI under which servers know a virtual document. -/
def serverUri (url : Url) : Action Uri :=
  match url.toUri? with
  | some uri => pure uri
  | none => throw (.internal (url.text ++ " is not a valid LSP URI"))

/-- The virtual document to ask about, once it reflects the host. A classification that does not say
which host version it is about is taken as it is. -/
def synchronized (host : HostSnapshot) (c : Classification) : Action (Option Url) := do
  if !c.language.isEmbedded then pure none
  else
    match host.virtual? c.language with
    | none => pure none
    | some document =>
      match c.hostVersion with
      | none => pure (some document.url)
      | some _ => do
        let document ← Action.call (.synchronize host.version document)
        pure (document.map (·.url))

/-- Projects a position of the document that a URI names. -/
def resolve (place : Place) : Action (Option Projection) := do
  match ← hostOf place.uri with
  | none => pure none
  | some host =>
    match ← Action.call (.classify host.url place.position) with
    | none => pure none
    | some answer =>
      match ← Action.ofExcept answer with
      | none => pure none
      | some c =>
        match ← synchronized host c with
        | none => pure none
        | some url => do
          let contentTypes ← Action.call (.contentTypes c.language)
          let uri ← serverUri url
          pure (some {
            host, hostPosition := place.position, language := c.language, url, uri
            position := c.position, contentTypes })

/-- Forwards a request to the servers of the projection's language. -/
def forward (p : Projection) (shape : Shape) (r : PositionRequest) :
    Action (Option (Tagged shape.Val)) := do
  let request := r.movedTo p.uri p.position
  Action.ofExcept (← Action.call (.askFirst shape r.ask.method p.contentTypes (.ok request.toJson)))

/-- Takes ranges of the virtual document back to the host. -/
def mapRanges (p : Projection) (ranges : List Range) : Action (Option Mapping.HostRanges) :=
  Mapping.mapRanges p.language p.host.url ranges p.expected

end Projection

end PolyglotLsp
