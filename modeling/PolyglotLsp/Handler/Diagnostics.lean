import PolyglotLsp.Handler.Projection

/-!
# Diagnostics

The diagnostics of a host are those of its virtual documents, one after the other: each is waited
for, all servers of its content types are asked, and what they report is taken back to the host.
-/

namespace PolyglotLsp.Handler

/-- Takes the places that a diagnostic points to back to their hosts, each by itself. -/
def remapRelated (related : List RelatedInformation) : Action (List RelatedInformation) := do
  let mapped ← related.mapM fun r => do
    let locations ← Mapping.remapLocations [r.location]
    pure (locations.head?.map fun location => { r with location })
  pure (mapped.filterMap id)

/-- A diagnostic at its place in the host; dropped if it has none. -/
def placeDiagnostic (d : Diagnostic) (range : Option Range) : Action (Option Diagnostic) := do
  match range with
  | none => pure none
  | some range => do
    let related ← d.related.mapM remapRelated
    pure (some { d with range, related })

/-- What servers report as a whole. -/
def reported (reports : List (Tagged DiagnosticReport)) : List Diagnostic :=
  reports.flatMap fun r =>
    match r.value with
    | .full items => items
    | .unchanged => []

/-- The diagnostics of one virtual document in its host. -/
def virtualDiagnostics (host : HostSnapshot) (r : DiagnosticRequest) (document : VirtualSnapshot) :
    Action (List Diagnostic) := do
  match ← Action.call (.synchronize host.version document) with
  | none => pure []
  | some synchronized => do
    let uri ← Projection.serverUri synchronized.url
    let request := { r with uri, previousResultId := none }
    let contentTypes ← Action.call (.contentTypes document.language)
    let found ← contentTypes.mapM fun contentType => do
      let reports ← Action.ofExcept (← Action.call
        (.askAll .diagnosticReport "textDocument/diagnostic" contentType (.ok request.toJson)))
      pure (reported reports)
    let diagnostics := found.flatten
    if diagnostics.isEmpty then pure []
    else
      match ← Mapping.mapRanges document.language host.url (diagnostics.map (·.range))
          host.version with
      | none => pure []
      | some mapped => do
        let placed ← (diagnostics.zip mapped.ranges).mapM fun (d, range) => placeDiagnostic d range
        pure (placed.filterMap id)

/-- The diagnostics of a host document; none if it is not open. -/
def diagnostics (r : DiagnosticRequest) : Action (List Diagnostic) := do
  match ← Projection.hostOf r.uri with
  | none => pure []
  | some host => do
    let found ← host.virtuals.mapM (virtualDiagnostics host r)
    pure found.flatten

end PolyglotLsp.Handler
