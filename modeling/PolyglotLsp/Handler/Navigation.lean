import PolyglotLsp.Handler.Projection

/-!
# Hovers, highlights, definitions, references and renames

Each request is projected, forwarded and its answer taken back to the host.
-/

namespace PolyglotLsp.Handler

/-- A hover. Without a place in the host its range is dropped; without a current mapping the whole
hover is. -/
def hover (r : PositionRequest) : Action (Option Hover) := do
  match ← Projection.resolve r.place with
  | none => pure none
  | some p =>
    match ← p.forward .hover r with
    | none => pure none
    | some answer =>
      match answer.value.range with
      | none => pure (some answer.value)
      | some range =>
        match ← p.mapRanges [range] with
        | none => pure none
        | some mapped => pure (some { answer.value with range := mapped.ranges.head?.join })

/-- Highlights; those without a place in the host are dropped. -/
def highlight (r : PositionRequest) : Action (Option (List DocumentHighlight)) := do
  match ← Projection.resolve r.place with
  | none => pure none
  | some p =>
    match ← p.forward .highlights r with
    | none => pure none
    | some answer =>
      if answer.value.isEmpty then pure (some [])
      else
        match ← p.mapRanges (answer.value.map (·.range)) with
        | none => pure none
        | some mapped =>
          pure (some ((answer.value.zip mapped.ranges).filterMap fun (h, r) =>
            r.map fun range => { h with range }))

/-- Ranges to be edited together, in markup only. They stand for each other, so that all of them
must have a place in the host. -/
def linkedEditing (r : PositionRequest) : Action (Option LinkedEditingRanges) := do
  match ← Projection.resolve r.place with
  | none => pure none
  | some p =>
    if p.language ≠ .html then pure none
    else
      match ← p.forward .linkedRanges r with
      | none => pure none
      | some answer =>
        match ← p.mapRanges answer.value.ranges with
        | none => pure none
        | some mapped =>
          pure ((mapped.ranges.mapM id).map fun ranges => { answer.value with ranges })

/-- Edits while typing, in code only; `none` if no edit is left. -/
def onTypeFormatting (r : PositionRequest) (options : FormattingOptions) :
    Action (Option (List TextEdit)) := do
  match ← Projection.resolve r.place with
  | none => pure none
  | some p =>
    if p.language ≠ .csharp then pure none
    else
      match ← p.forward .edits r with
      | none => pure none
      | some answer => do
        let edits ← Mapping.remapEdits p.language p.host.url answer.value (some options) false
          p.expected
        pure (if edits.isEmpty then none else some edits)

/-- A rename, in code only. -/
def rename (r : PositionRequest) : Action (Option WorkspaceEdit) := do
  match ← Projection.resolve r.place with
  | none => pure none
  | some p =>
    if p.language ≠ .csharp then pure none
    else
      match ← p.forward .workspaceEdit r with
      | none => pure none
      | some answer => do
        let edit ← Mapping.remapWorkspaceEdit answer.value
        pure (some edit)

/-- A link as the location of its symbol. -/
def linkLocation (l : LocationLink) : Location := ⟨l.targetUri, l.targetSelectionRange⟩

/-- Takes a definition back to its hosts. The origin of a link lies in the virtual document and is
dropped; an editor that cannot show links gets locations. -/
def remapDefinition : Definition → Action Definition
  | .scalar l => do
    let ls ← Mapping.remapLocations [l]
    pure (.locations ls)
  | .locations ls => do
    let ls ← Mapping.remapLocations ls
    pure (.locations ls)
  | .links ls => do
    let ls ← Mapping.remapLinks (ls.map ({ · with origin := none }))
    let capabilities ← Action.call .capabilities
    pure (if capabilities.definitionLinks then .links ls else .locations (ls.map linkLocation))

/-- Whether a definition leads nowhere. -/
def definitionIsEmpty : Definition → Bool
  | .scalar _ => false
  | .locations ls => ls.isEmpty
  | .links ls => ls.isEmpty

/-- Definitions; `none` if none is left. -/
def definition (r : PositionRequest) : Action (Option Definition) := do
  match ← Projection.resolve r.place with
  | none => pure none
  | some p =>
    match ← p.forward .definition r with
    | none => pure none
    | some answer => do
      let d ← remapDefinition answer.value
      pure (if definitionIsEmpty d then none else some d)

/-- The locations that were streamed; payloads of another shape are ignored. -/
def streamedLocations (payloads : List Json) : List Location :=
  (payloads.filterMap (Shape.decode? .locations)).flatten

/-- Stops listening, if anybody listens, and gives what was streamed. -/
def stopListening : Option (Nat × Token) → Action (List Json)
  | some (id, _) => Action.call (.stopListening id)
  | none => pure []

/-- References: what the servers streamed, then what the first of them answered. -/
def references (r : PositionRequest) : Action (Option (List Location)) := do
  match ← Projection.resolve r.place with
  | none => pure none
  | some p => do
    let listening ← Action.call .listen
    let request :=
      { r.movedTo p.uri p.position with partialResultToken := listening.map Prod.snd }
    let outcome ← Action.call
      (.askFirst .locations r.ask.method p.contentTypes (.ok request.toJson))
    let payloads ← stopListening listening
    let answer ← Action.ofExcept outcome
    let streamed := streamedLocations payloads
    if answer.isNone && streamed.isEmpty then pure none
    else do
      let locations ← Mapping.remapLocations (streamed ++ (answer.map (·.value)).getD [])
      pure (some locations)

end PolyglotLsp.Handler
