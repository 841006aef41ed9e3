import PolyglotLsp.Router.Prog

/-!
# Back to the host

Takes ranges, edits, locations and links of virtual documents back to their hosts. An answer of the
mapping service counts only if it was computed for the expected host version and the host is still
open at that version; ranges without a place in the host are dropped, and what lies in ordinary
documents is left as it is.
-/

namespace PolyglotLsp.Mapping

/-- Ranges of a host at a version. -/
structure HostRanges where
  ranges : List (Option Range)
  hostVersion : Int
  deriving DecidableEq, Repr

/-- Whether an answer with this stamp is about the expected version, and the host still has it. -/
def isCurrent (host : Url) (stamp : Option Int) (expected : Int) : Action Bool := do
  let current ← Action.call (.hostVersion host)
  pure (stamp == some expected && current == some expected)

/-- Takes ranges back to the host; `none` if there is no answer that counts. -/
def mapRanges (language : Language) (host : Url) (ranges : List Range) (expected : Int) :
    Action (Option HostRanges) := do
  match ← Action.call (.mapRanges language host ranges) with
  | none => pure none
  | some answer =>
    match ← Action.ofExcept answer with
    | none => pure none
    | some mapped =>
      if ← isCurrent host mapped.hostVersion expected then
        if mapped.ranges.length = ranges.length then pure (some ⟨mapped.ranges, expected⟩)
        else pure none
      else pure none

/-- Takes one range back to the host. -/
def mapRange (language : Language) (host : Url) (range : Range) (expected : Int) :
    Action (Option Range) := do
  match ← mapRanges language host [range] expected with
  | some ⟨some r :: _, _⟩ => pure (some r)
  | _ => pure none

/-- Takes edits back to the host; there are none without an answer that counts. -/
def remapEdits (language : Language) (host : Url) (edits : List TextEdit)
    (options : Option FormattingOptions) (snippet : Bool) (expected : Int) :
    Action (List TextEdit) := do
  if edits.isEmpty then pure []
  else
    match ← Action.call (.remapEdits language host edits options snippet) with
    | none => pure []
    | some answer =>
      match ← Action.ofExcept answer with
      | none => pure []
      | some remapped =>
        if ← isCurrent host remapped.hostVersion expected then pure remapped.edits else pure []

/-- Takes ranges of a virtual document, given by its name, back to its host as it is now. -/
def mapVirtualRanges (url : Url) (ranges : List Range) : Action (Option (Url × HostRanges)) := do
  match ← Action.call (.resolveVirtual url) with
  | none => pure none
  | some (host, language) =>
    match ← Action.call (.hostVersion host) with
    | none => pure none
    | some expected => do
      let mapped ← mapRanges language host ranges expected
      pure (mapped.map fun m => (host, m))

/-- As `mapVirtualRanges`, with the host's URI; a host that has none counts as no answer. -/
def mapVirtual (url : Url) (ranges : List Range) : Action (Option (Uri × HostRanges)) := do
  let mapped ← mapVirtualRanges url ranges
  pure do
    let (host, ranges) ← mapped
    let uri ← host.toUri?
    some (uri, ranges)

/-- The URL of a URI that names a virtual document. -/
def virtualUrl? (uri : Uri) : Option Url :=
  match uri.toUrl? with
  | some url => if VirtualUri.isVirtualUrl url then some url else none
  | none => none

/-- The locations of a mapped group, in order; none of them if there was no answer. -/
def groupLocations (count : Nat) (mapped : Option (Uri × HostRanges)) : List (Option Location) :=
  match mapped with
  | some (uri, ranges) => ranges.ranges.map fun r => r.map fun range => ⟨uri, range⟩
  | none => List.replicate count none

/-- Puts mapped locations in the places of the virtual ones, taking those of each virtual document
in order. -/
def place (mapped : Table Url (List (Option Location))) : List Location → List Location
  | [] => []
  | l :: rest =>
    match virtualUrl? l.uri with
    | none => l :: place mapped rest
    | some url =>
      match mapped.get? url with
      | some (r :: more) => r.toList ++ place (mapped.set url more) rest
      | _ => place mapped rest

/-- Takes locations back to their hosts, all of one virtual document at a time. -/
def remapLocations (locations : List Location) : Action (List Location) := do
  let groups := (locations.filterMap fun l => virtualUrl? l.uri).eraseDups
  let mapped ← groups.mapM fun url => do
    let ranges := (locations.filter fun l => virtualUrl? l.uri = some url).map (·.range)
    let answer ← mapVirtual url ranges
    pure (url, groupLocations ranges.length answer)
  pure (place mapped locations)

/-- Takes the target of a link back to its host. -/
def remapLink (link : LocationLink) : Action (Option LocationLink) := do
  match virtualUrl? link.targetUri with
  | none => pure (some link)
  | some url =>
    match ← mapVirtual url [link.targetRange, link.targetSelectionRange] with
    | some (uri, ⟨[some target, some selection], _⟩) =>
      pure (some ⟨link.origin, uri, target, selection⟩)
    | _ => pure none

def remapLinks (links : List LocationLink) : Action (List LocationLink) := do
  let mapped ← links.mapM remapLink
  pure (mapped.filterMap id)

/-- Edits with their ranges replaced; those without a range are dropped. -/
def moveEdits (edits : List TextEdit) (ranges : List (Option Range)) : List TextEdit :=
  (edits.zip ranges).filterMap fun (e, r) => r.map fun range => { e with range }

/-- Adds edits to those of a document. -/
def addEdits (changes : List (Uri × List TextEdit)) (uri : Uri) (edits : List TextEdit) :
    List (Uri × List TextEdit) :=
  Table.set changes uri ((Table.get? changes uri).getD [] ++ edits)

/-- Takes the edits of each document back to its host, where they join the host's own. -/
def remapChanges (changes : List (Uri × List TextEdit)) : Action (List (Uri × List TextEdit)) :=
  changes.foldlM (fun done (uri, edits) => do
    match virtualUrl? uri with
    | none => pure (addEdits done uri edits)
    | some url =>
      match ← mapVirtual url (edits.map (·.range)) with
      | none => pure done
      | some (host, mapped) => pure (addEdits done host (moveEdits edits mapped.ranges))) []

/-- Takes the edits of one document back to its host, at the host's version. -/
def remapDocumentEdit (e : DocumentEdit) : Action (Option DocumentEdit) := do
  match virtualUrl? e.uri with
  | none => pure (some e)
  | some url =>
    match ← mapVirtual url (e.edits.map (·.edit.range)) with
    | none => pure none
    | some (uri, mapped) =>
      let edits := (e.edits.zip mapped.ranges).filterMap fun (a, r) =>
        r.map fun range => { a with edit := { a.edit with range } }
      pure (some ⟨uri, some mapped.hostVersion, edits⟩)

/-- Whether a change of files is about a virtual document. -/
def touchesVirtual : ResourceOp → Bool
  | .create uri .. | .delete uri .. => VirtualUri.isVirtual uri.text
  | .rename oldUri newUri .. => VirtualUri.isVirtual oldUri.text || VirtualUri.isVirtual newUri.text

def remapDocumentChange (c : DocumentChange) : Action (Option DocumentChange) := do
  match c with
  | .edit e => do
    let e ← remapDocumentEdit e
    pure (e.map .edit)
  | .resource op => pure (if touchesVirtual op then none else some (.resource op))

def remapDocumentChanges : DocumentChanges → Action DocumentChanges
  | .edits es => do
    let es ← es.mapM remapDocumentEdit
    pure (.edits (es.filterMap id))
  | .operations ops => do
    let ops ← ops.mapM remapDocumentChange
    pure (.operations (ops.filterMap id))

/-- Takes all edits of virtual documents back to their hosts. -/
def remapWorkspaceEdit (w : WorkspaceEdit) : Action WorkspaceEdit := do
  let changes ← w.changes.mapM remapChanges
  let documentChanges ← w.documentChanges.mapM remapDocumentChanges
  pure { changes, documentChanges, annotations := w.annotations }

end PolyglotLsp.Mapping
