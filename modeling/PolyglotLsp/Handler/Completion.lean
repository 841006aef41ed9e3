import PolyglotLsp.Handler.Projection

/-!
# Completion

A completion list comes from the first server that answers. The edits of its items are taken back to
the host, and each item is tagged with the number under which the list's origin is remembered, so
that it can be resolved by the server it came from. In markup, the names of tag helpers are added.
-/

namespace PolyglotLsp.Handler

/-- The member of an item's data that holds the number of its list. -/
def listKey : String := "_razor_resultId"

/-- The member of an item's data that holds the server's own data. -/
def serverDataKey : String := "original"

/-- Tags an item with the number of its list. -/
def tag (id : Nat) (item : CompletionItem) : CompletionItem :=
  { item with
    data := some (.obj [(listKey, .nat id), (serverDataKey, item.data.getD .null)]) }

/-- The number in an item's data, and the server's own data. Data without a number is the server's
own. -/
def untag (data : Option Json) : Option Nat × Option Json :=
  match data with
  | some j =>
    if j.has listKey then
      ((j.get listKey).asUInt64?,
        match j.get serverDataKey with
        | .null => none
        | own => some own)
    else (none, some j)
  | none => (none, none)

/-- An edit with its ranges replaced; `none` unless each of them has a place. -/
def moveEdit? : ItemEdit → List (Option Range) → Option ItemEdit
  | .edit e, [some range] => some (.edit { e with range })
  | .insertReplace newText _ _, [some insert, some replace] =>
    some (.insertReplace newText insert replace)
  | _, _ => none

/-- An item with its edit moved. An item whose edit has no place inserts the edit's text instead. -/
def moveItem (item : CompletionItem) (edit : ItemEdit) (ranges : List (Option Range)) :
    CompletionItem :=
  match moveEdit? edit ranges with
  | some moved => { item with textEdit := some moved }
  | none => { item with textEdit := none, insertText := some edit.newText }

/-- Hands each item its own of the mapped ranges, which stand in the items' order. -/
def moveItems : List CompletionItem → List (Option Range) → List CompletionItem
  | [], _ => []
  | item :: rest, ranges =>
    match item.textEdit with
    | none => item :: moveItems rest ranges
    | some edit =>
      moveItem item edit (ranges.take edit.ranges.length) ::
        moveItems rest (ranges.drop edit.ranges.length)

/-- The ranges of all items' edits. -/
def editRanges (items : List CompletionItem) : List Range :=
  items.flatMap fun i => (i.textEdit.map ItemEdit.ranges).getD []

/-- Takes the edits of all items back to the host at once. -/
def remapPrimary (language : Language) (host : Url) (expected : Int) (items : List CompletionItem) :
    Action (List CompletionItem) := do
  let ranges := editRanges items
  if ranges.isEmpty then pure items
  else do
    let mapped ← Mapping.mapRanges language host ranges expected
    pure (moveItems items ((mapped.map (·.ranges)).getD []))

/-- Takes an item's additional edits back to the host; `none` if none is left. -/
def remapAdditional (language : Language) (host : Url) (expected : Int) (edits : List TextEdit) :
    Action (Option (List TextEdit)) := do
  let edits ← Mapping.remapEdits language host edits none false expected
  pure (if edits.isEmpty then none else some edits)

def remapItemAdditional (language : Language) (host : Url) (expected : Int)
    (item : CompletionItem) : Action CompletionItem := do
  match item.additionalTextEdits with
  | none => pure item
  | some edits => do
    let additionalTextEdits ← remapAdditional language host expected edits
    pure { item with additionalTextEdits }

/-- The names of tag helpers at the request's place, as items. -/
def tagHelperItems (p : Projection) : Action (List CompletionItem) := do
  match ← Action.ofExcept (← Action.call (.documentContext p.host.url)) with
  | none => pure []
  | some context =>
    if context.hostVersion ≠ p.host.version then pure []
    else
      match Text.offsetOf p.host.text.toList p.hostPosition with
      | none => pure []
      | some offset => do
        let capabilities ← Action.call .capabilities
        let provider ← Action.call .provider
        let items := Markup.completions provider context.tree context.helpers offset
          capabilities.snippets
        pure (items.map (·.toCompletionItem))

/-- The character that leads from markup to code. -/
def transition : String := "@"

/-- Whether completion was triggered by the character that leads to code. -/
def isTransition : Option CompletionTrigger → Bool
  | some t => t.kind == 2 && t.character == some transition
  | none => false

/-- A server of code sees the transition as an invocation by hand. -/
def invoked (r : PositionRequest) (trigger : Option CompletionTrigger) : PositionRequest :=
  if isTransition trigger then { r with ask := .completion (some ⟨1, none⟩) } else r

/-- The list of the first server that answers, with its items' edits in the host and its origin
remembered. -/
def serverList (p : Projection) (r : PositionRequest) : Action (Option CompletionList) := do
  match ← p.forward .completionList r with
  | none => pure none
  | some answer => do
    let items ← remapPrimary p.language p.host.url p.expected answer.value.items
    let items ← items.mapM (remapItemAdditional p.language p.host.url p.expected)
    let id ← Action.call (.remember ⟨p.host.url, p.url, p.language, answer.server⟩)
    pure (some { answer.value with items := items.map (tag id) })

/-- A list with more items at its end; no list is made for no items. -/
def extend (list : Option CompletionList) (items : List CompletionItem) : Option CompletionList :=
  if items.isEmpty then list
  else
    match list with
    | none => some ⟨false, items⟩
    | some l => some { l with items := l.items ++ items }

def completion (r : PositionRequest) (trigger : Option CompletionTrigger) :
    Action (Option CompletionList) := do
  match ← Projection.resolve r.place with
  | none => pure none
  | some p =>
    if isTransition trigger && p.language = .html then pure none
    else do
      let list ← serverList p (invoked r trigger)
      if p.language = .html then do
        let items ← tagHelperItems p
        pure (extend list items)
      else pure list

/-- The server's item with the edits it left out filled in from the one that was sent. -/
def fillEdits (sent resolved : CompletionItem) : CompletionItem :=
  { resolved with
    textEdit := resolved.textEdit <|> sent.textEdit
    additionalTextEdits := resolved.additionalTextEdits <|> sent.additionalTextEdits }

/-- Takes the edits that the server changed back to the host. The item as sent is in the host's
coordinates already; if the host is closed, its edits stay. -/
def remapChanged (context : CompletionContext) (sent resolved : CompletionItem) :
    Action CompletionItem := do
  let editChanged := resolved.textEdit ≠ sent.textEdit
  let additionalChanged := resolved.additionalTextEdits ≠ sent.additionalTextEdits
  if editChanged ∨ additionalChanged then
    match ← Action.call (.hostVersion context.host) with
    | none =>
      pure { resolved with
        textEdit := sent.textEdit, additionalTextEdits := sent.additionalTextEdits }
    | some expected => do
      let resolved ←
        if editChanged then do
          let items ← remapPrimary context.language context.host expected [resolved]
          pure (items.headD resolved)
        else pure resolved
      if additionalChanged then remapItemAdditional context.language context.host expected resolved
      else pure resolved
  else pure resolved

/-- Resolves an item by the server its list came from. An item whose list is unknown is given back
with the server's own data. -/
def resolve (item : CompletionItem) : Action CompletionItem := do
  let (id, data) := untag item.data
  let item := { item with data }
  match id with
  | none => pure item
  | some id =>
    match ← Action.call (.recall id) with
    | none => pure item
    | some context => do
      let outcome ← Action.call
        (.ask .completionItem "completionItem/resolve" context.server (.ok item.toJson))
      match outcome with
      | .error (.serverNotFound _) => pure (tag id item)
      | .error e => throw e
      | .ok none => pure (tag id item)
      | .ok (some resolved) => do
        let resolved ← remapChanged context item (fillEdits item resolved)
        pure (tag id resolved)

end PolyglotLsp.Handler
