import PolyglotLsp.Completion.ContextCache
import PolyglotLsp.Config.Load
import PolyglotLsp.Document.Synchronizer
import PolyglotLsp.Lsp.Params
import PolyglotLsp.Progress
import PolyglotLsp.Server.Registry
import PolyglotLsp.Url.FilePath

/-!
# The state of a router

Everything a router remembers between requests, and what the editor's notifications do to it. What
has to be passed on to backing servers is given back as notifications.
-/

namespace PolyglotLsp

/-- The state of a router. -/
structure Core where
  store : Store
  synchronizer : Synchronizer
  registry : Registry
  requestTimeout : Nat
  progress : Progress
  cache : ContextCache
  settings : Config.Settings
  capabilities : Option ClientCapabilities
  root : Option String

/-- A notification for the servers of some content types. -/
structure Notice where
  contentTypes : List String
  method : String
  params : Json

namespace Core

/-- Puts settings in force in every service that has a copy of them. -/
def applySettings (c : Core) (s : Config.Settings) : Core :=
  { c with
    synchronizer := { c.synchronizer with timeout := s.synchronizationTimeout }
    requestTimeout := s.requestTimeout
    cache := c.cache.setCapacity s.completionCacheCapacity
    settings := s }

/-- A router that nobody has talked to. -/
def new : Core :=
  applySettings {
    store := .empty
    synchronizer := .new Synchronizer.defaultTimeout
    registry := .empty
    requestTimeout := 5000
    progress := .empty
    cache := .new ContextCache.defaultCapacity
    settings := .default
    capabilities := none
    root := none } .default

/-- Opens a host document. An earlier opening leaves no trace but in the servers. -/
def openDocument (c : Core) (d : OpenedDocument) : Core :=
  match d.uri.toUrl? with
  | none => c
  | some url =>
    { c with
      synchronizer := c.synchronizer.forget url
      store := c.store.openDocument url d.version d.text }

/-- Applies the editor's edits; a batch that cannot be applied is ignored. -/
def changeDocument (c : Core) (d : ChangedDocument) : Core :=
  match d.uri.toUrl? with
  | none => c
  | some url =>
    match c.store.applyChanges url d.version d.changes with
    | .ok (store, _) => { c with store }
    | .error _ => c

/-- Tells servers that a virtual document is closed. -/
def closeNotice (c : Core) (d : VirtualSnapshot) : Notice :=
  ⟨c.settings.contentTypes d.language, "textDocument/didClose",
    .obj [("textDocument", .obj [("uri", d.url.toJson)])]⟩

/-- Closes a host document. Servers are told about its virtual documents, except those that were
never generated, which they do not know. -/
def closeDocument (c : Core) (uri : Uri) : Core × List Notice :=
  match uri.toUrl? with
  | none => (c, [])
  | some url =>
    let c := { c with synchronizer := c.synchronizer.forget url }
    match c.store.get? url with
    | none => (c, [])
    | some h =>
      ({ c with store := c.store.close url },
        (h.virtuals.filter (·.version ≠ 0)).map c.closeNotice)

/-- Tells servers the text of a virtual document: the first generation opens it. -/
def textNotice (c : Core) (d : VirtualSnapshot) : Notice :=
  let contentTypes := c.settings.contentTypes d.language
  if d.version = 1 then
    ⟨contentTypes, "textDocument/didOpen", .obj [("textDocument", .obj [
      ("uri", d.url.toJson), ("languageId", .str d.language.id), ("version", .int d.version),
      ("text", .str d.text)])]⟩
  else
    ⟨contentTypes, "textDocument/didChange", .obj [
      ("textDocument", .obj [("uri", d.url.toJson), ("version", .int d.version)]),
      ("contentChanges", .arr [.obj [("text", .str d.text)]])]⟩

/-- Takes in a regeneration and passes the new text on. -/
def regenerate (c : Core) (r : Regeneration) :
    Core × List Notice × Except RouterError (Option VirtualSnapshot) :=
  match c.store.regenerate r with
  | .error e => (c, [], .error e)
  | .ok (_, none) => (c, [], .ok none)
  | .ok (store, some d) => ({ c with store }, [c.textNotice d], .ok (some d))

/-- Takes in a notification of a server; says whether a request was waiting for it. -/
def serverNotification (c : Core) (method : String) (params : Json) : Core × Bool :=
  let (progress, accepted) := c.progress.deliverNotification method params
  ({ c with progress }, accepted)

/-- Ends all listening. -/
def shutdown (c : Core) : Core := { c with progress := c.progress.dispose }

/-- Where a router finds its files: what there is, the user's file, and the directory it was started
in. -/
structure Surroundings where
  files : Config.Files
  userFile : String
  directory : String

/-- The workspace's directory: that of the first folder, or else of the root, or else the directory
the router was started in. -/
def rootOf (s : Surroundings) (i : Initialization) : String :=
  let folder := ((i.folders.getD []).head?).bind Uri.toUrl?
  let url := folder <|> i.rootUri.bind Uri.toUrl?
  (url.bind Url.filePath?).getD s.directory

/-- Starts a session. The editor's capabilities are taken from the first start only. -/
def startSession (c : Core) (s : Surroundings) (i : Initialization) : Core :=
  let root := rootOf s i
  let c := { c with root := some root, capabilities := c.capabilities <|> some i.capabilities }
  let override := i.options.map fun o => (Config.Source.initialization, o)
  c.applySettings (Config.loadSettings s.files s.userFile (some root) override).1

/-- Loads the settings again, with what the editor sends on top. -/
def configure (c : Core) (s : Surroundings) (settings : Json) : Core :=
  c.applySettings
    (Config.loadSettings s.files s.userFile c.root (some (.client, settings))).1

end Core

/-- What the router tells the editor it can do. -/
def serverCapabilities : Json :=
  .obj [
    ("textDocumentSync", .int 2),
    ("completionProvider", .obj [
      ("resolveProvider", .bool true),
      ("triggerCharacters", Json.list Json.str ["@", "<", ".", " ", "/", ":"])]),
    ("hoverProvider", .bool true),
    ("definitionProvider", .bool true),
    ("referencesProvider", .bool true),
    ("renameProvider", .bool true),
    ("documentHighlightProvider", .bool true),
    ("documentOnTypeFormattingProvider", .obj [
      ("firstTriggerCharacter", .str ";"),
      ("moreTriggerCharacter", Json.list Json.str ["\x7d", "\n"])]),
    ("linkedEditingRangeProvider", .bool true),
    ("diagnosticProvider", .obj [
      ("identifier", .str "razor-router"), ("interFileDependencies", .bool true),
      ("workspaceDiagnostics", .bool false)])]

/-- The answer to the editor's start. -/
def sessionGreeting : Json :=
  .obj [
    ("capabilities", serverCapabilities),
    ("serverInfo", .obj [("name", .str "razor-router"), ("version", .str "0.1.0")])]

end PolyglotLsp
