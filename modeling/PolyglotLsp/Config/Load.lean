import PolyglotLsp.Config.Settings
import PolyglotLsp.Document.Table
import PolyglotLsp.Text.Utf8

/-!
# Loading settings

Settings come from four layers: the defaults, the user's file, the workspace's file and what the
editor sends. A layer that is missing or malformed drops out whole, and what happened to each is
told as a list of events.
-/

namespace PolyglotLsp.Config

/-- What stands at a path. -/
inductive FileState where
  | unreadable
  | content (bytes : List UInt8)
  deriving DecidableEq, Repr, Inhabited

/-- The files that can be seen; a path without an entry has no file. -/
abbrev Files := Table String FileState

/-- The text of a file. -/
def FileState.text? : FileState → Option String
  | .unreadable => none
  | .content bytes => (Text.decode? bytes).map String.ofList

inductive EventKind where
  | info
  | warning
  deriving DecidableEq, Repr, Inhabited

structure Event where
  kind : EventKind
  message : String
  deriving DecidableEq, Repr, Inhabited

/-- Which message of the editor carried settings. -/
inductive Source where
  | initialization
  | client
  deriving DecidableEq, Repr, Inhabited

def Source.description : Source → String
  | .initialization => "initialization options"
  | .client => "client configuration"

/-- A path inside a directory. -/
def joinPath (directory name : String) : String :=
  if directory.isEmpty || directory.endsWith "/" then directory ++ name
  else directory ++ "/" ++ name

def fileName : String := "razor-router.toml"

/-- The user's file in a directory of configurations. -/
def userFile (directory : String) : String := joinPath (joinPath directory "razor-router") fileName

/-- The directory of the user's configurations: the one given, or else the usual place in the user's
home. -/
def userDirectory (given : Option String) (home : String) : String :=
  match given with
  | some d => if d.isEmpty then joinPath home ".config" else d
  | none => joinPath home ".config"

/-- A layer read from somewhere, with what there is to tell about it. -/
abbrev Loaded := Option Layer × List Event

def loadUser (files : Files) (path : String) : Loaded :=
  let warn (verb : String) (reason : String) : Loaded :=
    (none, [⟨.warning, "Failed to load user config: failed to " ++ verb ++ " " ++ path ++ ": " ++
      reason⟩])
  match files.get? path with
  | none => (none, [])
  | some file =>
    match file.text? with
    | none => warn "read" "the file cannot be read as text"
    | some text =>
      match Layer.ofToml? text with
      | some layer => (some layer, [⟨.info, "Loaded user config"⟩])
      | none => warn "parse" "the file is not a configuration"

def loadProject (files : Files) (root : Option String) : Loaded :=
  match root with
  | none => (none, [])
  | some root =>
    let path := joinPath root fileName
    match files.get? path with
    | none => (none, [])
    | some file =>
      let found : Event := ⟨.info, "Found config file: " ++ path⟩
      match file.text? with
      | none =>
        (none, [found, ⟨.warning, "Failed to read " ++ fileName ++
          ": the file cannot be read as text"⟩])
      | some text =>
        match Layer.ofToml? text with
        | some layer => (some layer, [found, ⟨.info, "Successfully loaded " ++ fileName⟩])
        | none =>
          (none, [found, ⟨.warning, "Failed to parse " ++ fileName ++
            ": the file is not a configuration"⟩])

/-- Editors may put the settings under the router's name. -/
def unnest (value : Json) : Json :=
  if value.has "razorRouter" then value.get "razorRouter" else value

def loadOverride (override : Option (Source × Json)) : Loaded :=
  match override with
  | none => (none, [])
  | some (source, value) =>
    match unnest value with
    | .null => (none, [])
    | value =>
      match Layer.ofJson? value with
      | some layer => (some layer, [⟨.info, "Parsed " ++ source.description ++ " as router settings"⟩])
      | none =>
        (none, [⟨.warning, "Failed to parse " ++ source.description ++
          ": the value is not a configuration"⟩])

/-- The settings in force with these files, this workspace and this message of the editor. -/
def loadSettings (files : Files) (userPath : String) (root : Option String)
    (override : Option (Source × Json)) : Settings × List Event :=
  let (user, userEvents) := loadUser files userPath
  let (project, projectEvents) := loadProject files root
  let (top, topEvents) := loadOverride override
  let merged := Layer.mergeAll [some Layer.defaults, user, project, top]
  (Settings.ofLayer (merged.getD Layer.defaults), userEvents ++ projectEvents ++ topEvents)

end PolyglotLsp.Config
