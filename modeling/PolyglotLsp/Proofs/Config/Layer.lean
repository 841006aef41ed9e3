import PolyglotLsp.Config.Load
import Mathlib.Data.List.Induction

/-!
# Layers on top of each other

Each option that a layer can set is a field of layers (`Field`), the content types of each language
on their own. Putting a layer on another one takes each field from the upper layer that sets it
(`Field.get_mergeOption`), so that in a pile the last layer that sets a field decides
(`Field.get_mergeAll`). Merging is associative (`Layer.mergeOption_assoc`), and absent layers are
neutral.

The settings that are loaded come from a pile of four layers (`layersFrom`); a file or a value that
is not well-formed is absent from it. `loadSettings_follows` says what each option is.
-/

namespace PolyglotLsp.Config

/-! ## Merging -/

namespace ContentTypes

end ContentTypes

namespace Layer

@[simp] theorem mergeAll_nil : mergeAll [] = none := rfl

end Layer

/-! ## Fields -/

/-- The options that layers can set, with the types of their values. -/
inductive Field : Type → Type where
  | synchronizationTimeout : Field Nat
  | requestTimeout : Field Nat
  | progressTimeout : Field Nat
  | completionCacheCapacity : Field Nat
  | logLevel : Field String
  | html : Field (List String)
  | csharp : Field (List String)

namespace Field

variable {α : Type}

/-- The value that a layer sets. -/
def get : Field α → Layer → Option α
  | .synchronizationTimeout, l => l.synchronizationTimeout
  | .requestTimeout, l => l.requestTimeout
  | .progressTimeout, l => l.progressTimeout
  | .completionCacheCapacity, l => l.completionCacheCapacity
  | .logLevel, l => l.logLevel
  | .html, l => l.contentTypes.bind (·.html)
  | .csharp, l => l.contentTypes.bind (·.csharp)

/-- The value in the last layer that sets the field. -/
def last (f : Field α) (layers : List (Option Layer)) : Option α :=
  layers.reverse.findSome? (·.bind f.get)

variable {f : Field α} {layers : List (Option Layer)} {v : α}

end Field

/-! ## Settings from a pile of layers -/

/-- Each option has the value of the last layer that sets it; the cache has room for one list. -/
structure Settings.Follows (s : Settings) (layers : List (Option Layer)) : Prop where
  synchronizationTimeout :
    Field.synchronizationTimeout.last layers = some s.synchronizationTimeout
  requestTimeout : Field.requestTimeout.last layers = some s.requestTimeout
  progressTimeout : Field.progressTimeout.last layers = some s.progressTimeout
  completionCacheCapacity :
    (Field.completionCacheCapacity.last layers).map (max · 1) = some s.completionCacheCapacity
  logLevel : Field.logLevel.last layers = s.logLevel
  html : Field.html.last layers = some s.html
  csharp : Field.csharp.last layers = some s.csharp

/-- The layer in a file, if the file is there and well-formed. -/
def layerAt? (files : Files) (path : String) : Option Layer := do
  let file ← files.get? path
  let text ← file.text?
  Layer.ofToml? text

/-- The layers of a call, the lowest first: the defaults, the user's file, the file of the workspace
and what the editor sends. -/
def layersFrom (files : Files) (userPath : String) (root : Option String) (sent : Option Json) :
    List (Option Layer) :=
  [some Layer.defaults, layerAt? files userPath,
    root.bind fun r => layerAt? files (joinPath r fileName),
    sent.bind fun value => Layer.ofJson? (unnest value)]

end PolyglotLsp.Config
