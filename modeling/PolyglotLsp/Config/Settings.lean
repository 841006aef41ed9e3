import PolyglotLsp.Config.Layer
import PolyglotLsp.Language

/-!
# Settings in force

All options with a value each. An option that no layer sets has its default, and the completion
cache always has room for one list.
-/

namespace PolyglotLsp.Config

/-- The options a running router uses; times are in milliseconds. -/
structure Settings where
  synchronizationTimeout : Nat
  requestTimeout : Nat
  progressTimeout : Nat
  completionCacheCapacity : Nat
  logLevel : Option String
  html : List String
  csharp : List String
  deriving DecidableEq, Repr, Inhabited

namespace Settings

/-- The settings that a layer gives. -/
def ofLayer (l : Layer) : Settings where
  synchronizationTimeout := l.synchronizationTimeout.getD 2000
  requestTimeout := l.requestTimeout.getD 5000
  progressTimeout := l.progressTimeout.getD 3000
  completionCacheCapacity := max (l.completionCacheCapacity.getD 10) 1
  logLevel := l.logLevel
  html := (l.contentTypes.bind (·.html)).getD ["html"]
  csharp := (l.contentTypes.bind (·.csharp)).getD ["csharp"]

def default : Settings := ofLayer Layer.defaults

/-- The content types whose servers handle a language. -/
def contentTypes (s : Settings) : Language → List String
  | .razor => []
  | .html => s.html
  | .csharp => s.csharp

def toJson (s : Settings) : Json :=
  .obj [
    ("synchronizationTimeoutMs", .nat s.synchronizationTimeout),
    ("requestTimeoutMs", .nat s.requestTimeout),
    ("progressTimeoutMs", .nat s.progressTimeout),
    ("completionCacheCapacity", .nat s.completionCacheCapacity),
    ("logLevel", Json.ofOption Json.str s.logLevel),
    ("contentTypes", .obj ([Language.razor, .html, .csharp].map fun l =>
      (l.id, Json.list Json.str (s.contentTypes l))))]

end Settings

end PolyglotLsp.Config
