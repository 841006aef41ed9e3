import PolyglotLsp.Config.Toml
import PolyglotLsp.Json.Decode

/-!
# Configuration layers

A layer sets some of the router's options and leaves the others open. Layers come from files and
from the editor, and are put on top of each other: for each option, and for the content types of
each language, the last layer that sets it wins.
-/

namespace PolyglotLsp.Config

open Json (optField)

/-- Which content types the servers of each embedded language serve. -/
structure ContentTypes where
  html : Option (List String)
  csharp : Option (List String)
  deriving DecidableEq, Repr, Inhabited

/-- One layer of options. -/
structure Layer where
  synchronizationTimeout : Option Nat
  requestTimeout : Option Nat
  progressTimeout : Option Nat
  completionCacheCapacity : Option Nat
  logLevel : Option String
  contentTypes : Option ContentTypes
  deriving DecidableEq, Repr, Inhabited

namespace ContentTypes

/-- The second on top of the first. -/
def merge (lower upper : ContentTypes) : ContentTypes :=
  ⟨upper.html <|> lower.html, upper.csharp <|> lower.csharp⟩

def mergeOption : Option ContentTypes → Option ContentTypes → Option ContentTypes
  | none, upper => upper
  | lower, none => lower
  | some lower, some upper => some (merge lower upper)

def toJson (c : ContentTypes) : Json :=
  Json.object [
    optField "html" (Json.list Json.str) c.html,
    optField "csharp" (Json.list Json.str) c.csharp]

def ofJson? (j : Json) : Option ContentTypes := do
  let j ← j.partialRecord? ["html", "csharp"]
  let html ← j.opt "html" (Json.listOf Json.asString?)
  let csharp ← j.opt "csharp" (Json.listOf Json.asString?)
  some { html, csharp }

end ContentTypes

namespace Layer

/-- The second on top of the first. -/
def merge (lower upper : Layer) : Layer where
  synchronizationTimeout := upper.synchronizationTimeout <|> lower.synchronizationTimeout
  requestTimeout := upper.requestTimeout <|> lower.requestTimeout
  progressTimeout := upper.progressTimeout <|> lower.progressTimeout
  completionCacheCapacity := upper.completionCacheCapacity <|> lower.completionCacheCapacity
  logLevel := upper.logLevel <|> lower.logLevel
  contentTypes := ContentTypes.mergeOption lower.contentTypes upper.contentTypes

/-- A layer that is absent changes nothing. -/
def mergeOption : Option Layer → Option Layer → Option Layer
  | none, upper => upper
  | lower, none => lower
  | some lower, some upper => some (merge lower upper)

/-- All layers on top of each other, the last at the top. -/
def mergeAll (layers : List (Option Layer)) : Option Layer := layers.foldl mergeOption none

/-- The lowest layer. -/
def defaults : Layer where
  synchronizationTimeout := some 2000
  requestTimeout := some 5000
  progressTimeout := some 3000
  completionCacheCapacity := some 10
  logLevel := none
  contentTypes := some ⟨some ["html"], some ["csharp"]⟩

/-- The options in the order in which they are written. -/
def names : List String :=
  ["synchronizationTimeoutMs", "requestTimeoutMs", "progressTimeoutMs", "completionCacheCapacity",
    "logLevel", "contentTypes"]

def toJson (l : Layer) : Json :=
  Json.object [
    optField "synchronizationTimeoutMs" Json.nat l.synchronizationTimeout,
    optField "requestTimeoutMs" Json.nat l.requestTimeout,
    optField "progressTimeoutMs" Json.nat l.progressTimeout,
    optField "completionCacheCapacity" Json.nat l.completionCacheCapacity,
    optField "logLevel" Json.str l.logLevel,
    optField "contentTypes" ContentTypes.toJson l.contentTypes]

def ofJson? (j : Json) : Option Layer := do
  let j ← j.partialRecord? names
  let synchronizationTimeout ← j.opt "synchronizationTimeoutMs" Json.asUInt64?
  let requestTimeout ← j.opt "requestTimeoutMs" Json.asUInt64?
  let progressTimeout ← j.opt "progressTimeoutMs" Json.asUInt64?
  let completionCacheCapacity ← j.opt "completionCacheCapacity" Json.asUInt64?
  let logLevel ← j.opt "logLevel" Json.asString?
  let contentTypes ← j.opt "contentTypes" ContentTypes.ofJson?
  some {
    synchronizationTimeout, requestTimeout, progressTimeout, completionCacheCapacity, logLevel
    contentTypes }

end Layer

mutual

/-- A TOML value as JSON. Fractions and dates become booleans, which no option accepts. -/
def jsonOfToml : Toml.Value → Json
  | .text s => .str s
  | .integer n => .int n
  | .float | .moment => .bool false
  | .boolean b => .bool b
  | .array items => .arr (jsonOfItems items)
  | .table members => .obj (jsonOfMembers members)

def jsonOfItems : List Toml.Value → List Json
  | [] => []
  | v :: rest => jsonOfToml v :: jsonOfItems rest

def jsonOfMembers : List (String × Toml.Value) → List (String × Json)
  | [] => []
  | (k, v) :: rest => (k, jsonOfToml v) :: jsonOfMembers rest

end

/-- The layer that a configuration file holds. -/
def Layer.ofToml? (s : String) : Option Layer := do
  let members ← Toml.parse? s
  Layer.ofJson? (.obj (jsonOfMembers members))

end PolyglotLsp.Config
