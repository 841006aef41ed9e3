import PolyglotLsp.Lsp.Basic

/-!
# Diagnostics
-/

namespace PolyglotLsp

open Json (field optField)

/-- A diagnostic's code. -/
inductive DiagnosticCode where
  | number (value : Int)
  | text (value : String)
  deriving DecidableEq, Repr, Inhabited

/-- Something elsewhere that a diagnostic points to. -/
structure RelatedInformation where
  location : Location
  message : String
  deriving DecidableEq

structure Diagnostic where
  range : Range
  severity : Option Int
  code : Option DiagnosticCode
  codeDescription : Option Uri
  source : Option String
  message : String
  related : Option (List RelatedInformation)
  tags : Option (List Int)
  data : Option Json

namespace DiagnosticCode

def toJson : DiagnosticCode → Json
  | .number n => .int n
  | .text s => .str s

def ofJson? (j : Json) : Option DiagnosticCode :=
  match j with
  | .str s => some (.text s)
  | j => j.asInt32?.map .number

end DiagnosticCode

namespace RelatedInformation

def toJson (r : RelatedInformation) : Json :=
  .obj [("location", r.location.toJson), ("message", .str r.message)]

def ofJson? (j : Json) : Option RelatedInformation := do
  let j ← j.record? ["location", "message"]
  let location ← j.req "location" Location.ofJson?
  let message ← j.req "message" Json.asString?
  some { location, message }

end RelatedInformation

namespace Diagnostic

def names : List String :=
  ["range", "severity", "code", "codeDescription", "source", "message", "relatedInformation",
    "tags", "data"]

def toJson (d : Diagnostic) : Json :=
  Json.object [
    field "range" d.range.toJson,
    optField "severity" Json.int d.severity,
    optField "code" DiagnosticCode.toJson d.code,
    optField "codeDescription" (fun u => Json.obj [("href", u.toJson)]) d.codeDescription,
    optField "source" Json.str d.source,
    field "message" (.str d.message),
    optField "relatedInformation" (Json.list RelatedInformation.toJson) d.related,
    optField "tags" (Json.list Json.int) d.tags,
    optField "data" id d.data]

def ofJson? (j : Json) : Option Diagnostic := do
  let j ← j.record? names
  let range ← j.req "range" Range.ofJson?
  let severity ← j.opt "severity" Json.asInt32?
  let code ← j.opt "code" DiagnosticCode.ofJson?
  let codeDescription ← j.opt "codeDescription" fun c => do
    let c ← c.record? ["href"]
    c.req "href" Uri.ofJson?
  let source ← j.opt "source" Json.asString?
  let message ← j.req "message" Json.asString?
  let related ← j.opt "relatedInformation" (Json.listOf RelatedInformation.ofJson?)
  let tags ← j.opt "tags" (Json.listOf Json.asInt32?)
  let data ← j.opt "data" Json.any?
  some { range, severity, code, codeDescription, source, message, related, tags, data }

end Diagnostic

/-- A server's answer to a request for diagnostics. The reports on related documents are checked and
not kept. -/
inductive DiagnosticReport where
  | full (items : List Diagnostic)
  | unchanged

namespace DiagnosticReport

def readFull? (j : Json) : Option DiagnosticReport := do
  let _ ← j.opt "resultId" Json.asString?
  let items ← j.req "items" (Json.listOf Diagnostic.ofJson?)
  some (.full items)

def readUnchanged? (j : Json) : Option DiagnosticReport := do
  let _ ← j.req "resultId" Json.asString?
  some .unchanged

/-- A report of either kind, without related documents. -/
def readPlain? (j : Json) : Option DiagnosticReport := do
  let j ← j.object?
  match j.get "kind" with
  | .str "full" => readFull? j
  | .str "unchanged" => readUnchanged? j
  | _ => none

def ofJson? (j : Json) : Option DiagnosticReport := do
  let report ← readPlain? j
  let _ ← j.opt "relatedDocuments" (Json.membersOf Uri.parse? readPlain?)
  some report

end DiagnosticReport

end PolyglotLsp
