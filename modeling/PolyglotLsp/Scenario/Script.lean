import PolyglotLsp.Router.Machine

/-!
# Scripted collaborators

Collaborators whose answers are written down beforehand: positions and ranges are shifted by a fixed
amount, servers work through lists of answers, documents have fixed markup. A router among scripted
collaborators is a closed system, which is how its behaviour is examined.
-/

namespace PolyglotLsp.Scenario

/-- A displacement of positions. -/
structure Shift where
  lines : Int
  characters : Int
  deriving DecidableEq, Repr, Inhabited

namespace Shift

/-- A coordinate that stays in 32 bits when it is moved. -/
def coordinate? (n : Nat) (delta : Int) : Option Nat :=
  match (n : Int) + delta with
  | .ofNat m => if m < 4294967296 then some m else none
  | .negSucc _ => none

def position? (s : Shift) (p : Position) : Option Position := do
  let line ← coordinate? p.line s.lines
  let character ← coordinate? p.character s.characters
  some ⟨line, character⟩

def range? (s : Shift) (r : Range) : Option Range := do
  let start ← s.position? r.start
  let stop ← s.position? r.stop
  some ⟨start, stop⟩

end Shift

/-- What a classifier says about some positions. -/
structure ClassifierRule where
  delay : Nat
  failure : Option RouterError
  language : Option Language
  shift : Shift
  version : Option Int

/-- Rules for spans of lines, the last line included, and one for all other lines. -/
structure ClassifierScript where
  rules : List (Nat × Option Nat × ClassifierRule)
  otherwise : ClassifierRule

namespace ClassifierScript

def rule (s : ClassifierScript) (line : Nat) : ClassifierRule :=
  match s.rules.find? fun (first, last, _) => decide (first ≤ line) && last.all (line ≤ ·) with
  | some (_, _, r) => r
  | none => s.otherwise

def answer (s : ClassifierScript) (position : Position) :
    Timed (Except RouterError (Option Classification)) :=
  let r := s.rule position.line
  ⟨r.delay,
    match r.failure with
    | some e => .error e
    | none => .ok do
      let language ← r.language
      let position ← r.shift.position? position
      some ⟨language, position, r.version⟩⟩

end ClassifierScript

/-- What a mapping service says. -/
structure MappingScript where
  delay : Nat
  failure : Option RouterError
  hostFailures : List (String × RouterError)
  editFailure : Option RouterError
  silent : Bool
  unmappable : List Nat
  shift : Shift
  keepRanges : Option Nat
  extraRanges : Nat
  keepEdits : Option Nat
  version : Option Int
  hostVersions : List (String × Option Int)

namespace MappingScript

/-- The first `n` elements, or all. -/
def keep {α : Type} (n : Option Nat) (items : List α) : List α :=
  match n with
  | some n => items.take n
  | none => items

def versionOf (s : MappingScript) (host : Url) : Option Int :=
  (s.hostVersions.lookup host.text).getD s.version

def range? (s : MappingScript) (r : Range) : Option Range :=
  if s.unmappable.contains r.start.line then none else s.shift.range? r

def mapRanges (s : MappingScript) (host : Url) (ranges : List Range) :
    Timed (Except RouterError (Option MappedRanges)) :=
  ⟨s.delay,
    match s.failure <|> s.hostFailures.lookup host.text with
    | some e => .error e
    | none =>
      if s.silent then .ok none
      else .ok (some {
        ranges := keep s.keepRanges (ranges.map s.range?) ++
          List.replicate s.extraRanges (some ⟨⟨0, 0⟩, ⟨0, 0⟩⟩)
        hostVersion := s.versionOf host })⟩

def remapEdits (s : MappingScript) (host : Url) (edits : List TextEdit) :
    Timed (Except RouterError (Option RemappedEdits)) :=
  ⟨s.delay,
    match s.failure <|> s.editFailure with
    | some e => .error e
    | none =>
      if s.silent then .ok none
      else .ok (some {
        edits := keep s.keepEdits (edits.filterMap fun e =>
          (s.range? e.range).map fun range => { e with range })
        hostVersion := s.versionOf host })⟩

end MappingScript

/-- The token of a scripted note: that of the request, none, or a given one. -/
inductive NoteToken where
  | ofRequest
  | absent
  | given (token : Json)

/-- A note that a server sends while it works. -/
structure NoteScript where
  delay : Nat
  method : String
  token : NoteToken
  value : Option Json

namespace NoteScript

def note (s : NoteScript) (params : Json) : ServerNote :=
  let token :=
    match s.token with
    | .ofRequest => some (params.get "partialResultToken")
    | .absent => none
    | .given t => some t
  ⟨s.delay, s.method, Json.object [Json.optField "token" id token, Json.optField "value" id s.value]⟩

end NoteScript

/-- What a server does about one request. -/
structure AnswerScript where
  notes : List NoteScript
  delay : Nat
  outcome : ServerOutcome

namespace AnswerScript

/-- The work on a request without a script: an immediate `null`. -/
def silence : AnswerScript := ⟨[], 0, .answer .null⟩

def work (s : AnswerScript) (params : Json) : ServerWork :=
  ⟨s.notes.map (·.note params), s.delay, s.outcome⟩

end AnswerScript

/-- A server's answers by method, and why it fails to take notifications, if it does. Answers are
used up one by one; the last is repeated. -/
structure ServerScript where
  answers : Table String (List AnswerScript)
  noticeFailure : Option String

namespace ServerScript

/-- The answer to the next request of a method. -/
def next (s : ServerScript) (method : String) : ServerScript × AnswerScript :=
  match s.answers.get? method with
  | some (a :: b :: rest) => ({ s with answers := s.answers.set method (b :: rest) }, a)
  | some [a] => (s, a)
  | _ => (s, .silence)

end ServerScript

/-- What a document service says about one host. -/
abbrev DocumentScript := Timed (Except RouterError (Option DocumentContext))

/-- All scripts of a scenario; servers by the numbers of their endpoints. -/
structure Script where
  classifier : ClassifierScript
  mapping : MappingScript
  documents : Option (List (String × DocumentScript))
  provider : Markup.Provider
  endpoints : Table Nat ServerScript

namespace Script

/-- Work on a request at an endpoint. -/
def request (s : Script) (endpoint : Nat) (method : String) (params : Json) :
    Script × ServerWork :=
  match s.endpoints.get? endpoint with
  | none => (s, AnswerScript.silence.work params)
  | some server =>
    let (server, answer) := server.next method
    ({ s with endpoints := s.endpoints.set endpoint server }, answer.work params)

/-- The collaborators that a script stands for. -/
def collaborators : Collaborators Script where
  classify s _ position := (s, s.classifier.answer position)
  mapRanges s _ host ranges := (s, s.mapping.mapRanges host ranges)
  remapEdits s _ host edits _ _ := (s, s.mapping.remapEdits host edits)
  documentContext s host :=
    (s, s.documents.map fun entries => (entries.lookup host.text).getD ⟨0, .ok none⟩)
  request := request
  noticeFailure? s endpoint _ _ := (s.endpoints.get? endpoint).bind (·.noticeFailure)
  provider s := s.provider

end Script

end PolyglotLsp.Scenario
