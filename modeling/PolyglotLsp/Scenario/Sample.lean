import PolyglotLsp.Scenario.Script

/-!
# A sample scenario

One host document and one server of code. The classifier finds code everywhere and takes it to be
that of the host's first version; the mapping service gives ranges back as they are, under a stamp
of one's choice.
-/

namespace PolyglotLsp.Scenario.Sample

/-- The name of the host document. -/
def hostUri : Uri := ⟨"file:///p/I.razor", by decide +kernel⟩

def hostUrl : Url :=
  ⟨"file".toList, some ⟨[], [], none⟩, .segments ["p".toList, "I.razor".toList], none, none⟩

/-- The name of its code. -/
def codeUri : VirtualUri where
  host := hostUrl
  language := .csharp
  url := { hostUrl with path := .segments ["p".toList, "I.razor__virtual.cs".toList] }
  derived := by decide +kernel

/-- Its name among servers. -/
def codeFile : Uri := ⟨"file:///p/I.razor__virtual.cs", by decide +kernel⟩

/-- The place of one word. -/
def word : Range := ⟨⟨0, 0⟩, ⟨0, 4⟩⟩

/-- A place in an ordinary document. -/
def elsewhere : Location := ⟨⟨"file:///p/Other.cs", by decide +kernel⟩, word⟩

/-- A regeneration of the code, to a text of one word. -/
def regeneration (version : Int) : Regeneration := ⟨hostUrl, .csharp, version, [⟨0, 0, "word"⟩]⟩

/-- The server of code. -/
def server : Server := ⟨"code", ["csharp"], 0⟩

/-- One answer to one method, after five moments. -/
def slowly (method : String) (answer : Json) : Table String (List AnswerScript) :=
  [(method, [⟨[], 5, .answer answer⟩])]

/-- A note that carries locations, under the token of the request that the server works on. -/
def streaming (delay : Nat) (locations : List Location) : NoteScript :=
  ⟨delay, Progress.method, .ofRequest, some (Json.list Location.toJson locations)⟩

/-- Mapping under a stamp, and what the server answers. -/
def script (stamp : Option Int) (answers : Table String (List AnswerScript)) : Script where
  classifier := ⟨[], ⟨0, none, some .csharp, ⟨0, 0⟩, some 1⟩⟩
  mapping := {
    delay := 0, failure := none, hostFailures := [], editFailure := none, silent := false
    unmappable := [], shift := ⟨0, 0⟩, keepRanges := none, extraRanges := 0, keepEdits := none
    version := stamp, hostVersions := [] }
  documents := none
  provider := .byRules
  endpoints := [(0, ⟨answers, none⟩)]

end PolyglotLsp.Scenario.Sample
