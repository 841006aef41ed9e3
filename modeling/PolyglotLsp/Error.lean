import PolyglotLsp.Json

/-!
# Failures

`RouterError` names every cause of failure and fixes its wording. What the editor sees of one is a
`ResponseError`: failures on the way to a backing server are reported as failed requests with the
server's name, everything else as an internal error.
-/

namespace PolyglotLsp

/-- Why an operation failed. -/
inductive RouterError where
  | lock (message : String)
  | serverNotFound (server : String)
  | transport (server method message : String)
  | timeout (server method : String) (millis : Nat)
  | invalidResponse (server method reason : String)
  | documentNotFound (uri : String)
  | invalidEdit (message : String)
  | config (message : String)
  | internal (message : String)
  deriving DecidableEq, Repr, Inhabited

namespace RouterError

/-- The wording of a failure. -/
def message : RouterError → String
  | .lock m => "Lock acquisition failed: " ++ m
  | .serverNotFound s => "Backing server not registered: " ++ s
  | .transport s method m => "Transport failure talking to " ++ s ++ " (" ++ method ++ "): " ++ m
  | .timeout s method t =>
    "Request " ++ method ++ " to " ++ s ++ " timed out after " ++ toString t ++ "ms"
  | .invalidResponse s method reason =>
    "Invalid response from " ++ s ++ " for " ++ method ++ ": " ++ reason
  | .documentNotFound uri => "Document not found: " ++ uri
  | .invalidEdit m => "Invalid text edit: " ++ m
  | .config m => "Invalid configuration: " ++ m
  | .internal m => "Internal error: " ++ m

/-- Whether the failure lies between the router and a backing server. -/
def isTransportFailure : RouterError → Bool
  | .transport .. | .timeout .. | .invalidResponse .. | .serverNotFound _ => true
  | _ => false

end RouterError

/-- A failed request as the editor sees it. -/
structure ResponseError where
  code : Int
  message : String
  data : Option Json
  deriving Inhabited

namespace ResponseError

/-- The request was well formed but could not be answered. -/
def requestFailedCode : Int := -32803

/-- The router itself is at fault. -/
def internalCode : Int := -32603

def requestFailed (message : String) : ResponseError := ⟨requestFailedCode, message, none⟩

def internal (message : String) : ResponseError := ⟨internalCode, message, none⟩

def timeout (message : String) : ResponseError :=
  ⟨requestFailedCode, message, some (.obj [("reason", .str "timeout")])⟩

end ResponseError

/-- What the editor sees of a failure. -/
def RouterError.response (e : RouterError) : ResponseError :=
  match e with
  | .timeout server _ millis =>
    ⟨ResponseError.requestFailedCode, e.message,
      some (.obj [("reason", .str "timeout"), ("server", .str server),
        ("timeout_ms", .nat millis)])⟩
  | .transport server _ _ | .invalidResponse server _ _ | .serverNotFound server =>
    ⟨ResponseError.requestFailedCode, e.message, some (.obj [("server", .str server)])⟩
  | _ => .internal e.message

end PolyglotLsp
