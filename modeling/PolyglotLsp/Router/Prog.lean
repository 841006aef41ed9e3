import PolyglotLsp.Completion.ContextCache
import PolyglotLsp.Document.Synchronizer
import PolyglotLsp.Lsp.Params
import PolyglotLsp.Server.Shape

/-!
# Request programs

A request is answered by a program over a fixed set of operations. Some operations read or change
the router's state at once; the others ask somebody outside (a service of the host language, the
synchronizer, the backing servers) and may wait. Between two operations that wait, nothing else
happens. Programs are data: running one is a matter of saying what each operation answers, so that
facts about all schedules are facts about all answers.
-/

namespace PolyglotLsp

/-- An operation of a request program. -/
inductive Op where
  /-- The host document as it is now. -/
  | host (url : Url)
  /-- The version of a host document now. -/
  | hostVersion (url : Url)
  /-- The host and language of a virtual document. -/
  | resolveVirtual (url : Url)
  /-- The content types of a language's servers. -/
  | contentTypes (language : Language)
  /-- What the editor can do. -/
  | capabilities
  /-- The source of tag helper names. -/
  | provider
  /-- Remembers where a completion list came from. -/
  | remember (context : CompletionContext)
  /-- Recalls where a completion list came from. -/
  | recall (id : Nat)
  /-- Starts to listen for partial results under a fresh token. The listener has its first turn
  before anything can arrive. -/
  | listen
  /-- Stops listening and gives the payloads that were handed over. -/
  | stopListening (id : Nat)
  /-- Asks which language a position belongs to. -/
  | classify (host : Url) (position : Position)
  /-- Waits until a virtual document reflects a host version. -/
  | synchronize (expected : Int) (document : VirtualSnapshot)
  /-- Asks all servers of some content types; the first to answer counts. -/
  | askFirst (shape : Shape) (method : String) (contentTypes : List String)
      (params : Except String Json)
  /-- Asks all servers of a content type; all answers count. -/
  | askAll (shape : Shape) (method : String) (contentType : String) (params : Except String Json)
  /-- Asks one server by name. -/
  | ask (shape : Shape) (method : String) (server : String) (params : Except String Json)
  /-- Asks where ranges of a virtual document lie in its host. -/
  | mapRanges (language : Language) (host : Url) (ranges : List Range)
  /-- Asks what edits of a virtual document are in its host. -/
  | remapEdits (language : Language) (host : Url) (edits : List TextEdit)
      (options : Option FormattingOptions) (snippet : Bool)
  /-- Asks for the markup of a host document. -/
  | documentContext (host : Url)

/-- What an operation answers. Where cancellation competes with an answer from outside, `none` on
the outside says that cancellation came first. -/
abbrev Op.Result : Op → Type
  | .host _ => Option HostSnapshot
  | .hostVersion _ => Option Int
  | .resolveVirtual _ => Option (Url × Language)
  | .contentTypes _ => List String
  | .capabilities => ClientCapabilities
  | .provider => Markup.Provider
  | .remember _ => Nat
  | .recall _ => Option CompletionContext
  | .listen => Option (Nat × Token)
  | .stopListening _ => List Json
  | .classify .. => Option (Except RouterError (Option Classification))
  | .synchronize .. => Option VirtualSnapshot
  | .askFirst shape .. => Except RouterError (Option (Tagged shape.Val))
  | .askAll shape .. => Except RouterError (List (Tagged shape.Val))
  | .ask shape .. => Except RouterError (Option shape.Val)
  | .mapRanges .. => Option (Except RouterError (Option MappedRanges))
  | .remapEdits .. => Option (Except RouterError (Option RemappedEdits))
  | .documentContext _ => Except RouterError (Option DocumentContext)

/-- A program that ends in a value of `α`. -/
inductive Prog (α : Type) where
  | done (value : α)
  | op (o : Op) (next : o.Result → Prog α)

namespace Prog

variable {α β : Type}

def bind (p : Prog α) (f : α → Prog β) : Prog β :=
  match p with
  | .done a => f a
  | .op o next => .op o fun r => (next r).bind f

instance : Monad Prog where
  pure := .done
  bind := bind

/-- The program of a single operation. -/
def call (o : Op) : Prog o.Result := .op o .done

end Prog

/-- A program that may fail. -/
abbrev Action := ExceptT RouterError Prog

namespace Action

/-- A single operation that cannot fail. -/
def call (o : Op) : Action o.Result := ExceptT.lift (Prog.call o)

/-- A failure, or a value. -/
def ofExcept {α : Type} (e : Except RouterError α) : Action α := ExceptT.mk (.done e)

end Action

end PolyglotLsp
