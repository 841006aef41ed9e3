import PolyglotLsp.Error

/-!
# Answers of several servers

What came back from each server a request was handed to, in the order of arrival, and what the
answers amount to: the first one that says something, or all of them.
-/

namespace PolyglotLsp

/-- What became of a request to one server. A server that answers `null` has nothing to say; one
whose task died says nothing at all. -/
inductive Reply (α : Type) where
  | answer (value : α)
  | nothing
  | failed (error : RouterError)
  | died
  deriving Repr

/-- An answer with the name of the server that gave it. -/
structure Tagged (α : Type) where
  server : String
  value : α
  deriving Repr

namespace Reply

variable {α : Type}

def isNothing : Reply α → Bool
  | .nothing => true
  | _ => false

def error? : Reply α → Option RouterError
  | .failed e => some e
  | _ => none

end Reply

/-- Replies by server, in the order of arrival. -/
abbrev Replies (α : Type) := List (String × Reply α)

namespace Replies

variable {α : Type}

/-- The answers with their servers. -/
def answers (rs : Replies α) : List (Tagged α) :=
  rs.filterMap fun (server, r) =>
    match r with
    | .answer value => some ⟨server, value⟩
    | _ => none

def anyNothing (rs : Replies α) : Bool := rs.any (·.2.isNothing)

def firstError? (rs : Replies α) : Option RouterError := rs.findSome? (·.2.error?)

/-- The first answer. Without one, a failure counts only if no server had nothing to say. -/
def first (rs : Replies α) : Except RouterError (Option (Tagged α)) :=
  match rs.answers with
  | answer :: _ => .ok (some answer)
  | [] =>
    match rs.firstError? with
    | some e => if rs.anyNothing then .ok none else .error e
    | none => .ok none

/-- All answers by the names of their servers. A failure counts only if nobody answered. -/
def all (rs : Replies α) : Except RouterError (List (Tagged α)) :=
  match rs.firstError? with
  | some e =>
    if rs.answers.isEmpty && !rs.anyNothing then .error e
    else .ok (rs.answers.mergeSort fun a b => decide (a.server ≤ b.server))
  | none => .ok (rs.answers.mergeSort fun a b => decide (a.server ≤ b.server))

end Replies

end PolyglotLsp
