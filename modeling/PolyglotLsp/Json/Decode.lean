import PolyglotLsp.Json

/-!
# Reading typed values

A required member that is missing reads as `null`, which no typed reader accepts; an optional member
that is missing or `null` is absent; members nobody asks for are ignored.
-/

namespace PolyglotLsp.Json

/-- A record with these members in this order. It may also be written as the array of all its
members. -/
def record? (names : List String) (j : Json) : Option Json :=
  match j with
  | .obj _ => some j
  | .arr items => if items.length = names.length then some (.obj (names.zip items)) else none
  | _ => none

/-- A record that may be written as the array of its first members. -/
def partialRecord? (names : List String) (j : Json) : Option Json :=
  match j with
  | .obj _ => some j
  | .arr items => if items.length ≤ names.length then some (.obj (names.zip items)) else none
  | _ => none

/-- An object and nothing else. -/
def object? (j : Json) : Option Json := if j.isObject then some j else none

/-- A required member. -/
def req {α : Type} (j : Json) (key : String) (read : Json → Option α) : Option α :=
  read (j.get key)

/-- An optional value: `null` is absent. -/
def maybe {α : Type} (read : Json → Option α) (j : Json) : Option (Option α) :=
  match j with
  | .null => some none
  | j => (read j).map some

/-- An optional member. -/
def opt {α : Type} (j : Json) (key : String) (read : Json → Option α) : Option (Option α) :=
  maybe read (j.get key)

/-- An array all of whose elements can be read. -/
def listOf {α : Type} (read : Json → Option α) (j : Json) : Option (List α) := do
  let items ← j.asList?
  items.mapM read

/-- An object read as a table. -/
def membersOf {κ α : Type} (key : String → Option κ) (read : Json → Option α) (j : Json) :
    Option (List (κ × α)) := do
  let members ← j.asMembers?
  members.mapM fun (k, v) => do
    let k ← key k
    let v ← read v
    some (k, v)

/-- Any value at all. -/
def any? (j : Json) : Option Json := some j

end PolyglotLsp.Json
