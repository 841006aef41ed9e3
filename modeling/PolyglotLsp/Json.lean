/-!
# JSON values

The dynamic values that travel between the editor, the router and the backing servers. A number is
either an integer or a decimal with a fixed number of places, so that an integer in range can be
told from a fraction without rounding. Object members keep the order they were built in; no
operation below depends on that order as long as keys are distinct.
-/

namespace PolyglotLsp

/-- A JSON value. `decimal m p` is the number `m / 10 ^ p`. -/
inductive Json where
  | null
  | bool (value : Bool)
  | int (value : Int)
  | decimal (mantissa : Int) (places : Nat)
  | str (value : String)
  | arr (items : List Json)
  | obj (members : List (String × Json))
  deriving Inhabited

namespace Json

/-- The member named `key` of an object; anything without such a member reads as `null`. -/
def get (j : Json) (key : String) : Json :=
  match j with
  | .obj members => (members.lookup key).getD .null
  | _ => .null

/-- Whether an object has a member named `key`, even one that is `null`. -/
def has (j : Json) (key : String) : Bool :=
  match j with
  | .obj members => (members.lookup key).isSome
  | _ => false

def isObject : Json → Bool
  | .obj _ => true
  | _ => false

def asBool? : Json → Option Bool
  | .bool b => some b
  | _ => none

def asInt? : Json → Option Int
  | .int n => some n
  | _ => none

/-- An integer that is not negative. -/
def asNat? : Json → Option Nat
  | .int (.ofNat n) => some n
  | _ => none

def asString? : Json → Option String
  | .str s => some s
  | _ => none

def asList? : Json → Option (List Json)
  | .arr items => some items
  | _ => none

def asMembers? : Json → Option (List (String × Json))
  | .obj members => some members
  | _ => none

/-- A signed 32-bit integer. -/
def asInt32? (j : Json) : Option Int := do
  let n ← j.asInt?
  if -2147483648 ≤ n ∧ n ≤ 2147483647 then some n else none

/-- An unsigned 32-bit integer. -/
def asUInt32? (j : Json) : Option Nat := do
  let n ← j.asNat?
  if n < 4294967296 then some n else none

/-- An unsigned 64-bit integer. -/
def asUInt64? (j : Json) : Option Nat := do
  let n ← j.asNat?
  if n < 18446744073709551616 then some n else none

/-- Replaces the member named `key`, or adds it at the end. -/
def setMember (key : String) (value : Json) : List (String × Json) → List (String × Json)
  | [] => [(key, value)]
  | (k, v) :: rest => if k = key then (key, value) :: rest else (k, v) :: setMember key value rest

/-- A natural number as JSON. -/
def nat (n : Nat) : Json := .int n

/-- `null` for `none`. -/
def ofOption {α : Type} (f : α → Json) : Option α → Json
  | none => .null
  | some a => f a

/-- An array of encoded elements. -/
def list {α : Type} (f : α → Json) (items : List α) : Json := .arr (items.map f)

/-- An object of the members that are present. -/
def object (members : List (Option (String × Json))) : Json := .obj (members.filterMap id)

/-- A member that is always written. -/
def field (key : String) (value : Json) : Option (String × Json) := some (key, value)

/-- A member that is left out when absent. -/
def optField {α : Type} (key : String) (f : α → Json) (value : Option α) : Option (String × Json) :=
  value.map fun a => (key, f a)

end Json

end PolyglotLsp
