import PolyglotLsp.Json

/-!
# Compact text of a JSON value

One text per value: no blanks, object members in increasing key order, and nothing escaped but the
quote, the backslash and the control characters below the space.
-/

namespace PolyglotLsp.Json

def hexDigit (n : Nat) : Char :=
  if n < 10 then Char.ofNat (48 + n) else Char.ofNat (87 + n)

/-- One character inside a JSON string. -/
def escapeChar (c : Char) : String :=
  if c = '"' then "\\\""
  else if c = '\\' then "\\\\"
  else if c = '\n' then "\\n"
  else if c = '\r' then "\\r"
  else if c = '\t' then "\\t"
  else if c.val = 8 then "\\b"
  else if c.val = 12 then "\\f"
  else if c.val < 32 then
    "\\u00".push (hexDigit (c.toNat / 16)) |>.push (hexDigit (c.toNat % 16))
  else c.toString

def quote (s : String) : String :=
  s.foldl (fun acc c => acc ++ escapeChar c) "\"" ++ "\""

/-- A decimal number with its point in place. -/
def decimalText (mantissa : Int) (places : Nat) : String :=
  let digits := toString mantissa.natAbs
  let padded := "".pushn '0' (places + 1 - digits.length) ++ digits
  let cs := padded.toList
  let whole := cs.take (cs.length - places)
  let fraction := cs.drop (cs.length - places)
  (if mantissa < 0 then "-" else "") ++ String.ofList whole ++
    (if places = 0 then "" else "." ++ String.ofList fraction)

mutual

/-- The compact text of a value. -/
def compact : Json → String
  | .null => "null"
  | .bool b => if b then "true" else "false"
  | .int n => toString n
  | .decimal m p => decimalText m p
  | .str s => quote s
  | .arr items => "[" ++ ",".intercalate (compactItems items) ++ "]"
  | .obj members =>
    let sorted := (compactMembers members).mergeSort (fun a b => decide (a.1 ≤ b.1))
    "\x7b" ++ ",".intercalate (sorted.map fun m => quote m.1 ++ ":" ++ m.2) ++ "\x7d"

def compactItems : List Json → List String
  | [] => []
  | j :: rest => compact j :: compactItems rest

def compactMembers : List (String × Json) → List (String × String)
  | [] => []
  | (k, v) :: rest => (k, compact v) :: compactMembers rest

end

end PolyglotLsp.Json
