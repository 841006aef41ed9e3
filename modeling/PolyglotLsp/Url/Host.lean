import PolyglotLsp.Url.Percent

/-!
# Hosts

The host of a URL is written in one way: a domain name in lower case, an IPv4 address in dotted
decimals, an IPv6 address with its longest run of zero pieces left out. Domain names are ASCII.
-/

namespace PolyglotLsp.Url

/-- Characters that no host may hold. -/
def forbiddenHost (c : Char) : Bool :=
  c.val == 0 || c == '\t' || c == '\n' || c == '\r' || c == ' ' || c == '#' || c == '/' ||
    c == ':' || c == '<' || c == '>' || c == '?' || c == '@' || c == '[' || c == '\\' ||
    c == ']' || c == '^' || c == '|'

/-- Characters that no domain name may hold. -/
def forbiddenDomain (c : Char) : Bool :=
  forbiddenHost c || c == '%' || c.val < 32 || c.val == 127

/-- Splits a list at every element that satisfies `sep`. -/
def splitAll (sep : Char → Bool) : List Char → List (List Char)
  | [] => [[]]
  | c :: rest =>
    if sep c then [] :: splitAll sep rest
    else
      match splitAll sep rest with
      | [] => [[c]]
      | first :: more => (c :: first) :: more

/-- The number written in some base. -/
def digits? (base : Nat) (cs : List Char) : Option Nat :=
  cs.foldlM (fun n c => do
    let d ← hexValue? c
    if d.toNat < base then some (n * base + d.toNat) else none) 0

/-- One part of an IPv4 address: decimal, octal after `0`, hexadecimal after `0x`. -/
def ipv4Number? : List Char → Option Nat
  | [] => none
  | '0' :: 'x' :: rest => digits? 16 rest
  | '0' :: 'X' :: rest => digits? 16 rest
  | ['0'] => some 0
  | '0' :: rest => digits? 8 rest
  | cs => digits? 10 cs

/-- The labels of a name, without the empty one after a final dot. -/
def hostLabels (cs : List Char) : List (List Char) :=
  let parts := splitAll (· == '.') cs
  match parts.getLast? with
  | some [] => if parts.length > 1 then parts.dropLast else parts
  | _ => parts

/-- Whether the last label of a name makes the whole name an IPv4 address. -/
def endsInNumber (cs : List Char) : Bool :=
  match (hostLabels cs).getLast? with
  | none => false
  | some [] => false
  | some last => last.all Char.isDigit ||
      match last with
      | '0' :: 'x' :: rest => (digits? 16 rest).isSome
      | '0' :: 'X' :: rest => (digits? 16 rest).isSome
      | _ => false

/-- The address written by a list of numbers, the last of which fills all remaining bytes. -/
def ipv4Value? (numbers : List Nat) : Option Nat := do
  let last ← numbers.getLast?
  let first := numbers.dropLast
  if first.all (· < 256) && last < Nat.pow 256 (4 - first.length) then
    some (first.zipIdx.foldl (fun sum (n, i) => sum + n * Nat.pow 256 (3 - i)) last)
  else none

def ipv4Text (n : Nat) : List Char :=
  let part (i : Nat) := (toString (n / Nat.pow 256 i % 256)).toList
  part 3 ++ '.' :: part 2 ++ '.' :: part 1 ++ '.' :: part 0

def ipv4Host? (cs : List Char) : Option (List Char) := do
  let labels := hostLabels cs
  if labels.length > 4 then none
  let numbers ← labels.mapM ipv4Number?
  ipv4Text <$> ipv4Value? numbers

/-- The sixteen-bit pieces of one side of an IPv6 address; its last item may be a dotted IPv4
address, which gives two pieces. -/
def ipv6Pieces? (cs : List Char) : Option (List Nat) :=
  if cs.isEmpty then some []
  else
    let items := splitAll (· == ':') cs
    items.zipIdx.foldlM (fun acc (item, i) => do
      if item.contains '.' then
        if i + 1 ≠ items.length then none
        let parts := splitAll (· == '.') item
        let numbers ← parts.mapM fun p =>
          if p.isEmpty || !p.all Char.isDigit || (p.length > 1 && p.head? == some '0') then none
          else digits? 10 p
        match numbers with
        | [a, b, c, d] =>
          if [a, b, c, d].all (· < 256) then some (acc ++ [a * 256 + b, c * 256 + d]) else none
        | _ => none
      else if item.isEmpty || item.length > 4 then none
      else do
        let n ← digits? 16 item
        some (acc ++ [n])) []

/-- Splits at the first `::`. -/
def splitDoubleColon : List Char → Option (List Char × List Char)
  | ':' :: ':' :: rest => some ([], rest)
  | c :: rest => (splitDoubleColon rest).map fun (a, b) => (c :: a, b)
  | [] => none

/-- The eight pieces of an IPv6 address. -/
def ipv6Address? (cs : List Char) : Option (List Nat) := do
  match splitDoubleColon cs with
  | none =>
    let pieces ← ipv6Pieces? cs
    if pieces.length = 8 then some pieces else none
  | some (left, right) =>
    let a ← ipv6Pieces? left
    let b ← ipv6Pieces? right
    if left.contains '.' then none
    if a.length + b.length < 8 then
      some (a ++ List.replicate (8 - a.length - b.length) 0 ++ b)
    else none

/-- The longest run of zeros of length two or more, first of equals: its start and its length. -/
def longestZeros (pieces : List Nat) : Option (Nat × Nat) :=
  let runs := (List.range pieces.length).map fun i =>
    (i, ((pieces.drop i).takeWhile (· == 0)).length)
  runs.foldl (fun best run =>
    if run.2 < 2 then best
    else
      match best with
      | none => some run
      | some b => if b.2 < run.2 then some run else best) none

def hexText (n : Nat) : List Char := Nat.toDigits 16 n

def colonJoin (pieces : List Nat) : List Char :=
  [':'].intercalate (pieces.map hexText)

def ipv6Text (pieces : List Nat) : List Char :=
  let body :=
    match longestZeros pieces with
    | none => colonJoin pieces
    | some (i, n) => colonJoin (pieces.take i) ++ ':' :: ':' :: colonJoin (pieces.drop (i + n))
  '[' :: body ++ [']']

/-- A bracketed IPv6 host. -/
def ipv6Host? (cs : List Char) : Option (List Char) :=
  match cs.getLast? with
  | some ']' => ipv6Text <$> ipv6Address? cs.dropLast
  | _ => none

/-- The host of a URL whose scheme has its own rules for hosts. International names are not covered:
a name with a character beyond ASCII, written as it is or behind escapes, is refused instead of
being written in Punycode, and one that is in Punycode already is taken as it is. -/
def domainHost? (cs : List Char) : Option (List Char) :=
  match cs with
  | '[' :: rest => ipv6Host? rest
  | _ =>
    let name := (decode cs).map Char.toLower
    if name.isEmpty || !name.all (fun c => c.val < 128 && !forbiddenDomain c) then none
    else if endsInNumber name then ipv4Host? name
    else some name

/-- The host of any other URL. -/
def opaqueHost? (cs : List Char) : Option (List Char) :=
  match cs with
  | '[' :: rest => ipv6Host? rest
  | _ => if cs.any forbiddenHost then none else some (encode isControl cs)

end PolyglotLsp.Url
