/-!
# TOML documents

A reader for TOML 1.0. The text is read into statements (a key with its value, or the header of a
table), and the statements are put together into one table. A key is set once; a table is opened by
one header at most, and neither inline tables nor arrays written out in full can be added to later.
-/

namespace PolyglotLsp.Toml

/-- A value. Fractions and dates are recognised and not looked into. -/
inductive Value where
  | text (s : String)
  | integer (n : Int)
  | float
  | boolean (b : Bool)
  | moment
  | array (items : List Value)
  | table (members : List (String × Value))
  deriving Inhabited

/-- A reader: what it read and what is left. -/
abbrev Reader (α : Type) := List Char → Option (α × List Char)

/-! ## Blanks, comments and line ends -/

def isBlank (c : Char) : Bool := c == ' ' || c == '\t'

def skipBlanks (cs : List Char) : List Char := cs.dropWhile isBlank

/-- Characters that may stand in a comment or a string as they are. -/
def isPlain (c : Char) : Bool := c == '\t' || (32 ≤ c.val && c.val != 127)

/-- Skips a comment up to the end of its line. -/
def skipComment? : List Char → Option (List Char)
  | '#' :: rest =>
    let after := rest.dropWhile isPlain
    match after with
    | [] => some []
    | '\n' :: _ => some after
    | '\r' :: '\n' :: _ => some after
    | _ => none
  | cs => some cs

/-- Reads the end of a line; the end of the text is one too. -/
def endOfLine? : List Char → Option (List Char)
  | [] => some []
  | '\n' :: rest => some rest
  | '\r' :: '\n' :: rest => some rest
  | _ => none

/-- Skips blanks, comments and line ends, with fuel for the lines. -/
def skipLines : Nat → List Char → Option (List Char)
  | 0, _ => none
  | fuel + 1, cs => do
    let cs ← skipComment? (skipBlanks cs)
    match cs with
    | '\n' :: rest => skipLines fuel rest
    | '\r' :: '\n' :: rest => skipLines fuel rest
    | _ => some cs

/-! ## Strings -/

def hexDigit? (c : Char) : Option Nat :=
  if '0' ≤ c ∧ c ≤ '9' then some (c.toNat - 48)
  else if 'a' ≤ c ∧ c ≤ 'f' then some (c.toNat - 87)
  else if 'A' ≤ c ∧ c ≤ 'F' then some (c.toNat - 55)
  else none

/-- The character with this code, unless it is half of a surrogate pair or beyond the last. -/
def scalar? (n : Nat) : Option Char :=
  if n < 0xD800 ∨ (0xDFFF < n ∧ n < 0x110000) then some (Char.ofNat n) else none

/-- Reads exactly `n` hexadecimal digits as a character. -/
def codeEscape (n : Nat) : Reader Char := fun cs => do
  let digits := cs.take n
  if digits.length ≠ n then none
  let values ← digits.mapM hexDigit?
  let c ← scalar? (values.foldl (fun acc d => acc * 16 + d) 0)
  some (c, cs.drop n)

/-- Reads what follows a backslash. -/
def escape : Reader Char
  | 'b' :: rest => some (Char.ofNat 8, rest)
  | 't' :: rest => some ('\t', rest)
  | 'n' :: rest => some ('\n', rest)
  | 'f' :: rest => some (Char.ofNat 12, rest)
  | 'r' :: rest => some ('\r', rest)
  | '"' :: rest => some ('"', rest)
  | '\\' :: rest => some ('\\', rest)
  | 'u' :: rest => codeEscape 4 rest
  | 'U' :: rest => codeEscape 8 rest
  | _ => none

/-- The rest of a string in double quotes. -/
def basicString : Nat → List Char → Reader String
  | 0, _, _ => none
  | fuel + 1, acc, cs =>
    match cs with
    | '"' :: rest => some (String.ofList acc.reverse, rest)
    | '\\' :: rest => do
      let (c, rest) ← escape rest
      basicString fuel (c :: acc) rest
    | c :: rest => if isPlain c then basicString fuel (c :: acc) rest else none
    | [] => none

/-- The rest of a string in single quotes. -/
def literalString : List Char → Reader String
  | acc, '\'' :: rest => some (String.ofList acc.reverse, rest)
  | acc, c :: rest => if isPlain c then literalString (c :: acc) rest else none
  | _, [] => none
termination_by _ cs => cs

/-- How many of the first `n` characters are `q`. -/
def leading (q : Char) (n : Nat) (cs : List Char) : Nat := ((cs.take n).takeWhile (· == q)).length

/-- After a backslash at the end of a line, all blanks and line ends are skipped. -/
def skipSpace : List Char → List Char
  | '\r' :: '\n' :: rest => skipSpace rest
  | '\n' :: rest => skipSpace rest
  | ' ' :: rest => skipSpace rest
  | '\t' :: rest => skipSpace rest
  | cs => cs

/-- The rest of a string of several lines, closed by three of the quotes `q`; up to two more may
stand right before them. Escapes are read if `escapes` says so. -/
def longString (q : Char) (escapes : Bool) : Nat → List Char → Reader String
  | 0, _, _ => none
  | fuel + 1, acc, cs =>
    match cs with
    | [] => none
    | '\r' :: '\n' :: rest => longString q escapes fuel ('\n' :: '\r' :: acc) rest
    | '\n' :: rest => longString q escapes fuel ('\n' :: acc) rest
    | c :: rest =>
      if c == q then
        let count := leading q 5 cs
        if 3 ≤ count then
          some (String.ofList (List.replicate (count - 3) q ++ acc).reverse, cs.drop count)
        else longString q escapes fuel (c :: acc) rest
      else if c == '\\' && escapes then
        match endOfLine? (skipBlanks rest), skipBlanks rest with
        | some after, _ :: _ => longString q escapes fuel acc (skipSpace after)
        | _, _ =>
          match escape rest with
          | some (c, rest) => longString q escapes fuel (c :: acc) rest
          | none => none
      else if isPlain c then longString q escapes fuel (c :: acc) rest
      else none

/-- A line end right after the opening quotes of a long string is not part of it. -/
def dropFirstLineEnd : List Char → List Char
  | '\r' :: '\n' :: rest => rest
  | '\n' :: rest => rest
  | cs => cs

/-- A string on one line. -/
def shortString (cs : List Char) : Option (String × List Char) :=
  match cs with
  | '"' :: rest => basicString (rest.length + 1) [] rest
  | '\'' :: rest => literalString [] rest
  | _ => none

def anyString (cs : List Char) : Option (String × List Char) :=
  match cs with
  | '"' :: '"' :: '"' :: rest =>
    longString '"' true (rest.length + 1) [] (dropFirstLineEnd rest)
  | '\'' :: '\'' :: '\'' :: rest =>
    longString '\'' false (rest.length + 1) [] (dropFirstLineEnd rest)
  | _ => shortString cs

/-! ## Numbers, truth values and dates -/

/-- Digits with single underscores between them. -/
def grouped (isDigit : Char → Bool) : List Char → Bool
  | [] => false
  | [c] => isDigit c
  | c :: '_' :: rest => isDigit c && grouped isDigit rest
  | c :: rest => isDigit c && grouped isDigit rest

/-- The number that grouped digits write. -/
def groupedValue (base : Nat) (cs : List Char) : Nat :=
  cs.foldl (fun n c =>
    match hexDigit? c with
    | some d => n * base + d
    | none => n) 0

def dropSign : List Char → List Char
  | '+' :: rest => rest
  | '-' :: rest => rest
  | cs => cs

/-- A decimal without a leading zero. -/
def isDecimal (cs : List Char) : Bool :=
  cs == ['0'] || (grouped Char.isDigit cs && cs.head? != some '0')

def integer? (cs : List Char) : Option Int :=
  let isIn (limit : Nat) (c : Char) : Bool := (hexDigit? c).any (· < limit)
  match cs with
  | '0' :: 'x' :: rest => if grouped (isIn 16) rest then some (groupedValue 16 rest) else none
  | '0' :: 'o' :: rest => if grouped (isIn 8) rest then some (groupedValue 8 rest) else none
  | '0' :: 'b' :: rest => if grouped (isIn 2) rest then some (groupedValue 2 rest) else none
  | '-' :: rest => if isDecimal rest then some (-(groupedValue 10 rest : Int)) else none
  | _ =>
    let rest := dropSign cs
    if isDecimal rest then some (groupedValue 10 rest) else none

/-- Splits at the first character that satisfies `p`, which is dropped. -/
def splitFirst (p : Char → Bool) (cs : List Char) : List Char × Option (List Char) :=
  match cs.dropWhile (!p ·) with
  | [] => (cs, none)
  | _ :: rest => (cs.takeWhile (!p ·), some rest)

def isFloat (cs : List Char) : Bool :=
  let body := dropSign cs
  if body == "inf".toList || body == "nan".toList then true
  else
    let (mantissa, exponent) := splitFirst (fun c => c == 'e' || c == 'E') body
    let (whole, fraction) := splitFirst (· == '.') mantissa
    isDecimal whole && (fraction.isSome || exponent.isSome) &&
      (fraction.all (grouped Char.isDigit)) &&
      (exponent.all fun e => grouped Char.isDigit (dropSign e))

def number? (cs : List Char) : Option Nat :=
  if !cs.isEmpty && cs.all Char.isDigit then some (groupedValue 10 cs) else none

def daysIn (year month : Nat) : Nat :=
  if month == 2 then
    (if year % 4 == 0 && (year % 100 != 0 || year % 400 == 0) then 29 else 28)
  else if [4, 6, 9, 11].contains month then 30
  else 31

def isDate (cs : List Char) : Bool :=
  cs.length == 10 && (cs.drop 4).head? == some '-' && (cs.drop 7).head? == some '-' &&
    match number? (cs.take 4), number? ((cs.drop 5).take 2), number? (cs.drop 8) with
    | some y, some m, some d => 1 ≤ m && m ≤ 12 && 1 ≤ d && d ≤ daysIn y m
    | _, _, _ => false

/-- Hours and minutes. -/
def isClock (cs : List Char) : Bool :=
  cs.length == 5 && (cs.drop 2).head? == some ':' &&
    match number? (cs.take 2), number? (cs.drop 3) with
    | some h, some m => h < 24 && m < 60
    | _, _ => false

/-- A time of day with seconds and perhaps a fraction of one. -/
def isTime (cs : List Char) : Bool :=
  isClock (cs.take 5) && (cs.drop 5).head? == some ':' &&
    (match number? ((cs.drop 6).take 2) with
      | some s => s ≤ 60
      | none => false) &&
    ((cs.drop 6).take 2).length == 2 &&
    match cs.drop 8 with
    | [] => true
    | '.' :: fraction => (number? fraction).isSome
    | _ => false

/-- A time of day with or without an offset. -/
def isZonedTime (cs : List Char) : Bool :=
  match cs.getLast? with
  | some 'Z' | some 'z' => isTime cs.dropLast
  | _ =>
    isTime cs ||
      (let zone := cs.drop (cs.length - 6)
       cs.length > 6 && (zone.head? == some '+' || zone.head? == some '-') &&
         isClock (zone.drop 1) && isTime (cs.take (cs.length - 6)))

def isMoment (cs : List Char) : Bool :=
  isDate cs || isTime cs ||
    (isDate (cs.take 10) &&
      match cs.drop 10 with
      | c :: rest => (c == 'T' || c == 't' || c == ' ') && isZonedTime rest
      | [] => false)

def isBareValueChar (c : Char) : Bool :=
  c.isAlphanum || c == '+' || c == '-' || c == '_' || c == '.' || c == ':'

/-- The text of a number, truth value or date. A date may have a blank before its time. -/
def bareToken (cs : List Char) : List Char × List Char :=
  let token := cs.takeWhile isBareValueChar
  let rest := cs.dropWhile isBareValueChar
  match rest with
  | ' ' :: d :: more =>
    if isDate token && d.isDigit then
      (token ++ ' ' :: (d :: more).takeWhile isBareValueChar, (d :: more).dropWhile isBareValueChar)
    else (token, rest)
  | _ => (token, rest)

def bareValue : Reader Value := fun cs =>
  let (token, rest) := bareToken cs
  if token == "true".toList then some (.boolean true, rest)
  else if token == "false".toList then some (.boolean false, rest)
  else
    match integer? token with
    | some n => some (.integer n, rest)
    | none =>
      if isFloat token then some (.float, rest)
      else if isMoment token then some (.moment, rest)
      else none

/-! ## Keys -/

def isBareKeyChar (c : Char) : Bool := c.isAlphanum || c == '_' || c == '-'

def simpleKey : Reader String := fun cs =>
  match cs with
  | '"' :: _ => shortString cs
  | '\'' :: _ => shortString cs
  | _ =>
    match cs.takeWhile isBareKeyChar with
    | [] => none
    | key => some (String.ofList key, cs.dropWhile isBareKeyChar)

/-- A key of one or more parts with dots between them, and blanks around them. -/
def dottedKey : Nat → Reader (List String)
  | 0, _ => none
  | fuel + 1, cs => do
    let (key, rest) ← simpleKey (skipBlanks cs)
    match skipBlanks rest with
    | '.' :: rest => do
      let (keys, rest) ← dottedKey fuel rest
      some (key :: keys, rest)
    | rest => some ([key], rest)

/-! ## Putting tables together -/

/-- How a table came to be. -/
inductive Origin where
  | path
  | header
  | dotted
  deriving DecidableEq, Inhabited

/-- A table under construction. -/
inductive Entry where
  | leaf (value : Value)
  | table (origin : Origin) (members : List (String × Entry))
  | tables (items : List (List (String × Entry)))
  deriving Inhabited

abbrev Members := List (String × Entry)

/-- Replaces or adds a member. -/
def setEntry (key : String) (entry : Entry) : Members → Members
  | [] => [(key, entry)]
  | (k, e) :: rest => if k = key then (key, entry) :: rest else (k, e) :: setEntry key entry rest

/-- Sets a dotted key; nothing on its way may be closed, and its last part must be new. -/
def insertDotted (members : Members) (path : List String) (value : Value) : Option Members :=
  match path with
  | [] => none
  | [key] => if (members.lookup key).isSome then none else some (setEntry key (.leaf value) members)
  | key :: rest =>
    match members.lookup key with
    | none => do
      let inner ← insertDotted [] rest value
      some (setEntry key (.table .dotted inner) members)
    | some (.table origin inner) =>
      if origin = .header then none
      else do
        let inner ← insertDotted inner rest value
        some (setEntry key (.table origin inner) members)
    | some _ => none

/-- Applies `f` to the table at a path of headers, making tables that are missing. -/
def modifyAt (f : Members → Option Members) (members : Members) (path : List String) :
    Option Members :=
  match path with
  | [] => f members
  | key :: rest =>
    match members.lookup key with
    | none => do
      let inner ← modifyAt f [] rest
      some (setEntry key (.table .path inner) members)
    | some (.table origin inner) => do
      let inner ← modifyAt f inner rest
      some (setEntry key (.table origin inner) members)
    | some (.tables items) => do
      let last ← items.getLast?
      let inner ← modifyAt f last rest
      some (setEntry key (.tables (items.dropLast ++ [inner])) members)
    | some (.leaf _) => none

/-- Opens the table `key`. -/
def openTable (key : String) (members : Members) : Option Members :=
  match members.lookup key with
  | none => some (setEntry key (.table .header []) members)
  | some (.table .path inner) => some (setEntry key (.table .header inner) members)
  | some _ => none

/-- Opens one more table of the array `key`. -/
def openElement (key : String) (members : Members) : Option Members :=
  match members.lookup key with
  | none => some (setEntry key (.tables [[]]) members)
  | some (.tables items) => some (setEntry key (.tables (items ++ [[]])) members)
  | some _ => none

mutual

/-- The finished value of a table under construction. -/
def Entry.value : Entry → Value
  | .leaf v => v
  | .table _ members => .table (membersValue members)
  | .tables items => .array (tablesValue items)

def membersValue : List (String × Entry) → List (String × Value)
  | [] => []
  | (k, e) :: rest => (k, e.value) :: membersValue rest

def tablesValue : List (List (String × Entry)) → List Value
  | [] => []
  | m :: rest => .table (membersValue m) :: tablesValue rest

end

/-! ## Values -/

mutual

/-- Any value. -/
def value : Nat → Reader Value
  | 0, _ => none
  | fuel + 1, cs =>
    match cs with
    | '"' :: _ | '\'' :: _ => (anyString cs).map fun (s, rest) => (.text s, rest)
    | '[' :: rest => do
      let rest ← skipLines (rest.length + 1) rest
      items fuel [] rest
    | c :: rest =>
      if c.val == 123 then
        match skipBlanks rest with
        | d :: more => if d.val == 125 then some (.table [], more) else pairs fuel [] (d :: more)
        | [] => none
      else bareValue cs
    | [] => none

/-- The rest of an array, at an element or at its end. -/
def items : Nat → List Value → Reader Value
  | 0, _, _ => none
  | fuel + 1, acc, cs =>
    match cs with
    | ']' :: rest => some (.array acc.reverse, rest)
    | _ => do
      let (v, rest) ← value fuel cs
      let rest ← skipLines (rest.length + 1) rest
      match rest with
      | ',' :: rest => do
        let rest ← skipLines (rest.length + 1) rest
        items fuel (v :: acc) rest
      | ']' :: rest => some (.array (v :: acc).reverse, rest)
      | _ => none

/-- The rest of an inline table, at a key. -/
def pairs : Nat → Members → Reader Value
  | 0, _, _ => none
  | fuel + 1, acc, cs => do
    let (key, rest) ← dottedKey (cs.length + 1) cs
    match rest with
    | '=' :: rest => do
      let (v, rest) ← value fuel (skipBlanks rest)
      let acc ← insertDotted acc key v
      match skipBlanks rest with
      | ',' :: rest => pairs fuel acc rest
      | c :: rest => if c.val == 125 then some ((Entry.table .header acc).value, rest) else none
      | [] => none
    | _ => none

end

/-! ## Statements -/

/-- One line of a document, apart from empty ones. -/
inductive Statement where
  | set (key : List String) (value : Value)
  | header (key : List String)
  | element (key : List String)

/-- Reads a statement up to what may follow it on its line. -/
def statement : Reader Statement := fun cs =>
  match cs with
  | '[' :: '[' :: rest => do
    let (key, rest) ← dottedKey (rest.length + 1) rest
    match rest with
    | ']' :: ']' :: rest => some (.element key, rest)
    | _ => none
  | '[' :: rest => do
    let (key, rest) ← dottedKey (rest.length + 1) rest
    match rest with
    | ']' :: rest => some (.header key, rest)
    | _ => none
  | _ => do
    let (key, rest) ← dottedKey (cs.length + 1) cs
    match rest with
    | '=' :: rest => do
      let rest := skipBlanks rest
      let (v, rest) ← value (2 * rest.length + 2) rest
      some (.set key v, rest)
    | _ => none

/-- Reads all statements of a document. -/
def statements : Nat → List Statement → List Char → Option (List Statement)
  | 0, _, _ => none
  | fuel + 1, acc, cs => do
    let cs ← skipLines (cs.length + 1) cs
    match cs with
    | [] => some acc.reverse
    | _ => do
      let (s, rest) ← statement cs
      let rest ← skipComment? (skipBlanks rest)
      let rest ← endOfLine? rest
      statements fuel (s :: acc) rest

/-- The document so far and the path of the open table. -/
structure Draft where
  members : Members
  current : List String

def Draft.add (d : Draft) : Statement → Option Draft
  | .set key v => do
    let members ← modifyAt (insertDotted · key v) d.members d.current
    some { d with members }
  | .header key => do
    let last ← key.getLast?
    let members ← modifyAt (openTable last) d.members key.dropLast
    some ⟨members, key⟩
  | .element key => do
    let last ← key.getLast?
    let members ← modifyAt (openElement last) d.members key.dropLast
    some ⟨members, key⟩

/-- A mark at the front that says how the text is encoded. -/
def dropMark : List Char → List Char
  | c :: rest => if c.val == 0xFEFF then rest else c :: rest
  | [] => []

/-- Reads a document as one table. -/
def parse? (s : String) : Option (List (String × Value)) := do
  let cs := dropMark s.toList
  let all ← statements (cs.length + 1) [] cs
  let draft ← all.foldlM Draft.add ⟨[], []⟩
  some (membersValue draft.members)

end PolyglotLsp.Toml
