/-!
# Log levels

A configured level is one of six words in any case, with any white space around it; everything else
means the default level.
-/

namespace PolyglotLsp.Config

/-- How much is logged. -/
inductive LogLevel where
  | off
  | error
  | warn
  | info
  | debug
  | trace
  deriving DecidableEq, Repr, Inhabited

/-- Characters with the property White_Space. -/
def isWhiteSpace (c : Char) : Bool :=
  let n := c.toNat
  (9 ≤ n && n ≤ 13) || n == 32 || n == 0x85 || n == 0xA0 || n == 0x1680 ||
    (0x2000 ≤ n && n ≤ 0x200A) || n == 0x2028 || n == 0x2029 || n == 0x202F || n == 0x205F ||
    n == 0x3000

namespace LogLevel

def default : LogLevel := .warn

/-- The name in upper case. -/
def name : LogLevel → String
  | .off => "OFF"
  | .error => "ERROR"
  | .warn => "WARN"
  | .info => "INFO"
  | .debug => "DEBUG"
  | .trace => "TRACE"

def all : List LogLevel := [.off, .error, .warn, .info, .debug, .trace]

/-- A text without white space at its ends. -/
def trim (s : String) : String :=
  String.ofList (((s.toList.dropWhile isWhiteSpace).reverse.dropWhile isWhiteSpace).reverse)

/-- The level that a setting names. -/
def ofSetting (level : Option String) : LogLevel :=
  match level with
  | none => default
  | some s => (all.find? fun l => l.name == (trim s).map Char.toUpper).getD default

end LogLevel

end PolyglotLsp.Config
