import PolyglotLsp.Url.Parse

/-!
# File paths

The path that a URL without a remote host names on the local machine.
-/

namespace PolyglotLsp.Url

/-- A path that ends in a drive letter needs a slash to be a directory. -/
def closeDrive (path : List Char) : List Char :=
  let n := path.length
  if 2 < n && isDriveLetter (path.drop (n - 2)) then path ++ ['/'] else path

/-- The local path of a URL; `none` if it has no segments or names another machine. -/
def filePath? (u : Url) : Option String :=
  match u.path with
  | .opaqueText _ => none
  | .segments [] => none
  | .segments items =>
    let host := (u.authority.map (·.host)).getD []
    if host.isEmpty || host == "localhost".toList then
      some (String.ofList (closeDrive (items.flatMap fun s => '/' :: decode s)))
    else none

end PolyglotLsp.Url
