import Reentrancy.Text.Search

/-! Files as a tree of named entries. A path is read from the entry at which it starts;
entries of a folder are kept in the order of their names. -/
namespace Reentrancy

inductive Entry where
  | file (content : String)
  | folder (entries : List (String × Entry))
deriving Inhabited

inductive PathError where
  | missing
  | notFolder
  | isFolder
deriving DecidableEq, Repr

def PathError.reason : PathError → String
  | missing => "No such file or directory (os error 2)"
  | notFolder => "Not a directory (os error 20)"
  | isFolder => "Is a directory (os error 21)"

namespace Path

def join (base name : String) : String :=
  if base = "" then name
  else if base.toList.getLast? = some '/' then base ++ name
  else base ++ "/" ++ name

def isAbsolute (path : String) : Bool := path.toList.head? == some '/'

/-- The parts of a path. An absolute path starts at an entry `/` of its own. A final slash
asks for a folder, like a final dot. -/
def components (path : String) : List String :=
  let parts := (Text.pieces '/' path.toList).map String.ofList
  (if isAbsolute path then ["/"] else []) ++ parts.dropLast.filter (· != "") ++
    (if parts.getLast? == some "" then ["."] else parts.getLast?.toList)

/-- Takes out dots, and a name together with the `..` after it. -/
def direct : List String → List String
  | [] => []
  | name :: rest =>
    if name = "." then direct rest
    else match direct rest with
      | ".." :: further => if name = ".." then ".." :: ".." :: further else further
      | further => name :: further

/-- Stem and extension: the parts before and after the last dot, unless the name has no
other dot than one at its start. -/
def stemAndExtension (name : String) : String × Option String :=
  match (Text.pieces '.' name.toList).reverse with
  | last :: first :: rest =>
    let stem := (first :: rest).reverse
    if stem = [[]] then (name, none)
    else (".".intercalate (stem.map String.ofList), some (String.ofList last))
  | _ => (name, none)

end Path

namespace Entry

def empty : Entry := folder []

def lookup (name : String) : List (String × Entry) → Option Entry
  | [] => none
  | (key, entry) :: rest => if name = key then some entry else lookup name rest

/-- A folder does not replace a folder. -/
def put (name : String) (entry : Entry) : List (String × Entry) → List (String × Entry)
  | [] => [(name, entry)]
  | (key, old) :: rest =>
    if name < key then (name, entry) :: (key, old) :: rest
    else if name = key then
      match entry, old with
      | folder [], folder inside => (key, folder inside) :: rest
      | _, _ => (key, entry) :: rest
    else (key, old) :: put name entry rest

def insertAt (entry : Entry) : List String → List (String × Entry) → List (String × Entry)
  | [], entries => entries
  | [name], entries => put name entry entries
  | name :: rest, entries =>
    let inside := match lookup name entries with
      | some (folder inside) => inside
      | _ => []
    put name (folder (insertAt entry rest inside)) (entries.filter fun one => one.1 != name)

def insert (root : Entry) (path : String) (entry : Entry) : Entry :=
  match root with
  | folder entries => folder (insertAt entry (Path.direct (Path.components path)) entries)
  | file content => file content

/-- Follows a path; `above` are the folders around the one at hand. What lies outside the
first folder is an entry `..` of it. -/
def follow (above : List Entry) (here : Entry) : List String → Except PathError Entry
  | [] => .ok here
  | name :: rest =>
    match here with
    | file _ => .error .notFolder
    | folder entries =>
      if name = "." then follow above here rest
      else if name = ".." then
        match above, lookup name entries with
        | outer :: further, _ => follow further outer rest
        | [], some outside => follow [] outside rest
        | [], none => .error .missing
      else
        match lookup name entries with
        | some inner => follow (here :: above) inner rest
        | none => .error .missing

def resolve (root : Entry) (path : String) : Except PathError Entry :=
  if path = "" then .error .missing else follow [] root (Path.components path)

def readText (root : Entry) (path : String) : Except PathError String :=
  match root.resolve path with
  | .ok (file content) => .ok content
  | .ok (folder _) => .error .isFolder
  | .error cause => .error cause

def isFile (root : Entry) (path : String) : Bool :=
  match root.resolve path with
  | .ok (file _) => true
  | _ => false

mutual

def files (path name : String) : Entry → List (String × String)
  | file _ => [(path, name)]
  | folder entries => filesIn path entries

def filesIn (path : String) : List (String × Entry) → List (String × String)
  | [] => []
  | (name, entry) :: rest => files (Path.join path name) name entry ++ filesIn path rest

end

end Entry
end Reentrancy
