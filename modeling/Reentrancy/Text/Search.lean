/-! Searching and cutting text. -/
namespace Reentrancy.Text

def occurs (part : List Char) : List Char → Bool
  | [] => part.isEmpty
  | c :: rest => part.isPrefixOf (c :: rest) || occurs part rest

def contains (text part : String) : Bool := occurs part.toList text.toList

def pieces (separator : Char) : List Char → List (List Char)
  | [] => [[]]
  | c :: rest =>
    if c = separator then [] :: pieces separator rest
    else match pieces separator rest with
      | [] => [[c]]
      | first :: others => (c :: first) :: others

/-- The lines of a text, each with the line feed that ends it. The first line goes on from `seen`,
which is backwards. -/
def linesFrom (seen : List Char) : List Char → List String
  | [] => if seen.isEmpty then [] else [String.ofList seen.reverse]
  | c :: rest =>
    if c = '\n' then String.ofList (c :: seen).reverse :: linesFrom [] rest
    else linesFrom (c :: seen) rest

def lines (text : String) : List String := linesFrom [] text.toList

/-- What follows the last separator, or the whole text. -/
def afterLast (separator : Char) (text : String) : String :=
  String.ofList ((pieces separator text.toList).getLastD [])

def lowerAscii (text : String) : String := String.ofList (text.toList.map Char.toLower)

end Reentrancy.Text
