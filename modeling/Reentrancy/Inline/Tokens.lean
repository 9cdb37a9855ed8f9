/-! Identifier tokens inside a text: a letter, `_` or `$`, and then letters, digits, `_`
and `$` as far as they go. -/
namespace Reentrancy.Token

def isStart (c : Char) : Bool := c.isAlpha || c == '_' || c == '$'

def isPart (c : Char) : Bool := isStart c || c.isDigit

def renamed (rename : String → Option String) (token : List Char) : List Char :=
  ((rename (String.ofList token)).map String.toList).getD token

/-- Renames token by token; `token` is the one being read, backwards. -/
def replaceFrom (rename : String → Option String) (token : List Char) : List Char → List Char
  | [] => renamed rename token.reverse
  | c :: rest =>
    if token.isEmpty then
      if isStart c then replaceFrom rename [c] rest else c :: replaceFrom rename [] rest
    else if isPart c then replaceFrom rename (c :: token) rest
    else renamed rename token.reverse ++ c :: replaceFrom rename [] rest

def replace (rename : String → Option String) (text : String) : String :=
  String.ofList (replaceFrom (fun token => if token = "" then none else rename token) []
    text.toList)

end Reentrancy.Token
