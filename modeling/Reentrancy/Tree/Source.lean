import Reentrancy.Failure
import Reentrancy.Json.Reader
import Reentrancy.Tree.Node

/-! The tree inside a compiler artifact. -/
namespace Reentrancy

/-- An artifact holds its tree under `ast`, or is itself the tree of a source file. -/
def treeOfArtifact (path : Option String) (artifact : Json) : Except Failure Json :=
  match artifact.field? "ast" with
  | some tree => .ok tree
  | none => if artifact.tag = "SourceUnit" then .ok artifact else .error (.noTree path)

def treeOfText (path : Option String) (text : String) : Except Failure Json :=
  match Json.ofText? text with
  | some artifact => treeOfArtifact path artifact
  | none => .error .json

end Reentrancy
