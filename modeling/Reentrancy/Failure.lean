import Reentrancy.Config

/-! Why an analysis could not be run. -/
namespace Reentrancy

inductive Failure where
  | io (reason : String)
  | json
  | build (reason : String)
  | config (cause : ConfigError)
  | noTree (path : Option String)
deriving DecidableEq, Repr

namespace Failure

def message : Failure → String
  | io reason => "IO error: " ++ reason
  | json => "JSON error"
  | build reason => "Build error: " ++ reason
  | config cause => "Configuration error: " ++ cause.message
  | noTree path =>
    "Parse error: " ++ ((path.map fun path => path ++ ": ").getD "") ++
      "artifact has no \"ast\" key and is not a SourceUnit"

/-- The message is fixed by this library, not by a reader of another format. -/
def hasMessage : Failure → Bool
  | json | config .yaml => false
  | _ => true

end Failure
end Reentrancy
