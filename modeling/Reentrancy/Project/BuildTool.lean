import Reentrancy.Failure
import Reentrancy.Text.Blank

/-! The tool that builds a project. It is run as a program of its own; here it is known by
what comes of running it. -/
namespace Reentrancy

inductive RunResult where
  | success
  | exited (status : String) (errors : String)
  | notStarted (reason : String)
deriving DecidableEq, Repr

inductive BuildStep where
  | clean
  | build
deriving DecidableEq, Repr

namespace BuildStep

def arguments : BuildStep → List String
  | clean => ["clean"]
  | build => ["build", "--ast"]

def name : BuildStep → String
  | clean => "clean"
  | build => "build"

end BuildStep

structure BuildTool where
  program : String
  run : BuildStep → RunResult

namespace BuildTool

def standardProgram : String := "forge"

def perform (tool : BuildTool) (step : BuildStep) : Except Failure Unit :=
  let command := tool.program ++ " " ++ " ".intercalate step.arguments
  match tool.run step with
  | .success => .ok ()
  | .exited status errors =>
    .error (.build (command ++ " exited with " ++ status ++ ": " ++
      String.ofList (Text.trim errors.toList)))
  | .notStarted reason => .error (.build (command ++ ": " ++ reason))

/-- Cleans and builds. Gives the steps that were started and whether all went well. -/
def rebuild (tool : BuildTool) : List BuildStep × Bool :=
  match tool.perform .clean with
  | .error _ => ([.clean], false)
  | .ok _ =>
    match tool.perform .build with
    | .error _ => ([.clean, .build], false)
    | .ok _ => ([.clean, .build], true)

end BuildTool
end Reentrancy
