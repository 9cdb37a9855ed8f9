import Reentrancy.Analysis
import Reentrancy.Project.BuildTool
import Reentrancy.Project.Directory
import Reentrancy.Tree.Source

/-! Projects: sources stand under `src`, and the build leaves the artifact of the source
`N.sol` at `out/N.sol/N.json`. -/
namespace Reentrancy

structure Project where
  sources : Table String
  /-- Name and path of each artifact. -/
  artifacts : List (String × String)
  steps : List BuildStep := []

namespace Project

/-- Of several sources with one name the last one counts. -/
def findSources (files : Entry) (root : String) : Table String :=
  let folder := Path.join root "src"
  match files.resolve folder with
  | .ok entry =>
    Table.ofList ((entry.files folder "src").filterMap fun (path, name) =>
      match Path.stemAndExtension name with
      | (stem, some "sol") => some (stem, path)
      | _ => none)
  | .error _ => Table.empty

def artifactPath (root name : String) : String :=
  Path.join (Path.join (Path.join root "out") (name ++ ".sol")) (name ++ ".json")

def findArtifacts (files : Entry) (root : String) (names : List String) : List (String × String) :=
  (names.map fun name => (name, artifactPath root name)).filter fun artifact =>
    files.isFile artifact.2

/-- Builds unless told not to. Without a build there are no artifacts. -/
def prepare (tool : BuildTool) (files : Entry) (root : String) (skipBuild : Bool) : Project :=
  let sources := findSources files root
  let (steps, built) := if skipBuild then ([], true) else tool.rebuild
  { sources, steps, artifacts := if built then findArtifacts files root sources.keys else [] }

end Project

def analyzeArtifact (files : Entry) (path : String) (source : Option String) (config : Config) :
    Except Failure Artifact :=
  match files.readText path with
  | .error cause => .error (.io cause.reason)
  | .ok text =>
    match treeOfText (some path) text with
    | .error failure => .error failure
    | .ok tree => .ok ⟨path, source, (SourceUnit.ofJson tree).analyze config⟩

/-- The artifacts of a project in the order of their names; those that cannot be read are
left out. -/
def Project.analyze (project : Project) (files : Entry) (config : Config) : List Artifact :=
  project.artifacts.filterMap fun (name, path) =>
    let source := (project.sources.get? name).bind fun source => (files.readText source).toOption
    (analyzeArtifact files path source config).toOption

end Reentrancy
