import Reentrancy.CommandLine

/-! The program. It looks up the files that its arguments name and leaves all else to
`CommandLine`. Build tools are not started from here: a project is built beforehand and
analysed with `--skip-build`. -/
namespace Reentrancy.Main

partial def load (root : Entry) (path : String) : IO Entry := do
  try
    let real ← IO.FS.realPath path
    if ← real.isDir then
      let mut loaded := root.insert path .empty
      for entry in ← real.readDir do
        loaded ← load loaded (Path.join path entry.fileName)
      return loaded
    else
      return root.insert path (.file (← IO.FS.readFile path))
  catch _ => return root

def loadWay (root : Entry) (path : String) : IO Entry := do
  let mut loaded := root
  let mut way := ""
  for name in (Path.components path).dropLast do
    way := Path.join way name
    try
      let real ← IO.FS.realPath way
      if ← real.pathExists then
        loaded := loaded.insert way (if ← real.isDir then .empty else .file "")
    catch _ => pure ()
  return loaded

def pathsOf (request : CommandLine.Request) : List String :=
  request.config.toList ++ match request.command with
    | .analyze project .. => [Path.join project "src", Path.join project "out"]
    | .tree artifact source => artifact :: source.toList

def filesOf (arguments : List String) : IO Entry := do
  let mut files := Entry.empty
  if let some request := CommandLine.read arguments then
    for path in pathsOf request do
      files ← load (← loadWay files path) path
  return files

def tools (program : String) : BuildTool where
  program
  run := fun _ => .notStarted "build tools are not started"

def run (arguments : List String) : IO UInt32 := do
  let outcome := CommandLine.run tools (← filesOf arguments) arguments
  IO.print outcome.text
  match outcome with
  | .usage => IO.eprintln "usage: analyze PROJECT [--skip-build] | ast ARTIFACT [--source FILE]"
  | .failed cause => IO.eprintln ("error: " ++ cause.message)
  | .answered .. => pure ()
  return outcome.exitCode.toUInt32

end Reentrancy.Main

def main (arguments : List String) : IO UInt32 := Reentrancy.Main.run arguments
