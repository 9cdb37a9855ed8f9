import Reentrancy.ConfigFile
import Reentrancy.Project
import Reentrancy.Report.Json
import Reentrancy.Report.Text

/-! The command line. Two commands, `analyze` for a project and `ast` for one artifact,
have options of their own; the others may stand before or after the command. -/
namespace Reentrancy.CommandLine

/-! ## Arguments -/

structure Known where
  flags : List String
  settings : List String

def shared : Known := ⟨["json", "verbose"], ["preset", "config"]⟩

def Known.extend (known : Known) (flags settings : List String) : Known :=
  ⟨known.flags ++ flags, known.settings ++ settings⟩

inductive Item where
  | flag (name : String)
  | setting (name value : String)
  | word (text : String)
deriving DecidableEq, Repr

inductive Shape where
  | word
  /-- Only words follow. -/
  | divider
  | flag (name : String)
  | setting (name value : String)
  | opening (name : String)
  | unknown

def isHyphenated (argument : String) : Bool :=
  match argument.toList with
  | '-' :: _ :: _ => true
  | _ => false

/-- An option is `--name` or `--name=value`. -/
def longShape (known : Known) (name : String) (value : Option String) : Shape :=
  if known.flags.contains name then
    if value.isNone then .flag name else .unknown
  else if known.settings.contains name then
    match value with
    | some value => .setting name value
    | none => .opening name
  else .unknown

def shape (known : Known) (argument : String) : Shape :=
  match argument.toList with
  | ['-', '-'] => .divider
  | '-' :: '-' :: rest =>
    let name := String.ofList (rest.takeWhile (· != '='))
    match rest.dropWhile (· != '=') with
    | [] => longShape known name none
    | _ :: value => longShape known name (some (String.ofList value))
  | ['-', 'v'] => .flag "verbose"
  | '-' :: _ :: _ => .unknown
  | _ => .word

def readItems (known : Known) (toWord : Bool) : List String → Option (List Item × List String)
  | [] => some ([], [])
  | argument :: rest =>
    match shape known argument with
    | .word =>
      if toWord then some ([], argument :: rest)
      else (readItems known toWord rest).map fun (items, left) => (.word argument :: items, left)
    | .divider => if toWord then none else some (rest.map Item.word, [])
    | .flag name =>
      (readItems known toWord rest).map fun (items, left) => (.flag name :: items, left)
    | .setting name value =>
      (readItems known toWord rest).map fun (items, left) => (.setting name value :: items, left)
    | .opening name =>
      match rest with
      | value :: further =>
        if isHyphenated value then none
        else (readItems known toWord further).map fun (items, left) =>
          (.setting name value :: items, left)
      | [] => none
    | .unknown => none

def Item.name? : Item → Option String
  | flag name => some name
  | setting name _ => some name
  | word _ => none

def pathSettings : List String := ["config", "source"]

def areSound (items : List Item) : Bool :=
  let names := items.filterMap Item.name?
  names.eraseDups.length == names.length && items.all fun
    | .setting name value => !(pathSettings.contains name && value == "")
    | .word text => text != ""
    | .flag _ => true

def hasFlag (items : List Item) (name : String) : Bool := items.contains (.flag name)

def setting? (items : List Item) (name : String) : Option String :=
  items.findSome? fun
    | .setting key value => if key = name then some value else none
    | _ => none

def words (items : List Item) : List String :=
  items.filterMap fun
    | .word text => some text
    | _ => none

/-! ## Commands -/

inductive Command where
  | analyze (project : String) (skipBuild : Bool) (tool : String)
  | tree (artifact : String) (source : Option String)
deriving DecidableEq, Repr

structure Request where
  command : Command
  preset : Option String := none
  config : Option String := none
  json : Bool := false
deriving DecidableEq, Repr

/-- Where an option stands both before and after the command, the latter counts. -/
def request (before after : List Item) (command : Command) : Request where
  command
  preset := (setting? after "preset").or (setting? before "preset")
  config := (setting? after "config").or (setting? before "config")
  json := hasFlag before "json" || hasFlag after "json"

def readCommand (before : List Item) (name : String) (arguments : List String) : Option Request :=
  match name with
  | "analyze" => do
    let (items, _) ← readItems (shared.extend ["skip-build"] ["forge"]) false arguments
    let [project] := words items | none
    if areSound items then
      return request before items (.analyze project (hasFlag items "skip-build")
        ((setting? items "forge").getD BuildTool.standardProgram))
    else none
  | "ast" => do
    let (items, _) ← readItems (shared.extend [] ["source"]) false arguments
    let [artifact] := words items | none
    if areSound items then return request before items (.tree artifact (setting? items "source"))
    else none
  | _ => none

def read (arguments : List String) : Option Request := do
  let (before, rest) ← readItems shared true arguments
  let name :: following := rest | none
  if areSound before then readCommand before name following else none

/-! ## Running -/

inductive Outcome where
  | usage
  | failed (cause : Failure)
  | answered (text : String) (findings : Nat)
deriving DecidableEq, Repr

namespace Outcome

/-- Zero without findings, 1 with findings, 2 if the run could not be done. -/
def exitCode : Outcome → Nat
  | answered _ findings => if findings = 0 then 0 else 1
  | usage | failed _ => 2

def text : Outcome → String
  | answered text _ => text
  | usage | failed _ => ""

end Outcome

/-- A configuration file counts more than a preset. -/
def loadConfig (files : Entry) (request : Request) : Except Failure Config :=
  match request.config with
  | some path =>
    match files.readText path with
    | .error cause => .error (.config (.io cause.reason))
    | .ok text => (Config.ofYaml text).mapError .config
  | none =>
    match request.preset with
    | some name => ((Preset.ofText name).map Config.ofPreset).mapError .config
    | none => .ok .standard

def reportText (request : Request) (artifacts : List Artifact) : String :=
  if request.json then Report.jsonText artifacts ++ "\n"
  else String.join (artifacts.map Artifact.text)

def artifacts (tools : String → BuildTool) (files : Entry) (config : Config) :
    Command → Except Failure (List Artifact)
  | .analyze project skipBuild tool =>
    .ok ((Project.prepare (tools tool) files project skipBuild).analyze files config)
  | .tree artifact source =>
    match source.map files.readText with
    | some (.error cause) => .error (.io cause.reason)
    | some (.ok text) => (analyzeArtifact files artifact (some text) config).map fun one => [one]
    | none => (analyzeArtifact files artifact none config).map fun one => [one]

def emptyNote (request : Request) (artifacts : List Artifact) : String :=
  match request.command with
  | .analyze .. => if artifacts.isEmpty && !request.json then "no src files found\n" else ""
  | .tree .. => ""

def perform (tools : String → BuildTool) (files : Entry) (request : Request) :
    Except Failure Outcome := do
  let config ← loadConfig files request
  let found ← artifacts tools files config request.command
  return .answered (emptyNote request found ++ reportText request found)
    ((found.map Artifact.findingCount).foldl Nat.add 0)

def run (tools : String → BuildTool) (files : Entry) (arguments : List String) : Outcome :=
  match read arguments with
  | some request =>
    match perform tools files request with
    | .ok outcome => outcome
    | .error cause => .failed cause
  | none => .usage

end Reentrancy.CommandLine
