import Reentrancy.Detector

/-! How an analysis is run: a preset, and what is chosen apart from it. -/
namespace Reentrancy

inductive Preset where
  | fast
  | balanced
  | thorough
deriving DecidableEq, Repr, Inhabited

inductive ConfigError where
  | range (field : String) (value least greatest : Nat) (hint : String)
  | unknownPreset (name : String)
  | missingVersion
  | unsupportedVersion (found : Nat)
  | io (reason : String)
  | yaml
deriving DecidableEq, Repr

def supportedVersions : List Nat := [1]

namespace ConfigError

def message : ConfigError → String
  | range field value least greatest hint =>
    "Invalid range for field '" ++ field ++ "': " ++ toString value ++ " not in " ++
      toString least ++ "..=" ++ toString greatest ++ ". " ++ hint
  | unknownPreset name =>
    "Unknown preset '" ++ name ++ "'. Valid presets: fast, balanced, thorough"
  | missingVersion =>
    "Missing 'version' field in configuration file. Add 'version: 1' to the top of your YAML file."
  | unsupportedVersion found =>
    "Unsupported configuration version " ++ toString found ++ ". Supported versions: " ++
      ", ".intercalate (supportedVersions.map toString)
  | io reason => "IO error: " ++ reason
  | yaml => "YAML parsing error"

end ConfigError

namespace Preset

def text : Preset → String
  | fast => "fast"
  | balanced => "balanced"
  | thorough => "thorough"

/-- Letter case does not matter. Outside ASCII no capital has one of these letters as its
small form, so it is enough to lower ASCII. -/
def ofText (name : String) : Except ConfigError Preset :=
  match Text.lowerAscii name with
  | "fast" => .ok fast
  | "balanced" => .ok balanced
  | "thorough" => .ok thorough
  | _ => .error (.unknownPreset name)

def inlineDepth : Preset → Nat
  | fast => 0
  | balanced => 1
  | thorough => 4

def mode : Preset → DetectionMode
  | thorough => .reachability
  | fast | balanced => .ordered

def parallel : Preset → Bool
  | fast => false
  | balanced | thorough => true

end Preset

structure Config where
  preset : Preset
  inlineDepth : Nat
  mode : DetectionMode
  parallel : Bool
  honorGuards : Bool
deriving DecidableEq, Repr, Inhabited

namespace Config

def ofPreset (preset : Preset) : Config where
  preset
  inlineDepth := preset.inlineDepth
  mode := preset.mode
  parallel := preset.parallel
  honorGuards := false

def standard : Config := ofPreset .balanced

def maxInlineDepth : Nat := 16

def rangeError (depth : Nat) : ConfigError :=
  .range "inline_depth" depth 0 maxInlineDepth
    "Use 0 to disable inlining, 1 for direct callees only"

def validate (config : Config) : Except ConfigError Unit :=
  if config.inlineDepth > maxInlineDepth then .error (rangeError config.inlineDepth) else .ok ()

def detector (config : Config) : Detector := ⟨config.mode, config.honorGuards⟩

def boolText (value : Bool) : String := if value then "true" else "false"

def describe (config : Config) : String :=
  "preset=" ++ config.preset.text ++ " inline_depth=" ++ toString config.inlineDepth ++
    " detection=" ++ config.mode.text ++ " parallel=" ++ boolText config.parallel ++
    " guards=" ++ boolText config.honorGuards

def yamlText (config : Config) : String :=
  "version: 1\npreset: " ++ config.preset.text ++ "\noverrides:\n  inline_depth: " ++
    toString config.inlineDepth ++ "\n  detection_mode: " ++ config.mode.text ++
    "\n  parallel: " ++ boolText config.parallel ++ "\n  honor_reentrancy_guards: " ++
    boolText config.honorGuards ++ "\n"

end Config

structure Overrides where
  inlineDepth : Option Nat := none
  mode : Option DetectionMode := none
  parallel : Option Bool := none
  honorGuards : Option Bool := none
deriving DecidableEq, Repr, Inhabited

def Config.override (config : Config) (overrides : Overrides) : Config :=
  { config with
    inlineDepth := overrides.inlineDepth.getD config.inlineDepth
    mode := overrides.mode.getD config.mode
    parallel := overrides.parallel.getD config.parallel
    honorGuards := overrides.honorGuards.getD config.honorGuards }

end Reentrancy
