import Reentrancy.Config
import Reentrancy.Yaml.Value

/-! Configuration files: a version, a preset and overrides of it. The shape of the file is
checked first, then its version, the preset and the range of the inline depth. -/
namespace Reentrancy

def Overrides.ofNode? (document : Yaml.Document) (node : Yaml.Node) : Option Overrides := do
  let fields ← document.fields?
    ["inline_depth", "detection_mode", "parallel", "honor_reentrancy_guards"] node
  let inlineDepth ← document.optional? (Yaml.natural? (Nat.pow 2 64)) (fields.lookup "inline_depth")
  let mode ← document.optional? (fun mode => (Yaml.word? mode).bind DetectionMode.ofText?)
    (fields.lookup "detection_mode")
  let parallel ← document.optional? Yaml.bool? (fields.lookup "parallel")
  let honorGuards ← document.optional? Yaml.bool? (fields.lookup "honor_reentrancy_guards")
  return { inlineDepth, mode, parallel, honorGuards }

structure ConfigFile where
  version : Option Nat
  preset : String
  overrides : Option Overrides
deriving DecidableEq, Repr

namespace ConfigFile

def ofDocument? (document : Yaml.Document) : Option ConfigFile := do
  let fields ← document.fields? ["version", "preset", "overrides"] document.root
  let version ← document.optional? (Yaml.natural? (Nat.pow 2 32)) (fields.lookup "version")
  let preset ← Yaml.scalarText? (← document.follow? (← fields.lookup "preset"))
  let overrides ← document.optional? (Overrides.ofNode? document) (fields.lookup "overrides")
  return { version, preset, overrides }

def config (file : ConfigFile) : Except ConfigError Config := do
  let version ← match file.version with
    | some version => pure version
    | none => .error .missingVersion
  if !supportedVersions.contains version then .error (.unsupportedVersion version)
  let preset ← Preset.ofText file.preset
  let config := (Config.ofPreset preset).override (file.overrides.getD {})
  config.validate
  return config

end ConfigFile

def Config.ofYaml (text : String) : Except ConfigError Config :=
  match (Yaml.Document.ofText? text).bind ConfigFile.ofDocument? with
  | some file => file.config
  | none => .error .yaml

end Reentrancy
