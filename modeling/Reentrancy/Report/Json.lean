import Reentrancy.Analysis
import Reentrancy.Json.Writer

/-! The report of an analysis for other programs. -/
namespace Reentrancy

def Json.ofNat (value : Nat) : Json := .int value

def Json.texts (values : List String) : Json := .list (values.map .text)

def Json.ofTable {α : Type} (write : α → Json) (table : Table α) : Json :=
  .object (table.entries.map fun entry => (entry.1, write entry.2))

def Location.toJson (location : Location) : Json :=
  .object [("offset", .int location.offset), ("length", .int location.length),
    ("file_index", .int location.file)]

def CallSite.toJson (site : CallSite) : Json :=
  .object [("name", .text site.name), ("call_type", .text site.type.title),
    ("location", site.location.toJson)]

def Accesses.toJson (accesses : Accesses) : Json :=
  .object [("reads", .texts accesses.reads.toList), ("writes", .texts accesses.writes.toList)]

def BlockVersions.toJson (versions : BlockVersions) : Json :=
  .object [("reads", .ofTable .ofNat versions.reads), ("writes", .ofTable .ofNat versions.writes)]

def Statement.toJson (statement : Statement) : Json :=
  .object [("kind", .text statement.kind.text), ("text", .text statement.text)]

namespace Block

def sideText (side : Bool) : String := if side then "True" else "False"

/-- Role and side are written only where there is one. -/
def toJson (block : Block) : Json :=
  .object ([("id", .text block.id),
      ("statements", .list (block.statements.map Statement.toJson)),
      ("terminator", .text block.exit.text)] ++
    (block.role.toList.map fun role => ("role", .text role.text)) ++
    (block.side.toList.map fun side => ("branch_side", .text (sideText side))) ++
    [("accesses", block.accesses.toJson),
      ("ssa_versions", block.versions.toJson),
      ("ssa_statements", .texts (block.instructions.map Instruction.text))])

end Block

def Piece.toJson (piece : Piece) : Json :=
  .object [("id", .text piece.id),
    ("statements", .texts (piece.instructions.map Instruction.text)),
    ("terminator", .text piece.exit.text),
    ("accesses", piece.accesses.toJson)]

def Finding.toJson (finding : Finding) : Json :=
  .object [("detector", .text finding.detector), ("contract", .text finding.contract),
    ("function", .text finding.function), ("description", .text finding.description),
    ("severity", .text finding.severity.text)]

def StateVariable.toJson (declared : StateVariable) : Json :=
  .object [("name", .text declared.name), ("type", .text declared.type),
    ("location", declared.location.toJson)]

def Event.toJson (event : Event) : Json :=
  .object [("name", .text event.name), ("location", event.location.toJson)]

def FunctionInfo.toJson (info : FunctionInfo) : Json :=
  .object [("visibility", .text info.visibility), ("location", info.location.toJson)]

def Entrypoint.toJson (entry : Entrypoint) : Json :=
  .object [("name", .text entry.name), ("visibility", .text entry.visibility),
    ("location", entry.location.toJson), ("modifiers", .texts entry.modifiers),
    ("blocks", .list (entry.blocks.map Block.toJson)),
    ("ssa", .list (entry.pieces.map Piece.toJson)),
    ("calls", .list (entry.calls.map CallSite.toJson))]

def Summary.toJson (summary : Summary) : Json :=
  .object [("name", .text summary.name), ("pragma", .text summary.pragma),
    ("state_vars", .list (summary.state.map StateVariable.toJson)),
    ("functions", .ofTable FunctionInfo.toJson summary.functions),
    ("events", .list (summary.events.map Event.toJson)),
    ("entrypoints", .list (summary.entrypoints.map Entrypoint.toJson))]

def ContractAnalysis.toJson (analysis : ContractAnalysis) : Json :=
  .object [("summary", analysis.summary.toJson),
    ("findings", .list (analysis.findings.map Finding.toJson))]

def Artifact.toJson (artifact : Artifact) : Json :=
  .object [("path", .text artifact.path),
    ("contracts", .list (artifact.contracts.map ContractAnalysis.toJson))]

def Report.jsonText (artifacts : List Artifact) : String :=
  Json.pretty (.list (artifacts.map Artifact.toJson))

end Reentrancy
