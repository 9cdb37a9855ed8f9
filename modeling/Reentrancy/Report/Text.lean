import Reentrancy.Analysis

/-! The report of an analysis for people. -/
namespace Reentrancy

namespace Entrypoint

/-- Callees of the calls of some types, in the order of their first call. -/
def calleeNames (entry : Entrypoint) (keep : CallType → Bool) : List String :=
  ((entry.calls.filter fun site => keep site.type).map (·.name)).eraseDups

def internalCalls (entry : Entrypoint) : List String := entry.calleeNames (· == .internal)

def externalCalls (entry : Entrypoint) : List String := entry.calleeNames CallType.isExternal

end Entrypoint

namespace Report

def line (text : String) : String := text ++ "\n"

def callsLine (title lowered : String) (names : List String) : String :=
  if names.isEmpty then line ("No " ++ lowered ++ " calls")
  else line (title ++ " calls: " ++ ", ".intercalate names)

def findingLines (finding : Finding) : String :=
  line ("!!!! REENTRANCY found in " ++ finding.qualifiedName) ++
    line ("Description: " ++ finding.description) ++ line ("Severity: " ++ finding.severity.text)

def entryLines (source : String) (findings : List Finding) (entry : Entrypoint) : String :=
  let position := entry.location.position source
  line ("Entrypoint: " ++ entry.name ++ " at line " ++ toString position.line ++ ", col " ++
      toString position.column) ++
    callsLine "Internal" "internal" entry.internalCalls ++
    callsLine "External" "external" entry.externalCalls ++
    String.join ((findings.filter fun finding => finding.function == entry.name).map findingLines)

def contractText (source : String) (analysis : ContractAnalysis) : String :=
  line ("Contract: " ++ analysis.summary.name) ++
    String.join (analysis.summary.entrypoints.map (entryLines source analysis.findings))

end Report

def Artifact.text (artifact : Artifact) : String :=
  "\n".intercalate (artifact.contracts.map (Report.contractText (artifact.source.getD "")))

end Reentrancy
