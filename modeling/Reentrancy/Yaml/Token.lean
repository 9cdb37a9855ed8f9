import Reentrancy.Yaml.Scalar
import Reentrancy.Yaml.Tag

/-! The tokens of YAML texts with mappings and scalars. -/
namespace Reentrancy.Yaml

inductive Token where
  | version (major minor : Nat)
  | handle (handle : List Char) (start : List UInt8)
  | documentStart
  | documentEnd
  /-- A mapping in lines starts or ends; both are told by indentation. -/
  | mappingStart
  | mappingEnd
  | openBrace
  | closeBrace
  | comma
  | key
  | value
  | anchor (name : List Char)
  | reference (name : List Char)
  | tag (tag : TagText)
  | scalar (scalar : Scalar)
deriving DecidableEq, Repr

def Token.isDirective : Token → Bool
  | version .. | handle .. => true
  | _ => false

end Reentrancy.Yaml
