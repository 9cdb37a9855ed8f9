import Reentrancy.Table
import Reentrancy.Text.Search
import Reentrancy.Tree.Expression

/-! Where a call sends control. The classification looks at the callee only: at names with
a fixed meaning, at the functions of the contract and at the type of a receiver. -/
namespace Reentrancy

inductive CallType where
  | internal
  | external
  /-- One of `call`, `send` and `transfer` on an address. -/
  | lowLevelExternal
  | delegatecall
  | staticcall
  | revert
  /-- Functions of the language and of libraries. -/
  | builtin
deriving DecidableEq, Repr, Inhabited

namespace CallType

def tag : CallType → String
  | internal => "internal"
  | external => "external"
  | lowLevelExternal => "low_level_external"
  | delegatecall => "delegatecall"
  | staticcall => "staticcall"
  | revert => "revert"
  | builtin => "builtin"

def ofTag? : String → Option CallType
  | "internal" => some internal
  | "external" => some external
  | "low_level_external" => some lowLevelExternal
  | "delegatecall" => some delegatecall
  | "staticcall" => some staticcall
  | "revert" => some revert
  | "builtin" => some builtin
  | _ => none

def title : CallType → String
  | internal => "Internal"
  | external => "External"
  | lowLevelExternal => "LowLevelExternal"
  | delegatecall => "Delegatecall"
  | staticcall => "Staticcall"
  | revert => "Revert"
  | builtin => "Builtin"

def isExternal : CallType → Bool
  | external | lowLevelExternal | delegatecall | staticcall => true
  | internal | revert | builtin => false

end CallType

structure CallSite where
  name : String
  type : CallType
  location : Location
deriving DecidableEq, Repr, Inhabited

structure Scope where
  functions : Names := Table.empty
  symbols : Table String := Table.empty
deriving Inhabited

namespace Scope

/-- Inner declarations hide outer ones. -/
def withSymbols (scope : Scope) (inner : Table String) : Scope :=
  { scope with symbols := scope.symbols.insertAll inner.entries }

/-- The type of a receiver: what the compiler resolved, or else what is declared. -/
def typeOf (scope : Scope) (resolved : String) (receiver : Expression) : String :=
  if resolved = "" then (scope.symbols.get? receiver.text).getD "" else resolved

def builtinFunctions : List String :=
  ["keccak256", "sha256", "sha3", "ripemd160", "ecrecover", "addmod", "mulmod", "gasleft",
    "blockhash", "blobhash", "selfdestruct", "suicide", "type"]

def classifyName (scope : Scope) (name : String) (predefined : Bool) : CallType :=
  if ["require", "assert", "revert"].contains name then .revert
  else if scope.functions.contains name then .internal
  else if predefined || builtinFunctions.contains name then .builtin
  else .external

def startsUpper (name : String) : Bool := name.toList.head?.any Char.isUpper

/-- A conversion is `T(x)` with a contract type `T`. A call that the compiler did not mark converts
if its name starts like a type. -/
def isContractCast (scope : Scope) : Expression → Bool
  | .call form (.identifier name _) _ _ _ =>
    !scope.functions.contains name &&
      match form with
      | .conversion => true
      | .unmarked => startsUpper name
      | .construction | .plain => false
  | _ => false

def classifyReceiver (scope : Scope) (resolved name : String) (receiver : Expression) : CallType :=
  let declared := scope.typeOf resolved receiver
  match receiver with
  | .missing => .builtin
  | .identifier "this" _ => .external
  | _ =>
    if receiver.isSuper && scope.functions.contains name then .internal
    else if Text.contains declared "contract" || Text.contains declared "interface" then .external
    else if scope.isContractCast receiver then .external
    else .builtin

def classifyMember (scope : Scope) (receiver : Expression) (resolved name : String) : CallType :=
  match name with
  | "call" | "send" | "transfer" => .lowLevelExternal
  | "delegatecall" => .delegatecall
  | "staticcall" => .staticcall
  | _ => scope.classifyReceiver resolved name receiver

def classify (scope : Scope) (callee : Expression) : CallType :=
  match callee.peeled with
  | .identifier name predefined => scope.classifyName name predefined
  | .member receiver resolved name => scope.classifyMember receiver resolved name
  | _ => .builtin

end Scope

namespace Expression

/-- A conversion such as `address(x)` is no call. -/
def isConversion (form : CallForm) (callee : Expression) : Bool :=
  form == .conversion || match callee with
    | typeName _ => true
    | _ => false

end Expression
end Reentrancy
