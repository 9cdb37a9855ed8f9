import Reentrancy.Flow.Block
import Reentrancy.Inline.Tokens
import Reentrancy.Text.Search

/-! Function bodies to be put in after a call. The parameters of a body are bound to the
arguments of the call: where a parameter is read as a whole it becomes the argument, and
where it stands inside a composite name, such as the key in `m[k]`, it becomes the text of
the argument. -/
namespace Reentrancy

structure Template where
  parameters : List String
  body : List Instruction
deriving Inhabited

/-- Phis and returns of the body are left out. -/
def Template.ofBlocks (parameters : List String) (blocks : List Block) : Template where
  parameters
  body := (blocks.flatMap (·.instructions)).filter fun instruction =>
    match instruction with
    | .phi _ _ | .ret _ => false
    | _ => true

/-- The function that an internal call goes to; `super.f` goes to `f`. -/
def Instruction.internalTarget? : Instruction → Option String
  | .call operation =>
    if operation.type = .internal then some (Text.afterLast '.' operation.callee) else none
  | _ => none

def Instruction.arguments : Instruction → List Value
  | .call operation => operation.arguments
  | _ => []

def Value.nameText : Value → String
  | .var read => read.name
  | value => value.text

/-- Parameters with their arguments; parameters without one stay free. -/
def Template.bindings (template : Template) (arguments : List Value) : Table Value :=
  Table.ofList (template.parameters.zip arguments)

def bindText (bindings : Table Value) (text : String) : String :=
  Token.replace (fun token => (bindings.get? token).map Value.nameText) text

/-- A name that is a bound parameter as a whole is left for `Instruction.substitute`. -/
def bindVariable (bindings : Table Value) (named : Variable) : Variable :=
  if bindings.contains named.name then named
  else { named with name := bindText bindings named.name }

def Value.bindNames (bindings : Table Value) (value : Value) : Value :=
  value.substitute fun read => some (.var (bindVariable bindings read))

namespace Instruction

def bindNames (bindings : Table Value) : Instruction → Instruction
  | assign assignment =>
    assign { assignment with
      target := bindVariable bindings assignment.target
      implied := assignment.implied.map (bindVariable bindings)
      previous := assignment.previous.map (bindVariable bindings)
      value := assignment.value.bindNames bindings }
  | call operation =>
    call { operation with
      callee := bindText bindings operation.callee
      receiver := operation.receiver.map (Value.bindNames bindings)
      options := operation.options.map fun option => (option.1, option.2.bindNames bindings)
      arguments := operation.arguments.map (Value.bindNames bindings) }
  | condition value => condition (value.bindNames bindings)
  | ret values => ret (values.map (Value.bindNames bindings))
  | emit event arguments => emit event (arguments.map (Value.bindNames bindings))
  | phi target sources => phi target sources
  | expression value => expression (value.bindNames bindings)
  | raw text => raw text

end Instruction
end Reentrancy
