/-! JSON values. An integer is kept as such; every other number only as its text. The
reader delivers object fields in key order and without repetition. -/
namespace Reentrancy

inductive Json where
  | null
  | bool (value : Bool)
  | int (value : Int)
  | real (text : String)
  | text (value : String)
  | list (items : List Json)
  | object (fields : List (String × Json))
deriving Inhabited

namespace Json

def fields : Json → List (String × Json)
  | object fields => fields
  | _ => []

def field? (value : Json) (key : String) : Option Json :=
  (value.fields.find? fun field => field.1 == key).map (·.2)

def isObject : Json → Bool
  | object _ => true
  | _ => false

def isNull : Json → Bool
  | null => true
  | _ => false

def text? : Json → Option String
  | text value => some value
  | _ => none

def bool? : Json → Option Bool
  | bool value => some value
  | _ => none

def list? : Json → Option (List Json)
  | list items => some items
  | _ => none

def word? : Json → Option Int
  | int value =>
    if -9223372036854775808 ≤ value ∧ value ≤ 9223372036854775807 then some value else none
  | _ => none

end Json
end Reentrancy
