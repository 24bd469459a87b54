import AtomicUpdate.Table

/-! The values that facts carry: JSON where an object has each key once. Numbers are exact decimals,
`mantissa / 10 ^ places`. -/
namespace AtomicUpdate.Json

inductive Value
  | null
  | bool (value : Bool)
  | number (mantissa : Int) (places : Nat)
  | string (text : String)
  | array (elements : List Value)
  | object (members : List (String × Value))
  deriving Repr

namespace Value

def int (n : Int) : Value := .number n 0

def ofText? (text : Option String) : Value :=
  match text with
  | some s => .string s
  | none => .null

def field? (v : Value) (key : String) : Option Value :=
  match v with
  | .object members => Table.findIn key members
  | _ => none

end Value

abbrev Fields := Table String Value

end AtomicUpdate.Json
