/-
Values of JSON.

Integers are kept apart from numbers that are written with a fraction or an exponent: only the
former count as integers for a reader of messages.  An object keeps its fields in the order of
writing, and of two fields with one name the last one counts.
-/

namespace Abnf

/-- A JSON value. -/
inductive Json where
  | null
  | bool (value : Bool)
  | int (value : Int)
  /-- A number that is not written as an integer, as it is written. -/
  | real (literal : String)
  | str (value : String)
  | arr (items : List Json)
  | obj (fields : List (String × Json))

namespace Json

/-- The value of a field of an object. -/
def get? (name : String) : Json → Option Json
  | obj fields => (fields.reverse.find? (·.1 == name)).map (·.2)
  | _ => none

/-- The value of a field, and null for a field that is not there. -/
def field (name : String) (value : Json) : Json := (value.get? name).getD null

def asBool? : Json → Option Bool
  | bool b => some b
  | _ => none

def asInt? : Json → Option Int
  | int n => some n
  | _ => none

/-- A number from zero up. -/
def asNat? : Json → Option Nat
  | int n => if 0 ≤ n then some n.toNat else none
  | _ => none

/-- A number that fits into 32 bits without a sign. -/
def asUInt32? (value : Json) : Option Nat := value.asNat?.filter (· < UInt32.size)

/-- A number that fits into 32 bits with a sign. -/
def asInt32? (value : Json) : Option Int :=
  value.asInt?.filter fun n => Int32.minValue.toInt ≤ n && n ≤ Int32.maxValue.toInt

def asString? : Json → Option String
  | str s => some s
  | _ => none

def asList? : Json → Option (List Json)
  | arr items => some items
  | _ => none

def isNull : Json → Bool
  | null => true
  | _ => false

def nat (n : Nat) : Json := int n

/-- A value, or null for none. -/
def orNull (encode : α → Json) : Option α → Json
  | none => null
  | some a => encode a

end Json

end Abnf
