/-
Shapes of JSON values.

A `Shape` tells which values it admits.  A record is written as an object, in which fields that are
not known are ignored, or as the list of its fields in their order.  A field that may be absent
from an object still has its place in the list, where null stands for it; only a field that is
filled in by a default may be left off the end of a list.
-/
import Abnf.Json.Basic

namespace Abnf

/-- A shape of values, as whether it admits a value. -/
abbrev Shape := Json → Bool

namespace Shape

/-! ### Single values -/

/-- Every value. -/
def any : Shape := fun _ => true

/-- The values that a reader can read. -/
def readable (decode : Json → Option α) : Shape := fun value => (decode value).isSome

def bool : Shape := readable Json.asBool?

def string : Shape := readable Json.asString?

/-- Numbers of 32 bits without a sign. -/
def uint32 : Shape := readable Json.asUInt32?

/-- Numbers of 32 bits with a sign. -/
def int32 : Shape := readable Json.asInt32?

/-- One of some words.  A word is written as a string, or as the name of the only field of an
object whose value is null. -/
def word (words : List String) : Shape
  | .str s => words.contains s
  | .obj fields =>
    words.any fun w => fields.all (·.1 == w) && ((Json.obj fields).get? w).any Json.isNull
  | _ => false

/-! ### Values made of others -/

/-- Null, or a value of a shape. -/
def nullable (shape : Shape) : Shape := fun value => value.isNull || shape value

/-- Lists of values of one shape. -/
def list (item : Shape) : Shape
  | .arr items => items.all item
  | _ => false

/-- Values of one of two shapes. -/
def either (first second : Shape) : Shape := fun value => first value || second value

/-- A field of a record. -/
structure Field where
  name : String
  shape : Shape
  /-- Whether an object may be without the field. -/
  mayBeAbsent : Bool
  /-- Whether a list may end before the field. -/
  hasDefault : Bool

namespace Field

/-- A field that is always there. -/
def required (name : String) (shape : Shape) : Field := ⟨name, shape, false, false⟩

/-- A field that may be absent or null. -/
def optional (name : String) (shape : Shape) : Field := ⟨name, nullable shape, true, false⟩

/-- A field that may be absent or null, also from the end of a list. -/
def defaulted (name : String) (shape : Shape) : Field := ⟨name, nullable shape, true, true⟩

end Field

/-- Objects with some fields. -/
def object (fields : List Field) : Shape
  | .obj entries =>
    fields.all fun field => ((Json.obj entries).get? field.name).elim field.mayBeAbsent field.shape
  | _ => false

/-- Records with some fields, as objects or as lists. -/
def record (fields : List Field) : Shape
  | .arr items =>
    items.length ≤ fields.length && (fields.drop items.length).all (·.hasDefault) &&
      (fields.zip items).all fun p => p.1.shape p.2
  | value => object fields value

/-- Records all of whose fields may be absent and have one shape. -/
def options (shape : Shape) (names : List String) : Shape :=
  record (names.map (Field.optional · shape))

end Shape

end Abnf
