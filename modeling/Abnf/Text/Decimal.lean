/-
Numbers that are written in decimal digits.
-/
import Abnf.Text.Bytes

namespace Abnf.Text

/-- Whether a text consists of digits, and at least one. -/
def isDigits (cs : Text) : Bool := !cs.isEmpty && cs.all Char.isDigit

/-- Whether a text is a number without a superfluous zero in front. -/
def isNatural (cs : Text) : Bool := isDigits cs && (cs.length == 1 || cs.head? != some '0')

/-- The number that digits write. -/
def decimalValue (digits : Text) : Nat :=
  digits.foldl (fun n c => n * 10 + (c.toNat - '0'.toNat)) 0

end Abnf.Text
