/-
Keys of rule names.

The case of ASCII letters does not matter in a rule name: two names are the same iff their keys are
equal.
-/

namespace Abnf.RuleName

/-- A rule name with its ASCII letters in lower case. -/
def key (name : String) : String := String.ofList (name.toList.map Char.toLower)

end Abnf.RuleName
