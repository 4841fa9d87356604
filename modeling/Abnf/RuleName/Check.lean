/-
Well-formed rule names.

A rule name is a letter followed by letters, digits and hyphens, all ASCII.  `RuleName.check`
accepts a name under which a rule may be defined: a rule name that is not taken by a core rule.
-/
import Abnf.CoreRule
import Abnf.Syntax.Token
import Abnf.Text.Quoted

namespace Abnf.RuleName

/-- Why a name cannot be given to a rule. -/
inductive Invalid where
  | empty
  | leadingCharacter (found : Char)
  | character (found : Char)
  | coreRule (name : String)
deriving DecidableEq

/-- What is wrong with a name, in words. -/
def Invalid.message : Invalid → String
  | empty => "Rule name is empty"
  | leadingCharacter c => "Rule name must start with a letter, found " ++ Text.quotedChar c
  | character c =>
    "Rule name may only contain letters, digits and '-', found " ++ Text.quotedChar c
  | coreRule name => name ++ " is a core rule"

/-- Whether a name may be given to a rule; the first thing that is wrong with it, if anything is. -/
def check (name : String) : Except Invalid Unit :=
  match name.toList with
  | [] => .error .empty
  | c :: cs =>
    if c.isAlpha then
      match cs.find? (!Token.isNameChar ·) with
      | some found => .error (.character found)
      | none => if CoreRule.isName name then .error (.coreRule name) else .ok ()
    else
      .error (.leadingCharacter c)

end Abnf.RuleName
