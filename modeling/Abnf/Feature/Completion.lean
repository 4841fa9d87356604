/-
Names that can be written in a document: each rule that it defines once, then the core rules.
-/
import Abnf.Index

namespace Abnf

/-- A name that is offered. -/
inductive Completion where
  | rule (name : String)
  | core (rule : CoreRule)
deriving DecidableEq

namespace Completion

/-- The name that is offered. -/
def label : Completion → String
  | rule name => name
  | core c => c.name

/-- What kind of rule is offered, in words. -/
def detail : Completion → String
  | rule _ => "ABNF rule"
  | core _ => "Core rule (RFC 5234)"

def documentation? : Completion → Option String
  | rule _ => none
  | core c => some c.description

/-- The names of a list without those that occur before, whatever the case of their letters. -/
def distinctNames (seen : List String) : List String → List String
  | [] => []
  | name :: names =>
    if RuleName.key name ∈ seen then distinctNames seen names
    else name :: distinctNames (RuleName.key name :: seen) names

end Completion

namespace Index

/-- The names that are offered in a document. -/
def completions (index : Index) : List Completion :=
  (Completion.distinctNames [] (index.definitions.map Definition.name)).map .rule ++
    CoreRule.all.map .core

end Index

end Abnf
