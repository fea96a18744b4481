import ReportMigration.Sql.Call

/-!
# Rules and rule sets

A rule changes the places of a text that it knows and says nothing about a text without them. A
rule set applies its rules one after the other, each to the outcome of the rule before it.
-/

namespace ReportMigration.Sql

open Text

/-- Replaces what a scanner reads by the text the scanner means. -/
structure PatternRule where
  name : String
  pattern : Scan (List Char)

namespace PatternRule

/-- The text after the rule, if its pattern occurs. -/
def apply (rule : PatternRule) (text : List Char) : Option (List Char) :=
  if rule.pattern.occurs text then some (rule.pattern.substitute text) else none

end PatternRule

/-- One step of a rule set. -/
inductive Rule where
  | pattern (rule : PatternRule)
  | call (rule : CallRule)

namespace Rule

/-- The name under which an application of the rule is recorded. -/
def name : Rule → String
  | pattern rule => rule.name
  | call rule => rule.name

/-- The text after the rule, or nothing when the rule leaves the text alone. -/
def apply : Rule → List Char → Option (List Char)
  | pattern rule => rule.apply
  | call rule => rule.apply

end Rule

/-- The rules of a conversion in the order of their application. -/
structure RuleSet where
  rules : List Rule

/-- A text after a rule set and the names of the rules that were applied, in order. -/
structure Converted where
  text : List Char
  applied : List String
deriving DecidableEq, Repr

namespace RuleSet

def names (set : RuleSet) : List String :=
  set.rules.map Rule.name

def size (set : RuleSet) : Nat :=
  set.rules.length

def isEmpty (set : RuleSet) : Bool :=
  set.rules.isEmpty

def append (set : RuleSet) (rules : List Rule) : RuleSet :=
  ⟨set.rules ++ rules⟩

/-- Applies one rule and records it if it changed something. -/
def step (c : Converted) (rule : Rule) : Converted :=
  match rule.apply c.text with
  | some text => ⟨text, c.applied ++ [rule.name]⟩
  | none => c

/-- Applies every rule in order. -/
def convert (set : RuleSet) (text : List Char) : Converted :=
  set.rules.foldl step ⟨text, []⟩

end RuleSet

end ReportMigration.Sql
