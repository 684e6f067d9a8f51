import AccessRules.Text.Basic

/-! The three operators and their keywords.

A keyword is a whole word, in any mixture of ASCII upper and lower case. -/
namespace AccessRules

/-- What joins the parts of a rule. -/
inductive Op
  | and
  | or
  | not
  deriving DecidableEq

namespace Op

/-- The operator's keyword in its own spelling, upper case. -/
def keyword : Op → String
  | and => "AND"
  | or => "OR"
  | not => "NOT"

/-- Every operator, in the order the language lists them. -/
def all : List Op := [and, or, not]

/-- The operator whose keyword is this word in some ASCII case. -/
def ofWord? (word : Text) : Option Op :=
  all.find? (·.keyword.toList = word.map Char.toUpper)

end Op
end AccessRules
