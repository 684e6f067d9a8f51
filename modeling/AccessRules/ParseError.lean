import AccessRules.Expr.Basic

/-! Why a text is not a rule, and the wording of each cause. -/
namespace AccessRules

/-- The cause for which a text is not accepted as a rule. -/
inductive ParseError
  | empty
  | unbalancedParentheses
  | unterminatedLiteral (text : Text)
  | emptyGroup
  | misplacedOperator (op : Op)
  | invalidCall (call : Text)
  | unknownFunction (name : Text)
  | nestingTooDeep (limit : Nat)
  | invalid (errors : List String)
  deriving DecidableEq

/-- The error in words. -/
def ParseError.message : ParseError → String
  | empty => "empty expression"
  | unbalancedParentheses => "unbalanced parentheses"
  | unterminatedLiteral text => s!"unterminated quoted literal in '{text.shown}'"
  | emptyGroup => "empty parenthesized group"
  | misplacedOperator op => s!"misplaced operator {op.keyword}"
  | invalidCall call => s!"invalid function call: '{call.shown}'"
  | unknownFunction name => s!"unknown function: '{name.shown}'"
  | nestingTooDeep limit => s!"expression nests deeper than {limit} levels"
  | invalid errors => "invalid expression: " ++ String.intercalate "; " errors

end AccessRules
