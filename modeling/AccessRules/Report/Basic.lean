import AccessRules.ParseError

/-! Reports: the errors and warnings found in a rule, in the order of finding.

An error makes a rule invalid. A warning is about a rule that can be used but
probably does not say what its author meant. -/
namespace AccessRules

/-- The messages of what was found. -/
structure Report where
  errors : List String
  warnings : List String
  deriving DecidableEq

namespace Report

/-- The report that nothing was found. -/
def empty : Report := ⟨[], []⟩

/-- Records an error. -/
def withError (r : Report) (error : String) : Report := ⟨r.errors ++ [error], r.warnings⟩

/-- Records a warning. -/
def withWarning (r : Report) (warning : String) : Report := ⟨r.errors, r.warnings ++ [warning]⟩

/-- Whether no error was found. -/
def valid (r : Report) : Bool := r.errors.isEmpty

end Report

/-- What makes a rule invalid. -/
inductive Fault
  | empty
  | unmatchedClose
  | unmatchedOpen (count : Nat)
  | openLiteral
  | unknownFunction (name : Text)
  | malformedArguments (name args : Text)
  | missingLeft (op : Op)
  | missingRight (op : Op)
  | notAfterOperand
  | notWithoutOperand
  | unreadable (error : ParseError)
  deriving DecidableEq

/-- The fault in words. -/
def Fault.message : Fault → String
  | empty => "expression must not be empty"
  | unmatchedClose => "unmatched right parenthesis ')'"
  | unmatchedOpen count => s!"unmatched left parenthesis '(' ({count} unclosed)"
  | openLiteral => "unterminated quoted literal"
  | unknownFunction name => s!"unknown function '{name.shown}'"
  | malformedArguments name args =>
    s!"malformed arguments in {name.shown}({args.shown}): unterminated quoted literal"
  | missingLeft op => s!"operator {op.keyword} is missing its left operand"
  | missingRight op => s!"operator {op.keyword} is missing its right operand"
  | notAfterOperand => "operator NOT cannot directly follow an operand"
  | notWithoutOperand => "operator NOT is missing its operand"
  | unreadable error => s!"failed to parse expression: {error.message}"

/-- What is suspicious about a call. -/
inductive Warning
  | tooFew (check : Check) (got : Nat)
  | tooMany (check : Check) (got : Nat)
  | emptyParameter (check : Check) (args : Text)
  deriving DecidableEq

/-- The warning in words. -/
def Warning.message : Warning → String
  | tooFew check got =>
    s!"{check.name} expects {check.arity} parameter(s) but got {got}; " ++
      "the rule always evaluates to false"
  | tooMany check got =>
    s!"{check.name} expects {check.arity} parameter(s) but got {got}; " ++
      "extra parameters are ignored"
  | emptyParameter check args => s!"empty parameter in {check.name}({args.shown})"

end AccessRules
