import AccessRules.Log.Basic
import AccessRules.Parse

/-! Reading an expression and noting it in the log. -/
namespace AccessRules

/-- Reads a text as an expression and notes a success. -/
def parseLogged (s : Text) : Logged (Except ParseError Expr) := do
  let result := parse s
  if let .ok e := result then Logged.note (.parsed (tidyText s) e.nodeCount)
  return result

end AccessRules
