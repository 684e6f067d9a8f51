import AccessRules.Audit
import AccessRules.Decision
import AccessRules.Log.Parse

/-! Rules: a text together with the expression it was read as. -/
namespace AccessRules

/-- A text that has been read as an expression. -/
structure Rule where
  source : Text
  expr : Expr
  deriving DecidableEq

namespace Rule

/-- Reads a text as a rule. -/
def ofText (source : Text) : Logged (Except ParseError Rule) := do
  return (← parseLogged source).map (⟨source, ·⟩)

/-- The permissions that the rule's text names. -/
def permissions (words : WordChars) (r : Rule) : NameSet := permissionsIn words r.source

/-- The roles that the rule's text names. -/
def roles (words : WordChars) (r : Rule) : NameSet := rolesIn words r.source

/-- The decision on the rule. -/
def decide (r : Rule) (ctx : Context) : Logged Decision := evaluate ctx r.expr

end Rule
end AccessRules
