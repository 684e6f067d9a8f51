import AccessRules.Text.Basic

/-! The four checks a rule can ask for, by name and number of parameters. -/
namespace AccessRules

/-- What a call in a rule asks about the principal. -/
inductive Check
  | permission
  | role
  | resource
  | conditional
  deriving DecidableEq

namespace Check

/-- The name a rule calls the check by. -/
def name : Check → String
  | permission => "hasPermission"
  | role => "hasRole"
  | resource => "hasResourcePermission"
  | conditional => "hasConditionalPermission"

/-- The number of parameters the check reads; further ones are ignored. -/
def arity : Check → Nat
  | permission => 1
  | role => 1
  | resource => 2
  | conditional => 3

/-- Every check, in the order the language lists them. -/
def all : List Check := [permission, role, resource, conditional]

/-- The check with this name, which must match in case. -/
def ofName? (name : Text) : Option Check := all.find? (·.name.toList = name)

end Check
end AccessRules
