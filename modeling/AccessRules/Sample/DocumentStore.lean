import AccessRules.Grants

/-! A sample: the rules of a document store, and the principals who use it. -/
namespace AccessRules.Sample.DocumentStore

/-- An operation and the rule that guards it. -/
structure NamedRule where
  name : String
  rule : String
  deriving DecidableEq

/-- The rules by operation. -/
def rules : List NamedRule :=
  [⟨"read", "hasPermission('doc:read') AND NOT hasRole('GUEST')"⟩,
   ⟨"write", "hasRole('ADMIN') OR (hasPermission('doc:write') AND " ++
      "hasResourcePermission('document', 'write'))"⟩,
   ⟨"edit", "hasPermission('doc:write') or " ++
      "hasConditionalPermission('doc:edit', 'ownerId', '42')"⟩,
   ⟨"delete", "hasRole('ADMIN') AND hasPermission('doc:delete')"⟩,
   ⟨"audit", "hasRole(\"AUDITOR\") OR (hasRole('ADMIN') AND NOT hasRole('GUEST'))"⟩]

/-- The rule that guards an operation. -/
def rule? (name : String) : Option Text :=
  (rules.find? (·.name = name)).map (·.rule.toList)

/-- Those who use the store. -/
inductive Principal
  | admin
  | editor
  | owner
  | viewer
  | guest
  deriving DecidableEq

namespace Principal

/-- What the principal is called. -/
def name : Principal → String
  | admin => "admin"
  | editor => "editor"
  | owner => "owner"
  | viewer => "viewer"
  | guest => "guest"

/-- The principal of this name. -/
def ofName? (name : String) : Option Principal :=
  [admin, editor, owner, viewer, guest].find? (·.name = name)

/-- The permissions `doc:write` and so on, for these actions. -/
def doc (actions : List String) : Grant := .permissions (actions.map fun a => ("doc:" ++ a).toList)

/-- An action on the resource `document`. -/
def document (action : String) : Grant := .resource "document".toList action.toList

/-- What was granted to the principal. -/
def grants : Principal → Grants
  | admin => .of [.roles ["ADMIN".toList, "USER".toList], doc ["read", "write", "delete"],
      document "read", document "write", document "delete"]
  | editor => .of [.role "USER".toList, doc ["read", "write"], document "read", document "write"]
  | owner => .of [.role "USER".toList, doc ["read"],
      .conditional "doc:edit".toList "ownerId".toList "42".toList]
  | viewer => .of [.role "USER".toList, doc ["read"]]
  | guest => .of [.role "GUEST".toList]

end Principal
end AccessRules.Sample.DocumentStore
