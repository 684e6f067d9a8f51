import AccessRules.Query
import Std.Data.TreeSet

/-! Grants: a context that is a set of facts.

A query is answered yes when it is one of the facts. Facts are only ever added, and
neither their order nor their repetition can be told from the answers. -/
namespace AccessRules

/-- A set of names, in the order of their code points. -/
abbrev NameSet := Std.TreeSet Text

/-- One act of granting. -/
inductive Grant
  | permission (permission : Text)
  | permissions (permissions : List Text)
  | role (role : Text)
  | roles (roles : List Text)
  | resource (resource action : Text)
  | conditional (permission key value : Text)

/-- The facts that an act of granting adds. -/
def Grant.facts : Grant → List Query
  | permission p => [.permission p]
  | permissions ps => ps.map .permission
  | role r => [.role r]
  | roles rs => rs.map .role
  | resource r a => [.resource r a]
  | conditional p k v => [.conditional p k v]

/-- What has been granted to a principal. -/
structure Grants where
  facts : List Query

namespace Grants

/-- Nothing granted. -/
def empty : Grants := ⟨[]⟩

/-- What is granted after one more act. -/
def add (g : Grants) (grant : Grant) : Grants := ⟨g.facts ++ grant.facts⟩

/-- What is granted after these acts, starting from nothing. -/
def of (acts : List Grant) : Grants := acts.foldl add empty

/-- The context that answers yes to what was granted. -/
def allows (g : Grants) : Context := fun q => g.facts.contains q

/-- The permissions granted without resource or condition. -/
def permissions (g : Grants) : NameSet :=
  .ofList (g.facts.filterMap fun | .permission p => some p | _ => none)

/-- The roles granted. -/
def roles (g : Grants) : NameSet :=
  .ofList (g.facts.filterMap fun | .role r => some r | _ => none)

/-- Whether the same was granted, in whatever order. -/
def same (g h : Grants) : Bool :=
  g.facts.all (h.facts.contains ·) && h.facts.all (g.facts.contains ·)

end Grants
end AccessRules
