import AccessRules.Expr.Check
import AccessRules.Params

/-! Queries: the questions that checks put to a context.

A call puts the query of its check, with its first parameters unquoted; a call with
too few parameters has no query. -/
namespace AccessRules

/-- A question about the principal. -/
inductive Query
  | permission (permission : Text)
  | role (role : Text)
  | resource (resource action : Text)
  | conditional (permission key value : Text)
  deriving DecidableEq

namespace Query

/-- The check that puts the query. -/
def check : Query → Check
  | permission _ => .permission
  | role _ => .role
  | resource _ _ => .resource
  | conditional _ _ _ => .conditional

/-- What is asked about, in the order of the check's parameters. -/
def args : Query → List Text
  | permission p => [p]
  | role r => [r]
  | resource r a => [r, a]
  | conditional p k v => [p, k, v]

end Query

/-- What answers queries. -/
abbrev Context := Query → Bool

/-- The query of a call, unless it has too few parameters. -/
def Check.query? : Check → List Text → Option Query
  | permission, p :: _ => some (.permission (unquote p))
  | role, r :: _ => some (.role (unquote r))
  | resource, r :: a :: _ => some (.resource (unquote r) (unquote a))
  | conditional, p :: k :: v :: _ => some (.conditional (unquote p) (unquote k) (unquote v))
  | _, _ => none

end AccessRules
