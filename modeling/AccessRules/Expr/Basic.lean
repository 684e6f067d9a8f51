import AccessRules.Expr.Check
import AccessRules.Expr.Op

/-! Expressions: what a rule says, as a tree of calls joined by operators.

`and` and `or` have a left and a right operand, `not` only a right one. Trees can
also be built by hand, and then an operand can be missing anywhere; a missing
operand is a tree of no nodes, so that every recursion treats it in one place. -/
namespace AccessRules

/-- A tree of calls and operators. Parameters stand as written, quotes included. -/
inductive Expr
  | missing
  | call (check : Check) (params : List Text)
  | op (op : Op) (left right : Expr)
  deriving DecidableEq

namespace Expr

/-- `l AND r`. -/
def and (l r : Expr) : Expr := .op .and l r

/-- `l OR r`. -/
def or (l r : Expr) : Expr := .op .or l r

/-- `NOT e`: the left operand stays missing. -/
def not (e : Expr) : Expr := .op .not .missing e

/-- Whether the tree is a single call. -/
def isCall : Expr → Bool
  | call _ _ => true
  | _ => false

/-- The number of calls and operators in the tree. -/
def nodeCount : Expr → Nat
  | missing => 0
  | call _ _ => 1
  | op _ l r => 1 + l.nodeCount + r.nodeCount

/-- The number of nodes on the longest way from the root to a leaf. -/
def depth : Expr → Nat
  | missing => 0
  | call _ _ => 1
  | op _ l r => 1 + max l.depth r.depth

end Expr
end AccessRules
