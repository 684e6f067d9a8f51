import AccessRules.Log.Basic
import AccessRules.Query

/-! Decisions: what an expression answers in a context, and what it asks on the way.

`and` asks for its right operand only when the left one is granted, `or` only when it
is not. What cannot be evaluated as written is denied: a call with too few
parameters, and an operand that is missing. -/
namespace AccessRules

/-- The answer to an expression, and the queries put for it, in order. -/
structure Decision where
  granted : Bool
  queries : List Query
  deriving DecidableEq

namespace Decision

/-- A refusal for which nothing was asked. -/
def denied : Decision := ⟨false, []⟩

/-- The opposite answer, after the same queries. -/
def negate (d : Decision) : Decision := ⟨!d.granted, d.queries⟩

/-- The later decision, after the queries of both. -/
def followedBy (d later : Decision) : Decision := ⟨later.granted, d.queries ++ later.queries⟩

end Decision

open Logged (note)

/-- The decision on one call. -/
def evaluateCall (ctx : Context) (check : Check) (params : List Text) : Logged Decision :=
  match check.query? params with
  | some query => do
    note (.evaluating check params)
    return ⟨ctx query, [query]⟩
  | none => do
    note (.tooFewParameters check params.length)
    return .denied

/-- The decision on an expression. -/
def evaluate (ctx : Context) : Expr → Logged Decision
  | .missing => do
    note .missingOperand
    return .denied
  | .call check params => evaluateCall ctx check params
  | .op .and left right => do
    let l ← evaluate ctx left
    if l.granted then return l.followedBy (← evaluate ctx right) else return l
  | .op .or left right => do
    let l ← evaluate ctx left
    if l.granted then return l else return l.followedBy (← evaluate ctx right)
  | .op .not _ .missing => do
    note .notWithoutOperand
    return .denied
  | .op .not _ right => do
    return (← evaluate ctx right).negate

/-- Whether the expression is granted. -/
def granted (ctx : Context) (e : Expr) : Bool := (evaluate ctx e).value.granted

/-- The queries put for the expression, in order. -/
def queries (ctx : Context) (e : Expr) : List Query := (evaluate ctx e).value.queries

end AccessRules
