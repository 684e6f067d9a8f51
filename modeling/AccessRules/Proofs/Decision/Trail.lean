import AccessRules.Proofs.Decision.Questions

/-! The log of a decision as an audit trail.

The branches of a tree end in calls, in operands that are missing and in `not`s without
their operand. Each of these ends is listed once, from left to right, with the operands that
have to be decided before it, and how, for a decision to come to it (`Expr.tips`); this does
not depend on the context. Filtered by what the context answers, the list gives both the
log and the queries (`log_and_queries_eq`): one entry for each end that is reached, and one
query for each of those that is a call with its parameters. `log_faithful` says it in terms
of the messages. -/
namespace AccessRules

/-! ### Ends of branches -/

/-- What a branch of a tree can end in. -/
inductive Ending
  | call (check : Check) (params : List Text)
  | missingOperand
  | notWithoutOperand

namespace Ending

/-- The call, if it has as many parameters as its check reads. -/
def asked? : Ending → Option (Check × List Text)
  | call check params => if check.arity ≤ params.length then some (check, params) else none
  | missingOperand | notWithoutOperand => none

/-- What is logged about it. -/
def entry : Ending → LogEntry
  | call check params =>
    if check.arity ≤ params.length then .evaluating check params
    else .tooFewParameters check params.length
  | missingOperand => .missingOperand
  | notWithoutOperand => .notWithoutOperand

/-- The query put for it. -/
def query? : Ending → Option Query
  | call check params => check.query? params
  | missingOperand | notWithoutOperand => none

end Ending

/-- The end of a branch, and the operands decided before a decision comes to it, each with the
answer it must have had. -/
structure Tip where
  ending : Ending
  after : List (Expr × Bool)

namespace Tip

/-- The end of a branch in the right operand of an operator that looks at it only if the left one
has this answer. -/
def behind (left : Expr) (answer : Bool) (t : Tip) : Tip := ⟨t.ending, (left, answer) :: t.after⟩

/-- Whether a decision in the context comes to it. -/
def reached (ctx : Context) (t : Tip) : Bool := t.after.all fun c => granted ctx c.1 == c.2

end Tip

/-- The ends of all branches, from left to right; what stands in the left slot of a `not` is no
part of what it says. -/
def Expr.tips : Expr → List Tip
  | missing => [⟨.missingOperand, []⟩]
  | call check params => [⟨.call check params, []⟩]
  | op .and l r => l.tips ++ r.tips.map (Tip.behind l true)
  | op .or l r => l.tips ++ r.tips.map (Tip.behind l false)
  | op .not _ r => if r = missing then [⟨.notWithoutOperand, []⟩] else r.tips

/-- What the decision on an expression comes to, in order. -/
def endings (ctx : Context) (e : Expr) : List Ending :=
  (e.tips.filter (Tip.reached ctx)).map Tip.ending

/-- The calls that a decision comes to with enough parameters, in order. -/
def asked (ctx : Context) (e : Expr) : List (Check × List Text) :=
  (endings ctx e).filterMap Ending.asked?

/-! ### What is reached -/

section Reached
variable (ctx : Context) (l r : Expr)

/-- Of the right operand everything is left out, or nothing but what it leaves out itself. -/
theorem endings_behind (answer : Bool) :
    ((r.tips.map (Tip.behind l answer)).filter (Tip.reached ctx)).map Tip.ending =
      if granted ctx l = answer then endings ctx r else [] := by
  have hreached : Tip.reached ctx ∘ Tip.behind l answer =
      fun t => granted ctx l == answer && t.reached ctx := rfl
  rw [List.filter_map, List.map_map, hreached]
  split
  · rename_i hl
    rw [hl, BEq.rfl]
    simp only [Bool.true_and]
    rfl
  · rename_i hl
    rw [beq_eq_false_iff_ne.mpr hl]
    simp

theorem endings_and : endings ctx (.op .and l r) =
    endings ctx l ++ if granted ctx l then endings ctx r else [] := by
  rw [← endings_behind ctx l r true, endings, Expr.tips, List.filter_append, List.map_append]
  rfl

theorem endings_or : endings ctx (.op .or l r) =
    endings ctx l ++ if granted ctx l then [] else endings ctx r := by
  have hdenied : (if granted ctx l = true then [] else endings ctx r) =
      if granted ctx l = false then endings ctx r else [] := by
    cases granted ctx l <;> rfl
  rw [hdenied, ← endings_behind ctx l r false, endings, Expr.tips, List.filter_append,
    List.map_append]
  rfl

theorem endings_not {r : Expr} (h : r ≠ .missing) :
    endings ctx (.op .not l r) = endings ctx r := by
  rw [endings, Expr.tips, if_neg h]
  rfl

end Reached

/-! ### Log and queries -/

theorem log_call (ctx : Context) (check : Check) (params : List Text) :
    (evaluate ctx (.call check params)).log = [(Ending.call check params).entry] := by
  rw [evaluate, evaluateCall, Ending.entry]
  cases hq : check.query? params with
  | none => rw [if_neg (Nat.not_le.mpr (query?_eq_none.mp hq))]; rfl
  | some q => rw [if_pos (query?_eq_some hq).1]; rfl

/-- **Log and queries are those of the ends that are reached**, in the same order. -/
theorem log_and_queries_eq (ctx : Context) (e : Expr) :
    (evaluate ctx e).log = (endings ctx e).map Ending.entry ∧
      queries ctx e = (endings ctx e).filterMap Ending.query? := by
  induction e with
  | missing => exact ⟨rfl, rfl⟩
  | call check params =>
    refine ⟨log_call ctx check params, ?_⟩
    show _ = [Ending.call check params].filterMap Ending.query?
    rw [queries_call]
    cases hq : check.query? params <;> simp [Ending.query?, hq]
  | op o l r ihl ihr =>
    cases o with
    | and =>
      rw [log_and, queries_and, endings_and, List.map_append, List.filterMap_append, ihl.1, ihl.2]
      split
      · exact ⟨congrArg _ ihr.1, congrArg _ ihr.2⟩
      · exact ⟨rfl, rfl⟩
    | or =>
      rw [log_or, queries_or, endings_or, List.map_append, List.filterMap_append, ihl.1, ihl.2]
      split
      · exact ⟨rfl, rfl⟩
      · exact ⟨congrArg _ ihr.1, congrArg _ ihr.2⟩
    | not =>
      by_cases hr : r = .missing
      · subst hr
        exact ⟨rfl, rfl⟩
      · rw [log_not ctx l hr, queries_not ctx l hr, endings_not ctx l hr]
        exact ihr

/-! ### Messages -/

namespace Ending
variable (endings : List Ending)

/-- The trace entries are those of the calls that have their parameters. -/
theorem filter_trace : (endings.map entry).filter (·.level = .trace) =
    (endings.filterMap asked?).map fun c => .evaluating c.1 c.2 := by
  rw [← List.filterMap_eq_filter, List.filterMap_map, List.map_filterMap]
  refine congrArg (List.filterMap · endings) (funext fun ending => ?_)
  cases ending with
  | call check params =>
    by_cases h : check.arity ≤ params.length <;> simp [entry, asked?, h, LogEntry.level]
  | _ => rfl

/-- The warnings are those of all others. -/
theorem filter_warn : (endings.map entry).filter (·.level = .warn) =
    (endings.filter (·.asked?.isNone)).map entry := by
  rw [List.filter_map]
  refine congrArg (List.map entry) (List.filter_congr fun ending _ => ?_)
  cases ending with
  | call check params =>
    by_cases h : check.arity ≤ params.length <;> simp [entry, asked?, h, LogEntry.level]
  | _ => rfl

/-- A query is put for each call that has its parameters, and for no other. -/
theorem map_queries : (endings.filterMap query?).map some =
    (endings.filterMap asked?).map fun c => c.1.query? c.2 := by
  rw [List.map_filterMap, List.map_filterMap]
  refine congrArg (List.filterMap · endings) (funext fun ending => ?_)
  cases ending with
  | call check params =>
    rw [query?, asked?]
    split
    · rename_i henough
      obtain ⟨q, hq⟩ := Option.ne_none_iff_exists'.mp (mt query?_eq_none.mp (Nat.not_lt.mpr henough))
      rw [hq, Option.map_some, Option.map_some, hq]
    · rename_i hfew
      rw [query?_eq_none.mpr (Nat.lt_of_not_le hfew)]
      rfl
  | _ => rfl

end Ending

/-- **The log is a faithful audit trail.** Everything that a decision logs is about what it comes
to, in that order and once for each. The trace messages name, with their parameters as written,
the very calls whose queries are put; there is one warning for each call with too few
parameters, each `not` without its operand and each missing operand, and no query for it. -/
theorem log_faithful (ctx : Context) (e : Expr) :
    (evaluate ctx e).log = (endings ctx e).map Ending.entry ∧
    ((evaluate ctx e).log.filter (·.level = .trace)).map LogEntry.message =
      (asked ctx e).map (fun c => "evaluating " ++ c.1.name ++ "(" ++
        String.intercalate ", " (c.2.map Text.shown) ++ ")") ∧
    (queries ctx e).map some = (asked ctx e).map (fun c => c.1.query? c.2) ∧
    (evaluate ctx e).log.filter (·.level = .warn) =
      ((endings ctx e).filter (·.asked?.isNone)).map Ending.entry := by
  obtain ⟨hlog, hqueries⟩ := log_and_queries_eq ctx e
  refine ⟨hlog, ?_, ?_, ?_⟩
  · rw [hlog, Ending.filter_trace, List.map_map]
    rfl
  · rw [hqueries, Ending.map_queries]
    rfl
  · rw [hlog, Ending.filter_warn]

/-- What is skipped leaves nothing in the log. -/
example : (evaluate (fun _ => false) (.op .or (.op .and (.call .role ["A".toList]) .missing)
      (.op .not .missing .missing))).log = [.evaluating .role ["A".toList], .notWithoutOperand] := by
  decide

end AccessRules
