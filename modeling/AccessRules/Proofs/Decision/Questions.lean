import AccessRules.Proofs.Decision.Combining

/-! What a decision depends on.

Only the calls within reach of a decision can be asked, and each of them puts the one query
that its check makes of its parameters (`query?_eq_some`). Which of them are asked is settled
by the answers to earlier ones, so that contexts which agree on the queries that were put
cannot be told apart: `decision_local` carries answer, queries and log through the tree
together. -/
namespace AccessRules

/-! ### Queries of calls -/

/-- The query of a call is about its first parameters, as many as its check reads. -/
theorem query?_eq_some {check : Check} {params : List Text} {q : Query}
    (h : check.query? params = some q) : check.arity ≤ params.length ∧ q.check = check ∧
      q.args = (params.take check.arity).map unquote := by
  cases check <;> rcases params with _ | ⟨p, _ | ⟨k, _ | ⟨v, rest⟩⟩⟩ <;> cases h <;>
    exact ⟨Nat.le_add_left .., rfl, rfl⟩

/-- The calls that a decision can come to, from left to right: the left slot of a `not` is
out of its reach. -/
def Expr.reachable : Expr → List (Check × List Text)
  | missing => []
  | call check params => [(check, params)]
  | op .not _ r => r.reachable
  | op _ l r => l.reachable ++ r.reachable

/-- The queries that calls with enough parameters put. -/
def askable (calls : List (Check × List Text)) : List Query :=
  calls.filterMap fun c => c.1.query? c.2

theorem askable_append (a b : List (Check × List Text)) :
    askable (a ++ b) = askable a ++ askable b := List.filterMap_append

/-- What the queries are about, said of the calls. -/
theorem about_askable (calls : List (Check × List Text)) :
    (askable calls).map (fun q => (q.check, q.args)) =
      (calls.filter fun c => c.1.arity ≤ c.2.length).map
        fun c => (c.1, (c.2.take c.1.arity).map unquote) := by
  induction calls with
  | nil => rfl
  | cons c calls ih =>
    cases hq : c.1.query? c.2 with
    | none =>
      have hfew : ¬ c.1.arity ≤ c.2.length := Nat.not_le.mpr (query?_eq_none.mp hq)
      have hcons : askable (c :: calls) = askable calls := by
        simp only [askable, List.filterMap_cons, hq]
      rw [hcons, ih, List.filter_cons_of_neg (by simpa using hfew)]
    | some q =>
      obtain ⟨henough, hcheck, hargs⟩ := query?_eq_some hq
      have hcons : askable (c :: calls) = q :: askable calls := by
        simp only [askable, List.filterMap_cons, hq]
      rw [hcons, List.map_cons, ih, List.filter_cons_of_pos (by simpa using henough),
        List.map_cons, hcheck, hargs]

/-! ### Calls -/

theorem queries_call (ctx : Context) (check : Check) (params : List Text) :
    queries ctx (.call check params) = (check.query? params).toList := by
  rw [queries, evaluate, evaluateCall]
  cases check.query? params <;> rfl

theorem evaluateCall_congr {ctx ctx' : Context} {check : Check} {params : List Text}
    (h : ∀ q ∈ check.query? params, ctx' q = ctx q) :
    evaluateCall ctx' check params = evaluateCall ctx check params := by
  unfold evaluateCall
  cases hq : check.query? params with
  | none => rfl
  | some q => simp only [h q hq]

/-! ### Expressions -/

/-- The queries put are some of those that can be, in the same order. -/
theorem queries_sublist (ctx : Context) (e : Expr) :
    (queries ctx e).Sublist (askable e.reachable) := by
  induction e with
  | missing => exact List.nil_sublist _
  | call check params =>
    rw [queries_call, Expr.reachable, askable]
    cases hq : check.query? params <;> simp [hq]
  | op o l r ihl ihr =>
    cases o with
    | and =>
      show (queries ctx (.op .and l r)).Sublist (askable (l.reachable ++ r.reachable))
      rw [queries_and, askable_append]
      refine ihl.append ?_
      split
      · exact ihr
      · exact List.nil_sublist _
    | or =>
      show (queries ctx (.op .or l r)).Sublist (askable (l.reachable ++ r.reachable))
      rw [queries_or, askable_append]
      refine ihl.append ?_
      split
      · exact List.nil_sublist _
      · exact ihr
    | not =>
      by_cases hr : r = .missing
      · subst hr
        exact List.nil_sublist _
      · rw [queries_not ctx l hr, Expr.reachable]
        exact ihr

/-- Contexts that answer the queries put alike are not told apart. -/
theorem evaluate_congr {ctx ctx' : Context} {e : Expr} (h : ∀ q ∈ queries ctx e, ctx' q = ctx q) :
    evaluate ctx' e = evaluate ctx e := by
  -- The left operand is decided alike, so the right one is looked at in both contexts or in
  -- none; if it is, its queries are among those put.
  induction e with
  | missing => rfl
  | call check params =>
    rw [queries_call] at h
    exact evaluateCall_congr fun q hq => h q (Option.mem_toList.mpr hq)
  | op o l r ihl ihr =>
    cases o with
    | and =>
      rw [queries_and] at h
      have hl := ihl fun q hq => h q (List.mem_append_left _ hq)
      rw [evaluate_and, evaluate_and]
      refine Logged.both_congr hl fun hgranted => ihr fun q hq => h q (List.mem_append_right _ ?_)
      rw [hl] at hgranted
      rwa [granted, if_pos hgranted]
    | or =>
      rw [queries_or] at h
      have hl := ihl fun q hq => h q (List.mem_append_left _ hq)
      rw [evaluate_or, evaluate_or]
      refine Logged.either_congr hl fun hdenied => ihr fun q hq => h q (List.mem_append_right _ ?_)
      rw [hl] at hdenied
      rwa [granted, hdenied, if_neg Bool.false_ne_true]
    | not =>
      by_cases hr : r = .missing
      · subst hr
        rfl
      · rw [queries_not ctx l hr] at h
        rw [evaluate_not ctx' l hr, evaluate_not ctx l hr, ihr h]

/-- **A decision depends only on the queries it puts.** They are put for calls within its
reach that have enough parameters, from left to right, each call being asked about its first
parameters without their quotes. A context that answers those very queries in the same way
gives the same decision, after the same queries and with the same log, whatever else it
answers. -/
theorem decision_local (ctx : Context) (e : Expr) :
    ((queries ctx e).map fun q => (q.check, q.args)).Sublist
      ((e.reachable.filter fun c => c.1.arity ≤ c.2.length).map
        fun c => (c.1, (c.2.take c.1.arity).map unquote)) ∧
    ∀ ctx' : Context, (∀ q ∈ queries ctx e, ctx' q = ctx q) →
      granted ctx' e = granted ctx e ∧ queries ctx' e = queries ctx e ∧
      (evaluate ctx' e).log = (evaluate ctx e).log := by
  constructor
  · rw [← about_askable]
    exact (queries_sublist ctx e).map _
  · intro ctx' h
    have heq := evaluate_congr h
    exact ⟨congrArg (·.value.granted) heq, congrArg (·.value.queries) heq, congrArg (·.log) heq⟩

theorem decision_local_elsewhere :
    let e := Expr.op .and (.op .or (.call .role ["'A'".toList]) (.call .permission ["p".toList]))
      (.op .not (.op .not (.call .role ["B".toList]) .missing) (.call .resource ["doc".toList]))
    let ctx : Context := fun q => q = .role "A".toList
    let ctx' : Context := fun q => q ≠ .role "B".toList
    ctx ≠ ctx' ∧ queries ctx e = [.role "A".toList] ∧ (∀ q ∈ queries ctx e, ctx' q = ctx q) ∧
      granted ctx' e = granted ctx e ∧ queries ctx' e = queries ctx e ∧
      (evaluate ctx' e).log = (evaluate ctx e).log := by
  intro e ctx ctx'
  have hagree : ∀ q ∈ queries ctx e, ctx' q = ctx q := by decide
  have hdiffer : ctx (.permission "p".toList) ≠ ctx' (.permission "p".toList) := by decide
  exact ⟨fun h => hdiffer (congrFun h _), by decide, hagree, (decision_local ctx e).2 ctx' hagree⟩

end AccessRules
