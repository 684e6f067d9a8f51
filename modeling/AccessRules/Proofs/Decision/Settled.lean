import AccessRules.Decision

/-! What calls with too few parameters settle.

Such a call is denied in every context, and that is all (`granted_starved`): the rule
around it can still be granted, by an `or` beside the call or a `not` above it. `settled?`
reads a tree with a third answer, open, for the calls that have their parameters. What it
settles is the answer in every context (`granted_of_settled?`), and it settles every rule
with such a call under nothing but `and` (`settled?_of_mem_conjuncts`). -/
namespace AccessRules

/-! ### Answers -/

/-- A call has no query exactly when it has too few parameters. -/
theorem query?_eq_none {check : Check} {params : List Text} :
    check.query? params = none ↔ params.length < check.arity := by
  cases check <;> rcases params with _ | ⟨p, _ | ⟨k, _ | ⟨v, rest⟩⟩⟩ <;>
    simp [Check.query?, Check.arity]

section Answers
variable (ctx : Context)

theorem granted_starved {check : Check} {params : List Text} (h : params.length < check.arity) :
    granted ctx (.call check params) = false := by
  rw [granted, evaluate, evaluateCall, query?_eq_none.mpr h]
  rfl

theorem granted_and (l r : Expr) :
    granted ctx (.op .and l r) = (granted ctx l && granted ctx r) := by
  simp only [granted, evaluate, Logged.value_bind]
  cases hl : (evaluate ctx l).value.granted with
  | false => simp [hl]
  | true => simp [Decision.followedBy]

theorem granted_or (l r : Expr) :
    granted ctx (.op .or l r) = (granted ctx l || granted ctx r) := by
  simp only [granted, evaluate, Logged.value_bind]
  cases hl : (evaluate ctx l).value.granted with
  | false => simp [Decision.followedBy]
  | true => simp [hl]

theorem granted_not (l : Expr) {r : Expr} (h : r ≠ .missing) :
    granted ctx (.op .not l r) = !granted ctx r := by
  cases r with
  | missing => exact absurd rfl h
  | _ => rfl

end Answers

/-! ### Settled answers -/

/-- The answer to a conjunction of which both parts are settled, or one is denied. -/
def settleBoth : Option Bool → Option Bool → Option Bool
  | some false, _ | _, some false => some false
  | some true, some true => some true
  | _, _ => none

namespace Expr

/-- The answer that calls with too few parameters settle, whatever the context. -/
def settled? : Expr → Option Bool
  | missing => some false
  | call check params => if params.length < check.arity then some false else none
  | op .and l r => settleBoth l.settled? r.settled?
  | op .or l r => (settleBoth (l.settled?.map (!·)) (r.settled?.map (!·))).map (!·)
  | op .not _ r => if r = missing then some false else r.settled?.map (!·)

/-- The calls that are asked with nothing but `and` above them. -/
def conjuncts : Expr → List (Check × List Text)
  | call check params => [(check, params)]
  | op .and l r => l.conjuncts ++ r.conjuncts
  | _ => []

end Expr

/-- The answers agree with what is settled. -/
def Settles (settled : Option Bool) (answer : Bool) : Prop := ∀ b ∈ settled, answer = b

theorem Settles.both {l r : Option Bool} {a b : Bool} (hl : Settles l a) (hr : Settles r b) :
    Settles (settleBoth l r) (a && b) := by
  unfold settleBoth
  intro c hc
  split at hc
  · cases hc
    rw [hl false rfl, Bool.false_and]
  · cases hc
    rw [hr false rfl, Bool.and_false]
  · cases hc
    rw [hl true rfl, hr true rfl, Bool.and_true]
  · cases hc

theorem Settles.negate {settled : Option Bool} {a : Bool} (h : Settles settled a) :
    Settles (settled.map (!·)) (!a) := by
  intro c hc
  obtain ⟨b, hb, rfl⟩ := Option.map_eq_some_iff.mp hc
  rw [h b hb]

theorem settles (ctx : Context) (e : Expr) : Settles e.settled? (granted ctx e) := by
  induction e with
  | missing =>
    intro b hb
    cases hb
    rfl
  | call check params =>
    intro b hb
    rw [Expr.settled?] at hb
    split at hb
    · rename_i hfew
      cases hb
      exact granted_starved ctx hfew
    · cases hb
  | op o l r ihl ihr =>
    cases o with
    | and =>
      rw [granted_and]
      exact ihl.both ihr
    | or =>
      have hboth := (ihl.negate.both ihr.negate).negate
      rw [granted_or]
      rwa [Bool.not_and, Bool.not_not, Bool.not_not] at hboth
    | not =>
      rw [Expr.settled?]
      split
      · rename_i hr
        intro b hb
        cases hb
        rw [hr]
        rfl
      · rename_i hr
        rw [granted_not ctx l hr]
        exact ihr.negate

/-- **What is settled is the answer in every context.** -/
theorem granted_of_settled? {e : Expr} {b : Bool} (h : e.settled? = some b) (ctx : Context) :
    granted ctx e = b := settles ctx e b h

/-- **A call with too few parameters settles a rule that has it under nothing but `and`.** -/
theorem settled?_of_mem_conjuncts {e : Expr} {check : Check} {params : List Text}
    (h : (check, params) ∈ e.conjuncts) (hfew : params.length < check.arity) :
    e.settled? = some false := by
  induction e with
  | missing => cases h
  | call c ps =>
    cases List.mem_singleton.mp h
    exact if_pos hfew
  | op o l r ihl ihr =>
    cases o with
    | and =>
      rw [Expr.settled?]
      rcases List.mem_append.mp h with h | h
      · rw [ihl h]
        rfl
      · rw [ihr h]
        unfold settleBoth
        cases l.settled? with
        | none => rfl
        | some b => cases b <;> rfl
    | or => cases h
    | not => cases h

end AccessRules
