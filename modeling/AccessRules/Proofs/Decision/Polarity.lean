import AccessRules.Grants
import AccessRules.Proofs.Decision.Questions
import AccessRules.Proofs.Grammar.Inventory

/-! How a decision moves with the answers to its queries.

A call under an even number of `not` speaks for its rule, one under an odd number against it
(`callsUnder`). A rule is favoured by going to a context that grants no less of what speaks
for it and no more of what speaks against it (`Favoured`). This turns round at a `not`, as the
answer does (`Favoured.operand`), and so it can be followed through the tree.
`decision_monotone` says that a rule which is granted stays so when it is favoured, and that
acts of granting take nothing away from a rule without `not`. -/
namespace AccessRules

/-! ### Polarity -/

namespace Expr

/-- The calls that a decision can come to under an odd number of `not`, or under an even one;
the left slot of a `not` is out of its reach. -/
def callsUnder : (odd : Bool) → Expr → List (Check × List Text)
  | _, missing => []
  | odd, call check params => if odd then [] else [(check, params)]
  | odd, op .not _ r => r.callsUnder !odd
  | odd, op _ l r => l.callsUnder odd ++ r.callsUnder odd

/-- Going from the first context to the second one favours the tree: the second one grants
whatever the first one grants of the queries that speak for the tree, and the first one
whatever the second one grants of those that speak against it. -/
structure Favoured (e : Expr) (ctx ctx' : Context) : Prop where
  even : ∀ q ∈ askable (e.callsUnder false), ctx q = true → ctx' q = true
  odd : ∀ q ∈ askable (e.callsUnder true), ctx' q = true → ctx q = true

namespace Favoured
variable {ctx ctx' : Context} {l r : Expr}

/-- Below a `not` the contexts change places. -/
theorem operand (h : (op .not l r).Favoured ctx ctx') : r.Favoured ctx' ctx :=
  ⟨h.odd, h.even⟩

theorem operands {o : Op} (ho : o ≠ .not) (h : (op o l r).Favoured ctx ctx') :
    l.Favoured ctx ctx' ∧ r.Favoured ctx ctx' := by
  have hcalls (odd : Bool) : askable ((op o l r).callsUnder odd) =
      askable (l.callsUnder odd) ++ askable (r.callsUnder odd) := by
    rw [← askable_append]
    cases o with
    | not => exact absurd rfl ho
    | _ => rfl
  have heven := h.even
  have hodd := h.odd
  rw [hcalls, List.forall_mem_append] at heven hodd
  exact ⟨⟨heven.1, hodd.1⟩, ⟨heven.2, hodd.2⟩⟩

end Favoured

/-- Without `not` nothing speaks against a tree. -/
theorem callsUnder_odd {e : Expr} (h : Op.not ∉ e.ops) : e.callsUnder true = [] := by
  induction e with
  | missing => rfl
  | call check params => rfl
  | op o l r ihl ihr =>
    simp only [ops, List.mem_append, List.mem_cons, not_or] at h
    obtain ⟨hl, ho, hr⟩ := h
    cases o with
    | not => exact absurd rfl ho
    | _ => exact List.append_eq_nil_iff.mpr ⟨ihl hl, ihr hr⟩

end Expr

theorem granted_call (ctx : Context) (check : Check) (params : List Text) :
    granted ctx (.call check params) = (check.query? params).any ctx := by
  rw [granted, evaluate, evaluateCall]
  cases check.query? params <;> rfl

/-- **What is granted stays so when it is favoured.** -/
theorem Expr.Favoured.granted {e : Expr} {ctx ctx' : Context} (h : e.Favoured ctx ctx')
    (hgranted : granted ctx e = true) : AccessRules.granted ctx' e = true := by
  induction e generalizing ctx ctx' with
  | missing => cases hgranted
  | call check params =>
    rw [granted_call, Option.any_eq_true] at hgranted ⊢
    obtain ⟨q, hq, hctx⟩ := hgranted
    refine ⟨q, hq, h.even q ?_ hctx⟩
    exact List.mem_filterMap.mpr ⟨(check, params), List.mem_singleton_self _, hq⟩
  | op o l r ihl ihr =>
    cases o with
    | and =>
      obtain ⟨hl, hr⟩ := h.operands (by decide)
      rw [granted_and, Bool.and_eq_true] at hgranted ⊢
      exact hgranted.imp (ihl hl) (ihr hr)
    | or =>
      obtain ⟨hl, hr⟩ := h.operands (by decide)
      rw [granted_or, Bool.or_eq_true] at hgranted ⊢
      exact hgranted.imp (ihl hl) (ihr hr)
    | not =>
      by_cases hmissing : r = .missing
      · subst hmissing
        cases hgranted
      · rw [granted_not _ _ hmissing, Bool.not_eq_true'] at hgranted ⊢
        -- What the other context granted below the `not`, this one would have granted too.
        rw [Bool.eq_false_iff] at hgranted ⊢
        exact mt (ihr h.operand) hgranted

/-! ### Acts of granting -/

namespace Grants

theorem allows_eq_true {g : Grants} {q : Query} : g.allows q = true ↔ q ∈ g.facts :=
  List.contains_iff_mem

/-- Acts of granting add their facts, and do nothing else. -/
theorem facts_foldl (acts : List Grant) (g : Grants) :
    (acts.foldl add g).facts = g.facts ++ acts.flatMap Grant.facts := by
  induction acts generalizing g with
  | nil => exact (List.append_nil _).symm
  | cons act acts ih =>
    rw [List.foldl_cons, ih, List.flatMap_cons, ← List.append_assoc]
    rfl

/-- **Nothing that is granted is ever taken back.** -/
theorem allows_of_further {acts : List Grant} (further : List Grant) {q : Query}
    (h : (of acts).allows q = true) : (of (acts ++ further)).allows q = true := by
  rw [allows_eq_true] at h ⊢
  rw [of, List.foldl_append, facts_foldl]
  exact List.mem_append_left _ h

end Grants

/-- **A decision is monotone in the answers, each by the side it is on.** A tree that is
granted in one context is granted in every other one that grants no less under an even number
of `not` and no more under an odd number, whatever operands and parameters are missing. In
particular no further act of granting turns a granted decision on a rule without `not` into a
denied one. -/
theorem decision_monotone (e : Expr) :
    (∀ ctx ctx' : Context, e.Favoured ctx ctx' → granted ctx e = true → granted ctx' e = true) ∧
    (Op.not ∉ e.ops → ∀ acts further : List Grant,
      granted (Grants.of acts).allows e = true →
        granted (Grants.of (acts ++ further)).allows e = true) := by
  refine ⟨fun ctx ctx' h => h.granted, fun hnot acts further => ?_⟩
  have hfavoured : e.Favoured (Grants.of acts).allows (Grants.of (acts ++ further)).allows := by
    refine ⟨fun q _ => Grants.allows_of_further further, ?_⟩
    rw [Expr.callsUnder_odd hnot]
    exact fun _ hq => nomatch hq
  exact hfavoured.granted

theorem decision_monotone_mixed :
    (let e := Expr.op .and (.op .or (.call .resource ["doc".toList]) (.call .role ["A".toList]))
        (.not (.and (.call .role ["B".toList]) (.not (.call .permission ["p".toList]))))
      let ctx : Context := fun q => q = .role "A".toList ∨ q = .role "B".toList ∨
        q = .permission "p".toList
      let ctx' : Context := fun q => q = .role "A".toList ∨ q = .permission "p".toList
      e.Favoured ctx ctx' ∧ granted ctx e = true ∧ granted ctx' e = true) ∧
    (let e := Expr.op .or (.op .and .missing (.call .role ["B".toList])) (.call .role ["A".toList])
      let acts := [Grant.role "A".toList]
      let further := [Grant.roles ["B".toList, "C".toList], .resource "A".toList "A".toList]
      Op.not ∉ e.ops ∧ granted (Grants.of acts).allows e = true ∧
        granted (Grants.of (acts ++ further)).allows e = true) := by
  constructor
  · intro e ctx ctx'
    have hfavoured : e.Favoured ctx ctx' := ⟨by decide, by decide⟩
    have hgranted : granted ctx e = true := by decide
    exact ⟨hfavoured, hgranted, (decision_monotone e).1 ctx ctx' hfavoured hgranted⟩
  · intro e acts further
    have hnot : Op.not ∉ e.ops := by decide
    have hgranted : granted (Grants.of acts).allows e = true := by decide
    exact ⟨hnot, hgranted, (decision_monotone e).2 hnot acts further hgranted⟩

end AccessRules
