import AccessRules.Proofs.Decision.Combining
import Mathlib.Logic.Relation

/-! Rewriting an expression by the laws of Boolean algebra.

A `Law` moves no operand past another one and drops none, so it keeps what is asked and in
which order (`Law.evaluate_eq`). `Rewrite` applies a law at any place in a tree;
`Rewrite.evaluate_eq` carries the laws up to the root, and `decision_of_rewrites` says that
no number of rewrites, forwards or backwards, can be noticed in any context. -/
namespace AccessRules

/-! ### Laws -/

/-- A law of Boolean algebra, from left to right. The operands it negates have to be there;
what stands in the left slot of a `not` is never looked at. -/
inductive Law : Expr → Expr → Prop
  | doubleNegation {a : Expr} (x y : Expr) (ha : a ≠ .missing) :
    Law (.op .not x (.op .not y a)) a
  | negatedAnd {a b : Expr} (x y z : Expr) (ha : a ≠ .missing) (hb : b ≠ .missing) :
    Law (.op .not x (.op .and a b)) (.op .or (.op .not y a) (.op .not z b))
  | negatedOr {a b : Expr} (x y z : Expr) (ha : a ≠ .missing) (hb : b ≠ .missing) :
    Law (.op .not x (.op .or a b)) (.op .and (.op .not y a) (.op .not z b))
  | andAssoc (a b c : Expr) : Law (.op .and (.op .and a b) c) (.op .and a (.op .and b c))
  | orAssoc (a b c : Expr) : Law (.op .or (.op .or a b) c) (.op .or a (.op .or b c))

theorem Expr.op_ne_missing {o : Op} {l r : Expr} : Expr.op o l r ≠ .missing := nofun

namespace Law
variable {e e' : Expr}

theorem ne_missing (h : Law e e') : e ≠ .missing ∧ e' ≠ .missing := by
  cases h with
  | doubleNegation x y ha => exact ⟨Expr.op_ne_missing, ha⟩
  | _ => exact ⟨Expr.op_ne_missing, Expr.op_ne_missing⟩

/-- **A law changes nothing of a decision**: not the answer, nor the queries, nor the log. -/
theorem evaluate_eq (h : Law e e') (ctx : Context) : evaluate ctx e = evaluate ctx e' := by
  cases h with
  | doubleNegation x y ha =>
    rw [evaluate_not ctx x Expr.op_ne_missing, evaluate_not ctx y ha, Logged.negate_negate]
  | negatedAnd x y z ha hb =>
    rw [evaluate_not ctx x Expr.op_ne_missing, evaluate_and, Logged.negate_both, evaluate_or,
      evaluate_not ctx y ha, evaluate_not ctx z hb]
  | negatedOr x y z ha hb =>
    rw [evaluate_not ctx x Expr.op_ne_missing, evaluate_or, Logged.negate_either, evaluate_and,
      evaluate_not ctx y ha, evaluate_not ctx z hb]
  | andAssoc a b c => simp only [evaluate_and, Logged.both_assoc]
  | orAssoc a b c => exact evaluate_or_assoc ctx a b c

end Law

/-! ### Rewrites -/

/-- One use of a law, somewhere in a tree. -/
inductive Rewrite : Expr → Expr → Prop
  | law {e e' : Expr} (h : Law e e') : Rewrite e e'
  | left {l l' : Expr} (o : Op) (r : Expr) (h : Rewrite l l') : Rewrite (.op o l r) (.op o l' r)
  | right {r r' : Expr} (o : Op) (l : Expr) (h : Rewrite r r') : Rewrite (.op o l r) (.op o l r')

namespace Rewrite
variable {e e' : Expr}

theorem ne_missing (h : Rewrite e e') : e ≠ .missing ∧ e' ≠ .missing := by
  cases h with
  | law h => exact h.ne_missing
  | left | right => exact ⟨Expr.op_ne_missing, Expr.op_ne_missing⟩

/-- The decision on a tree depends on the decisions on its operands and on which of them
are there. -/
theorem evaluate_eq (h : Rewrite e e') (ctx : Context) : evaluate ctx e = evaluate ctx e' := by
  induction h with
  | law h => exact h.evaluate_eq ctx
  | @left l l' o r h ih =>
    cases o with
    | and => rw [evaluate_and, evaluate_and, ih]
    | or => rw [evaluate_or, evaluate_or, ih]
    | not =>
      by_cases hr : r = .missing
      · subst hr
        rfl
      · rw [evaluate_not ctx l hr, evaluate_not ctx l' hr]
  | right o l h ih =>
    obtain ⟨hr, hr'⟩ := h.ne_missing
    cases o with
    | and => rw [evaluate_and, evaluate_and, ih]
    | or => rw [evaluate_or, evaluate_or, ih]
    | not => rw [evaluate_not ctx l hr, evaluate_not ctx l hr', ih]

end Rewrite

/-- **Boolean rewriting cannot be noticed.** Trees that come from each other by any number of
rewrites, each of them at any place and in either direction, have the same answer in every
context, after the same queries in the same order and with the same log. -/
theorem decision_of_rewrites {e e' : Expr} (h : Relation.EqvGen Rewrite e e') (ctx : Context) :
    granted ctx e = granted ctx e' ∧ queries ctx e = queries ctx e' ∧
      (evaluate ctx e).log = (evaluate ctx e').log := by
  have heq : evaluate ctx e = evaluate ctx e' := by
    induction h with
    | rel _ _ h => exact h.evaluate_eq ctx
    | refl _ => rfl
    | symm _ _ _ ih => exact ih.symm
    | trans _ _ _ _ _ ih ih' => exact ih.trans ih'
  exact ⟨congrArg (·.value.granted) heq, congrArg (·.value.queries) heq, congrArg (·.log) heq⟩

theorem decision_of_rewrites_nested :
    let a := Expr.call .role ["A".toList]
    let b := Expr.op .and .missing (.call .resource ["doc".toList])
    let c := Expr.call .permission ["p".toList]
    let e := Expr.op .or c (.not (.and (.and a b) c))
    let e' := Expr.op .or c (.or (.not a) (.not (.and b c)))
    let ctx : Context := fun q => q = .role "A".toList
    Relation.EqvGen Rewrite e e' ∧ granted ctx e = granted ctx e' ∧
      queries ctx e = queries ctx e' ∧ (evaluate ctx e).log = (evaluate ctx e').log := by
  intro a b c e e' ctx
  have hregroup : Rewrite e (.op .or c (.not (.and a (.and b c)))) :=
    .right _ _ (.right _ _ (.law (.andAssoc a b c)))
  have hnegate : Rewrite (.op .or c (.not (.and a (.and b c)))) e' :=
    .right _ _ (.law (.negatedAnd .missing .missing .missing nofun nofun))
  have hrewrites : Relation.EqvGen Rewrite e e' :=
    .trans _ _ _ (.rel _ _ hregroup) (.rel _ _ hnegate)
  exact ⟨hrewrites, decision_of_rewrites hrewrites ctx⟩

end AccessRules
