import AccessRules.Proofs.Decision.Combining
import AccessRules.Proofs.Grammar.Inventory
import AccessRules.Proofs.Lexeme.Ends

/-! What every tree that is read is like.

Operators have their operands (`Phrase.complete_tree`), so that an evaluation never meets a
missing one (`Expr.Complete.log`). Parameters are trimmed and in one piece
(`ReadParam`, with `readParam_of_paramsIn`). The last parameter of a leaf can be empty, since
only one empty parameter is dropped: `well_formed_of_parse` says for which arguments it
is. -/
namespace AccessRules

/-! ### Operands -/

namespace Expr

/-- Every operator has its operands, and `NOT` none to its left. -/
def Complete : Expr → Prop
  | missing => False
  | call _ _ => True
  | op .not l r => l = missing ∧ r.Complete
  | op _ l r => l.Complete ∧ r.Complete

theorem Complete.ne_missing {e : Expr} (h : e.Complete) : e ≠ missing := by
  rintro rfl
  exact h

end Expr

theorem log_evaluateCall (ctx : Context) (check : Check) (params : List Text) :
    ∀ entry ∈ (evaluateCall ctx check params).log,
      entry ≠ .missingOperand ∧ entry ≠ .notWithoutOperand := by
  unfold evaluateCall
  split <;> exact List.forall_mem_singleton.mpr ⟨nofun, nofun⟩

/-- The evaluation of a complete tree takes no branch for a missing operand. -/
theorem Expr.Complete.log {e : Expr} (h : e.Complete) (ctx : Context) :
    ∀ entry ∈ (evaluate ctx e).log, entry ≠ .missingOperand ∧ entry ≠ .notWithoutOperand := by
  intro entry hentry
  induction e with
  | missing => exact h.elim
  | call check params => exact log_evaluateCall ctx check params entry hentry
  | op op l r ihl ihr =>
    cases op with
    | and =>
      rw [evaluate_and] at hentry
      exact (Logged.mem_log_both hentry).elim (ihl h.1) (ihr h.2)
    | or =>
      rw [evaluate_or] at hentry
      exact (Logged.mem_log_either hentry).elim (ihl h.1) (ihr h.2)
    | not =>
      rw [evaluate_not ctx l h.2.ne_missing] at hentry
      exact ihr h.2 hentry

/-! ### Parameters -/

/-- What every parameter that is read is like, on the outside of its literals. -/
structure ReadParam (p : Text) : Prop where
  trimmed : p.trim = p
  closed : endsInLiteral (lex p) = false
  noComma : ∀ q ∈ lex p, q.lexeme ≠ .comma
  plain : ∀ q ∈ lex p, q.lexeme.op? = none

section Params
variable {args : Text} {ps : List Text} (h : paramsIn args = .ok ps)
include h

theorem readParam_of_paramsIn (hplain : ∀ q ∈ lex args, q.lexeme.op? = none) {p : Text}
    (hp : p ∈ ps) : ReadParam p := by
  obtain ⟨hclosed, rfl⟩ := paramsIn_eq_ok.mp h
  have hlegible := legible_lex args
  have hmem := lexeme_of_mem_params hlegible hp
  refine ⟨trim_of_mem_params hlegible hclosed hp, closed_of_mem_params hlegible hclosed hp,
    fun q hq => (hmem q hq).1, fun q hq => ?_⟩
  obtain ⟨-, r, hr, hrq⟩ := hmem q hq
  exact hrq ▸ hplain r hr

/-- Only one trailing empty parameter is dropped, so a second comma leaves one. -/
theorem getLast?_of_paramsIn : ps.getLast? = some [] ↔
    (lex args).map (·.lexeme) = [.comma] ∨ [.comma, .comma] <:+ (lex args).map (·.lexeme) := by
  obtain ⟨-, rfl⟩ := paramsIn_eq_ok.mp h
  exact getLast?_params_eq_nil (legible_lex args)

end Params

/-! ### Trees of phrases -/

namespace Phrase

theorem complete_tree {r : Rank} (d : Phrase r) : d.tree.Complete := by
  induction d with
  | call check gap args => trivial
  | group before inside after ih => exact ih
  | not p ih => exact ⟨rfl, ih⟩
  | and l r ihl ihr | or l r ihl ihr => exact ⟨ihl, ihr⟩
  | unit p ih | negation p ih | conjunction p ih => exact ih

/-- Each leaf has the parameters of some arguments of the phrase. -/
theorem exists_args {r : Rank} (d : Phrase r) {leaf : Check × List Text}
    (h : leaf ∈ d.tree.calls) : ∃ args : Args, leaf.2 = args.parameters := by
  induction d with
  | call check gap args =>
    cases List.mem_singleton.mp h
    exact ⟨args, rfl⟩
  | unit p ih | negation p ih | conjunction p ih | group _ p _ ih => exact ih h
  | not p ih => exact ih ((List.mem_append.mp h).resolve_left List.not_mem_nil)
  | and l r ihl ihr | or l r ihl ihr => exact (List.mem_append.mp h).elim ihl ihr

end Phrase

/-! ### Texts -/

/-- The leaf is what a call of the text is read as, with `text` between its parentheses. Its
last parameter is empty if that is a comma alone or ends in two commas, and only then. -/
structure ReadAs (leaf : Check × List Text) (c : Call) (text : Text) : Prop where
  name : c.name = leaf.1.name.toList
  between : c.args = some text
  parameters : paramsIn text = .ok leaf.2
  last : leaf.2.getLast? = some [] ↔
    (lex text).map (·.lexeme) = [.comma] ∨ [.comma, .comma] <:+ (lex text).map (·.lexeme)

theorem readAs_of_calls {cs : List Call} {leaves : List (Check × List Text)}
    (h : cs.map (fun c => (c.name, c.args.map paramsIn)) =
      leaves.map fun leaf => (leaf.1.name.toList, some (.ok leaf.2))) :
    List.Forall₂ (fun leaf c => ∃ text, ReadAs leaf c text) leaves cs := by
  rw [← List.forall₂_eq_eq_eq, List.forall₂_map_left_iff, List.forall₂_map_right_iff] at h
  refine h.flip.imp fun leaf c hc => ?_
  obtain ⟨hname, hargs⟩ := Prod.mk.inj hc
  obtain ⟨text, hbetween, hparams⟩ := Option.map_eq_some_iff.mp hargs
  exact ⟨text, hname, hbetween, hparams, getLast?_of_paramsIn hparams⟩

/-- **Every tree that is read is well formed.** Its operators have their operands, and no
evaluation misses one; its parameters are trimmed, and outside literals they have no comma
and no keyword; and the last parameter of a leaf is empty only where the text has a comma
before the one that is dropped. -/
theorem well_formed_of_parse {s : Text} {e : Expr} (h : parse s = .ok e) :
    e.Complete ∧
    (∀ leaf ∈ e.calls, ∀ p ∈ leaf.2, ReadParam p) ∧
    List.Forall₂ (fun leaf c => ∃ text, ReadAs leaf c text) e.calls (callsIn (tidyText s)) ∧
    ∀ ctx, ∀ entry ∈ (evaluate ctx e).log,
      entry ≠ .missingOperand ∧ entry ≠ .notWithoutOperand := by
  obtain ⟨d, hd, rfl, -⟩ := phrase_of_parse h
  refine ⟨d.complete_tree, fun leaf hleaf p hp => ?_, readAs_of_calls ?_, d.complete_tree.log⟩
  · obtain ⟨args, hargs⟩ := d.exists_args hleaf
    exact readParam_of_paramsIn args.divided args.plain (hargs ▸ hp)
  · rw [callsIn_tidyText, hd, d.callsFrom_whole]
    exact d.calls_tree 0

theorem well_formed_of_parse_commas :
    let s := "not hasRole( 'a,b' , , ) and (hasPermission(,) or hasRole(x y,))".toList
    let e := Expr.and (.not (.call .role ["'a,b'".toList, []]))
      (.or (.call .permission [[]]) (.call .role ["x y".toList]))
    parse s = .ok e ∧ e.Complete ∧
      (∀ leaf ∈ e.calls, ∀ p ∈ leaf.2, ReadParam p) ∧
      List.Forall₂ (fun leaf c => ∃ text, ReadAs leaf c text) e.calls (callsIn (tidyText s)) ∧
      ∀ ctx, ∀ entry ∈ (evaluate ctx e).log,
        entry ≠ .missingOperand ∧ entry ≠ .notWithoutOperand := by
  intro s e
  have h : parse s = .ok e := by decide +kernel
  exact ⟨h, well_formed_of_parse h⟩

/-- A comma alone leaves a parameter that is empty, and it is the last one. -/
theorem last_parameter_of_comma :
    parse "hasRole(,)".toList = .ok (.call .role [[]]) ∧
      ¬∀ leaf ∈ (Expr.call .role [[]]).calls, leaf.2.getLast? ≠ some [] := by
  refine ⟨by decide +kernel, fun hlast => ?_⟩
  exact hlast (.role, [[]]) (List.mem_singleton_self _) rfl

end AccessRules
