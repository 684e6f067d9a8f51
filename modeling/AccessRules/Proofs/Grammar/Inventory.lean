import AccessRules.Proofs.Grammar.Spelling

/-! What is in a rule's text is in its tree, once and in the same order.

The calls found in a text that is read are the leaves of the tree (`Phrase.calls_tree`), its
keywords outside literals are the operators (`Phrase.keywords_placed`), and these are all the
nodes there are (`nodeCount_eq`). `inventory_of_parse` puts them together, with what an
inspection says about each leaf in turn. -/
namespace AccessRules

/-! ### Operators -/

namespace Expr

/-- The operators of a tree, from left to right: each one between its operands. -/
def ops : Expr → List Op
  | missing => []
  | call _ _ => []
  | op o l r => l.ops ++ o :: r.ops

theorem nodeCount_eq (e : Expr) : e.nodeCount = e.ops.length + e.calls.length := by
  induction e with
  | missing => rfl
  | call check params => rfl
  | op o l r ihl ihr =>
    simp only [nodeCount, ops, calls, List.length_append, List.length_cons, ihl, ihr]
    omega

end Expr

/-- The keywords among lexemes, in order. -/
def keywords (ls : List Placed) : List Lexeme :=
  (ls.map (·.lexeme)).filter (·.op?.isSome)

theorem keywords_append (a b : List Placed) : keywords (a ++ b) = keywords a ++ keywords b := by
  simp [keywords]

theorem keywords_of_plain {ls : List Placed} (h : ∀ p ∈ ls, p.lexeme.op? = none) :
    keywords ls = [] := by
  refine List.filter_eq_nil_iff.mpr fun l hl => ?_
  obtain ⟨p, hp, rfl⟩ := List.mem_map.mp hl
  simp [h p hp]

theorem keywords_skip {p : Placed} (h : p.lexeme.op? = none) (ls : List Placed) :
    keywords (p :: ls) = keywords ls := by
  simp [keywords, h]

theorem keywords_keyword (gap : Text) (op : Op) (ls : List Placed) :
    keywords (⟨gap, op.lexeme⟩ :: ls) = op.lexeme :: keywords ls := by
  simp [keywords, op.op?_lexeme]

namespace Phrase

/-- **The keywords of a phrase are the operators of its tree.** -/
theorem keywords_placed {r : Rank} (d : Phrase r) (gap : Text) :
    keywords (d.placed gap) = d.tree.ops.map Op.lexeme := by
  induction d generalizing gap with
  | unit p ih | negation p ih | conjunction p ih => exact ih gap
  | call check between args =>
    rw [placed, keywords_skip check.op?_lexeme, keywords_skip rfl, Args.placed, keywords_append,
      keywords_of_plain args.plain]
    rfl
  | group before inside after ih =>
    rw [placed, keywords_skip rfl, keywords_append, ih, keywords_skip rfl]
    exact List.append_nil _
  | not p ih =>
    rw [placed, keywords_keyword, ih]
    rfl
  | and l r ihl ihr | or l r ihl ihr =>
    rw [placed, keywords_append, ihl, keywords_keyword, ihr]
    simp [tree, Expr.and, Expr.or, Expr.ops]

/-- The calls found in a phrase are those of its tree. -/
theorem calls_tree {r : Rank} (d : Phrase r) (start : Nat) :
    (d.calls start).map (fun c => (c.name, c.args.map paramsIn)) =
      d.tree.calls.map fun call => (call.1.name.toList, some (.ok call.2)) := by
  induction d generalizing start with
  | unit p ih | negation p ih | conjunction p ih | not p ih | group _ p _ ih => exact ih _
  | call check between args =>
    show [(check.name.toList, some (paramsIn args.text))] = _
    rw [args.divided]
    rfl
  | and l r ihl ihr | or l r ihl ihr =>
    rw [calls, List.map_append, ihl, ihr, ← List.map_append]
    rfl

end Phrase

/-! ### Warnings -/

theorem Call.warnings_of_known {c : Call} {check : Check} {params : List Text}
    (hname : c.name = check.name.toList) (hargs : c.args.map paramsIn = some (.ok params)) :
    c.warnings = paramWarnings check (c.args.getD []) params := by
  obtain ⟨args, hsome, hparams⟩ := Option.map_eq_some_iff.mp hargs
  simp only [warnings, hname, check.ofName?_name, hsome, hparams, Option.getD_some]

/-- What is to be said about a leaf that is written as the call `c`: first that it has too
few or too many parameters, then that one of them is empty. -/
def deserved (leaf : Check × List Text) (c : Call) : List String :=
  let got := leaf.2.length
  (if got < leaf.1.arity then [(Warning.tooFew leaf.1 got).message]
    else if leaf.1.arity < got then [(Warning.tooMany leaf.1 got).message]
    else []) ++
  if leaf.2.any List.isEmpty then [(Warning.emptyParameter leaf.1 (c.args.getD [])).message]
  else []

theorem message_paramWarnings (check : Check) (params : List Text) (c : Call) :
    (Call.paramWarnings check (c.args.getD []) params).map Warning.message =
      deserved (check, params) c := by
  have hempty : [] ∈ params ↔ params.any List.isEmpty = true := by simp
  simp only [Call.paramWarnings, deserved, hempty]
  by_cases hfew : params.length < check.arity <;> by_cases hmany : check.arity < params.length <;>
    by_cases hnone : params.any List.isEmpty = true <;> simp only [hfew, hmany, hnone] <;> rfl

/-- Calls that are those of the leaves deserve what the leaves deserve. -/
theorem warnings_of_calls {cs : List Call} {leaves : List (Check × List Text)}
    (h : cs.map (fun c => (c.name, c.args.map paramsIn)) =
      leaves.map fun leaf => (leaf.1.name.toList, some (.ok leaf.2))) :
    (cs.flatMap Call.warnings).map Warning.message = (List.zipWith deserved leaves cs).flatten := by
  induction cs generalizing leaves with
  | nil => cases leaves with
    | nil => rfl
    | cons leaf leaves => cases h
  | cons c cs ih => cases leaves with
    | nil => cases h
    | cons leaf leaves =>
      obtain ⟨hc, hcs⟩ := List.cons.inj h
      obtain ⟨hname, hargs⟩ := Prod.mk.inj hc
      rw [List.flatMap_cons, List.map_append, ih hcs, Call.warnings_of_known hname hargs,
        message_paramWarnings, List.zipWith_cons_cons, List.flatten_cons]

/-! ### Texts -/

theorem callsIn_tidyText (s : Text) : callsIn (tidyText s) = callsFrom 0 (tidyLex s) := by
  rw [callsIn, lex_tidyText]

/-- **Reading drops, doubles and moves nothing.** The calls found in the tidy text are the
leaves of the tree, from left to right, with the names and parameters of the leaves; the
keywords outside literals are its operators, in order; the tree has no other nodes; and an
inspection warns of what each leaf in turn deserves, and of nothing else. -/
theorem inventory_of_parse {s : Text} {e : Expr} (h : parse s = .ok e) :
    (callsIn (tidyText s)).map (fun c => (c.name, c.args.map paramsIn)) =
      e.calls.map (fun leaf => (leaf.1.name.toList, some (.ok leaf.2))) ∧
    keywords (lex (tidyText s)) = e.ops.map Op.lexeme ∧
    e.nodeCount = e.ops.length + (callsIn (tidyText s)).length ∧
    (inspect s).warnings = (List.zipWith deserved e.calls (callsIn (tidyText s))).flatten := by
  obtain ⟨d, hd, rfl, -⟩ := phrase_of_parse h
  have hcalls : (callsIn (tidyText s)).map (fun c => (c.name, c.args.map paramsIn)) =
      d.tree.calls.map fun leaf => (leaf.1.name.toList, some (.ok leaf.2)) := by
    rw [callsIn_tidyText, hd, d.callsFrom_whole]
    exact d.calls_tree 0
  refine ⟨hcalls, ?_, ?_, ?_⟩
  · rw [lex_tidyText, hd]
    exact d.keywords_placed []
  · have hlength := congrArg List.length hcalls
    rw [List.length_map, List.length_map] at hlength
    rw [d.tree.nodeCount_eq, hlength]
  · rw [← warnings_of_calls hcalls, callsIn_tidyText]
    rfl

theorem inventory_of_parse_warned :
    let s :=
      "hasRole() or not(hasPermission('a AND b',,c)and hasResourcePermission( (x) ,y))".toList
    let e := Expr.or (.call .role [])
      (.not (.and (.call .permission ["'a AND b'".toList, [], "c".toList])
        (.call .resource ["(x)".toList, "y".toList])))
    parse s = .ok e ∧
      (callsIn (tidyText s)).map (fun c => (c.name, c.args.map paramsIn)) =
        e.calls.map (fun leaf => (leaf.1.name.toList, some (.ok leaf.2))) ∧
      keywords (lex (tidyText s)) = e.ops.map Op.lexeme ∧
      e.nodeCount = e.ops.length + (callsIn (tidyText s)).length ∧
      (inspect s).warnings = (List.zipWith deserved e.calls (callsIn (tidyText s))).flatten := by
  intro s e
  have h : parse s = .ok e := by decide +kernel
  exact ⟨h, inventory_of_parse h⟩

end AccessRules
