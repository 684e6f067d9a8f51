import AccessRules.Proofs.Decision.Settled
import AccessRules.Proofs.Grammar.Inventory

/-! What the warnings of an inspection say about the tree.

An inspection warns about the calls it finds in the text, and those of a text that is read
are the calls of its tree (`Phrase.calls_tree`, `exists_call_of_warning`). So a warning
that the rule always evaluates to false is about a call of the tree with too few
parameters. That call is denied, and the rule is when the call decides it
(`shortfall_settles`); under a `not` it is granted (`shortfall_granted`). -/
namespace AccessRules

/-! ### Calls -/

/-- A warning is about a call of the tree. -/
theorem exists_call_of_warning {s : Text} {e : Expr} (h : parse s = .ok e) {w : Warning}
    (hw : w ∈ callWarnings (tidyLex s)) : ∃ check params args,
      (check, params) ∈ e.calls ∧ w ∈ Call.paramWarnings check args params := by
  obtain ⟨d, hd, rfl, -⟩ := phrase_of_parse h
  rw [callWarnings, hd, d.callsFrom_whole] at hw
  obtain ⟨c, hc, hwarned⟩ := List.mem_flatMap.mp hw
  have hmem := List.mem_map_of_mem (f := fun c : Call => (c.name, c.args.map paramsIn)) hc
  rw [d.calls_tree 0] at hmem
  obtain ⟨⟨check, params⟩, hcall, hequal⟩ := List.mem_map.mp hmem
  obtain ⟨hname, hargs⟩ := Prod.mk.inj hequal
  have hwarnings := c.warnings_of_known hname.symm hargs.symm
  exact ⟨check, params, c.args.getD [], hcall, hwarnings ▸ hwarned⟩

/-! ### Too few parameters -/

/-- How a warning about too few parameters ends. -/
def alwaysFalse : Text := "the rule always evaluates to false".toList

/-- No other warning ends so. -/
theorem eq_tooFew_of_message {w : Warning} (h : alwaysFalse <:+ w.message.toList) :
    ∃ check got, w = .tooFew check got := by
  have hlast : w.message.toList.getLast? = some 'e' := by
    obtain ⟨t, ht⟩ := h
    have he : alwaysFalse.getLast? = some 'e' := by decide
    rw [← ht, List.getLast?_append, he, Option.some_or]
  cases w with
  | tooFew check got => exact ⟨check, got, rfl⟩
  | tooMany check got =>
    have hd : "extra parameters are ignored".toList.getLast? = some 'd' := by decide
    have hmessage : (Warning.tooMany check got).message.toList.getLast? = some 'd' := by
      unfold Warning.message
      rw [String.toList_append, List.getLast?_append, hd, Option.some_or]
    rw [hmessage] at hlast
    exact absurd hlast (by decide)
  | emptyParameter check args =>
    have hclose : ")".toList.getLast? = some ')' := by decide
    have hmessage : (Warning.emptyParameter check args).message.toList.getLast? = some ')' := by
      unfold Warning.message
      rw [String.toList_append]
      show (_ ++ ")".toList).getLast? = _
      rw [List.getLast?_append, hclose, Option.some_or]
    rw [hmessage] at hlast
    exact absurd hlast (by decide)

theorem Call.tooFew_mem {check check' : Check} {got : Nat} {args : Text} {params : List Text}
    (h : .tooFew check' got ∈ paramWarnings check args params) :
    check' = check ∧ got = params.length ∧ params.length < check.arity := by
  rw [paramWarnings] at h
  rcases List.mem_append.mp h with h | h
  · by_cases hfew : params.length < check.arity
    · rw [if_pos hfew] at h
      cases List.mem_singleton.mp h
      exact ⟨rfl, rfl, hfew⟩
    · rw [if_neg hfew] at h
      split at h
      · cases List.mem_singleton.mp h
      · cases h
  · split at h
    · cases List.mem_singleton.mp h
    · cases h

/-- **A call that is warned about is denied, and settles what it decides.** -/
theorem shortfall_settles {s : Text} (hvalid : (inspect s).valid = true) {m : String}
    (hm : m ∈ (inspect s).warnings) (hend : alwaysFalse <:+ m.toList) :
    ∃ e check params, parse s = .ok e ∧ (check, params) ∈ e.calls ∧
      m = (Warning.tooFew check params.length).message ∧
      (∀ ctx, granted ctx (.call check params) = false) ∧
      ((check, params) ∈ e.conjuncts → ∀ ctx, granted ctx e = false) ∧
      ∀ b, e.settled? = some b → ∀ ctx, granted ctx e = b := by
  obtain ⟨e, he⟩ := parse_of_faults (valid_inspect.mp hvalid)
  obtain ⟨w, hw, rfl⟩ := List.mem_map.mp hm
  obtain ⟨check', got, rfl⟩ := eq_tooFew_of_message hend
  obtain ⟨check, params, args, hcall, hwarned⟩ := exists_call_of_warning he hw
  obtain ⟨rfl, rfl, hfew⟩ := Call.tooFew_mem hwarned
  refine ⟨e, check', params, he, hcall, rfl, fun ctx => granted_starved ctx hfew, fun hmem => ?_,
    fun b hb => granted_of_settled? hb⟩
  exact granted_of_settled? (settled?_of_mem_conjuncts hmem hfew)

theorem shortfall_settles_conjunction :
    let s := "hasRole() and hasPermission('a')".toList
    let m := "hasRole expects 1 parameter(s) but got 0; the rule always evaluates to false"
    (inspect s).valid = true ∧ m ∈ (inspect s).warnings ∧ alwaysFalse <:+ m.toList ∧
      ∃ e check params, parse s = .ok e ∧ (check, params) ∈ e.calls ∧
        m = (Warning.tooFew check params.length).message ∧
        (∀ ctx, granted ctx (.call check params) = false) ∧
        ((check, params) ∈ e.conjuncts → ∀ ctx, granted ctx e = false) ∧
        ∀ b, e.settled? = some b → ∀ ctx, granted ctx e = b := by
  intro s m
  have hvalid : (inspect s).valid = true := by decide +kernel
  have hm : m ∈ (inspect s).warnings := by decide +kernel
  have hend : alwaysFalse <:+ m.toList := by decide +kernel
  exact ⟨hvalid, hm, hend, shortfall_settles hvalid hm hend⟩

/-- The warning is wrong about a rule that negates the call. -/
theorem shortfall_granted :
    let s := "NOT hasRole()".toList
    (inspect s).valid = true ∧ (∃ m ∈ (inspect s).warnings, alwaysFalse <:+ m.toList) ∧
      ∃ e, parse s = .ok e ∧ ∀ ctx, granted ctx e = true := by
  refine ⟨by decide +kernel, by decide +kernel, .not (.call .role []), by decide +kernel, ?_⟩
  intro ctx
  rfl

end AccessRules
