import AccessRules.Proofs.Grammar.Calls
import AccessRules.Proofs.Grammar.Inventory

/-! The arguments of a call can always be divided.

Arguments fail to be divided only if they end inside a literal. What stands between matching
parentheses does not: neither in a text as it is (`exists_params_of_callsIn`) nor in a piece
that a reading comes to, which is balanced. So an inspection never finds malformed
arguments, and the only literal that a reading complains about is the one at the end of the
whole text (`arguments_divided`). -/
namespace AccessRules

/-- Arguments whose literals are closed are divided. -/
theorem exists_params {args : Text} (h : openQuote args = none) : ∃ ps, paramsIn args = .ok ps :=
  ⟨_, paramsIn_eq_ok.mpr ⟨endsInLiteral_lex_eq_false.mpr h, rfl⟩⟩

/-! ### Arguments in an inspection -/

theorem exists_params_of_callsIn {s : Text} {c : Call} (hc : c ∈ callsIn s) {a : Text}
    (ha : c.args = some a) : ∃ ps, paramsIn a = .ok ps :=
  exists_params (encloses_of_callsIn hc ha).closed

/-- Malformed arguments are no fault of any text. -/
theorem malformedArguments_notMem (s name args : Text) :
    .malformedArguments name args ∉ faults s := by
  intro h
  simp only [faults] at h
  split at h
  · cases List.mem_singleton.mp h
  split at h
  · split at h
    · cases h
    · cases List.mem_singleton.mp h
  rcases List.mem_append.mp h with h | h
  · rcases List.mem_append.mp h with h | h
    · cases initial_of_mem_balanceFaults h
    · obtain ⟨c, hc, h⟩ := List.mem_flatMap.mp h
      rw [← callsIn_tidyText] at hc
      unfold Call.faults at h
      split at h
      · cases List.mem_singleton.mp h
      · cases h
      · rename_i a _ ha
        obtain ⟨ps, hps⟩ := exists_params_of_callsIn hc ha
        rw [hps] at h
        cases h
  · cases initial_of_mem_operatorFaults h

theorem malformedArguments_of_message {f : Fault}
    (h : "malformed arguments in ".toList <+: f.message.toList) :
    ∃ name args, f = .malformedArguments name args := by
  have hfirst : f.initial = 'm' := Fault.initial_eq h
  cases f with
  | malformedArguments name args => exact ⟨name, args, rfl⟩
  | _ => cases hfirst

/-! ### Arguments in a reading -/

/-- No call of a piece that a reading comes to ends inside a literal. -/
theorem readCall_ne_unterminatedLiteral {piece : List Placed} (h : Balanced piece) (x : Text) :
    readCall piece ≠ .error (.unterminatedLiteral x) := by
  intro herr
  rcases readCall_eq_error h herr with hinvalid | ⟨_, _, _, _, _, hunknown, -⟩ |
    ⟨_, _, _, _, _, _, hoperator, -⟩
  · cases hinvalid
  · cases hunknown
  · cases hoperator

theorem exists_params_of_balanced {p q : Placed} {rest : List Placed} {g : Group}
    (hp : Legible (p :: q :: rest)) (hb : Balanced (p :: q :: rest))
    (hclose : closeGroup? 0 rest = some g) : ∃ ps, paramsIn g.text = .ok ps := by
  obtain ⟨rfl, -⟩ := closeGroup?_eq_some.mp hclose
  have hlegible := hp.tail.tail
  have hliterals := hb.literals
  rw [endsInLiteral_cons, endsInLiteral_cons, Bool.or_eq_false_iff, Bool.or_eq_false_iff,
    endsInLiteral_append_eq_false] at hliterals
  refine exists_params (endsInLiteral_lex_eq_false.mp ?_)
  rw [Group.text, lex_render_blanks hlegible.left hliterals.2.2.1 hlegible.right.head.1]
  exact hliterals.2.2.1

/-! ### The literal at the end -/

/-- **A reading complains of a literal exactly if the tidy text ends inside one** and nothing
closes too much before it; and it shows the whole text. -/
theorem parse_eq_unterminatedLiteral {s x : Text} :
    parse s = .error (.unterminatedLiteral x) ↔
      (openQuote (tidyText s) ≠ none ∧ ClosesMatch (tidyText s)) ∧ x = tidyText s := by
  have hliteral : balance (tidyLex s) = .openLiteral ↔
      openQuote (tidyText s) ≠ none ∧ ClosesMatch (tidyText s) := by
    rw [← lex_tidyText, balance_lex_eq_openLiteral, and_comm]
  rw [← hliteral]
  constructor
  · intro h
    simp only [parse] at h
    split at h
    · cases h
    rename_i hne
    split at h
    · rename_i hbalance
      obtain ⟨n, piece, hcomes, hstop⟩ := readPiece_eq_error.mp h
      have hr : Reaches s n piece := ⟨hne, balance_eq_balanced.mp hbalance, hcomes⟩
      cases hstop with
      | call _ _ _ hcall =>
        exact absurd hcall (readCall_ne_unterminatedLiteral hr.wellCut.balanced x)
    · rename_i hbalance
      cases h
      exact ⟨hbalance, rfl⟩
    · cases h
    · cases h
  · rintro ⟨hbalance, rfl⟩
    have hne : tidyLex s ≠ [] := by
      intro hnil
      rw [hnil] at hbalance
      cases hbalance
    simp only [parse, if_neg hne, hbalance]
    rfl

/-- **The arguments of a call can always be divided**: those of the calls found in any text, so
that an inspection never reports malformed arguments, and those of a call that a reading comes
to. The reading complains of a literal only for the whole text, when it ends inside one and
nothing closes too much before. -/
theorem arguments_divided (s : Text) :
    (∀ c ∈ callsIn s, ∀ a, c.args = some a → ∃ ps, paramsIn a = .ok ps) ∧
    (∀ m ∈ (inspect s).errors, ¬"malformed arguments in ".toList <+: m.toList) ∧
    (∀ n piece, Reaches s n piece → (∀ x, readCall piece ≠ .error (.unterminatedLiteral x)) ∧
      ∀ p q rest g, piece = p :: q :: rest → closeGroup? 0 rest = some g →
        ∃ ps, paramsIn g.text = .ok ps) ∧
    ∀ x, parse s = .error (.unterminatedLiteral x) ↔
      (openQuote (tidyText s) ≠ none ∧ ClosesMatch (tidyText s)) ∧ x = tidyText s := by
  refine ⟨fun c hc a ha => exists_params_of_callsIn hc ha, fun m hm hmalformed => ?_,
    fun n piece hr => ?_, fun x => parse_eq_unterminatedLiteral⟩
  · obtain ⟨f, hf, rfl⟩ := List.mem_map.mp hm
    obtain ⟨name, args, rfl⟩ := malformedArguments_of_message hmalformed
    exact malformedArguments_notMem s name args hf
  · refine ⟨readCall_ne_unterminatedLiteral hr.wellCut.balanced, fun p q rest g hpiece => ?_⟩
    subst hpiece
    exact exists_params_of_balanced hr.wellCut.legible hr.wellCut.balanced

/-- The literal goes before a group that is never closed, and after a close too much. -/
example : parse "hasRole('a) or (".toList =
      .error (.unterminatedLiteral "hasRole('a) or (".toList) ∧
    parse "hasRole() ) or 'a".toList = .error .unbalancedParentheses := by
  decide +kernel

end AccessRules
