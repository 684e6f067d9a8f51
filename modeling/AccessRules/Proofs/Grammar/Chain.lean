import AccessRules.Proofs.Grammar.Alternatives

/-! Calls with one operator between them and no groups.

A chain nests to the right, so every further call is one level deeper than the one before it,
and the operator before the last call is around both of them. `exists_chained` finds the
phrase of a chain with its tree and levels, and `parse_joined_calls` reads off what is left
after the limit: a chain of `maxNesting + 1` calls is read, and a longer one is not. -/
namespace AccessRules

/-- Expressions with the operator between them, nested to the right. -/
def chain (op : Op) : List Expr → Expr
  | [] => .missing
  | [e] => e
  | e :: es => .op op e (chain op es)

/-- Texts with the operator between them. -/
def joined (op : Op) (ss : List Text) : Text :=
  List.intercalate (' ' :: (op.keyword.toList ++ [' '])) ss

theorem joined_cons (op : Op) (s : Text) {ss : List Text} (h : ss ≠ []) :
    joined op (s :: ss) = s ++ ' ' :: (op.keyword.toList ++ ' ' :: joined op ss) := by
  obtain ⟨s', ss, rfl⟩ := List.exists_cons_of_ne_nil h
  simp [joined]

/-! ### Phrases -/

/-- The rank of a chain of the operator. -/
def Op.rank : Op → Rank
  | not => .negation
  | and => .conjunction
  | or => .disjunction

namespace Phrase

/-- The phrase as one of the loosest rank. -/
def loosest : {r : Rank} → Phrase r → Phrase .disjunction
  | .disjunction, p => p
  | .conjunction, p => conjunction p
  | .negation, p => conjunction (negation p)
  | .unit, p => conjunction (negation (unit p))

theorem placed_loosest {r : Rank} (d : Phrase r) (gap : Text) :
    d.loosest.placed gap = d.placed gap := by
  cases r <;> rfl

theorem tree_loosest {r : Rank} (d : Phrase r) : d.loosest.tree = d.tree := by
  cases r <;> rfl

theorem levels_loosest {r : Rank} (d : Phrase r) : d.loosest.levels = d.levels := by
  cases r <;> rfl

/-- A unit alone is a chain. -/
theorem exists_alone (op : Op) (u : Phrase .unit) : ∃ d : Phrase op.rank,
    (∀ gap, d.placed gap = u.placed gap) ∧ d.tree = u.tree ∧ d.levels = u.levels := by
  cases op with
  | not => exact ⟨unit u, fun _ => rfl, rfl, rfl⟩
  | and => exact ⟨negation (unit u), fun _ => rfl, rfl, rfl⟩
  | or => exact ⟨conjunction (negation (unit u)), fun _ => rfl, rfl, rfl⟩

/-- A unit before a chain makes it longer. -/
theorem exists_longer {op : Op} (hop : op ≠ .not) (u : Phrase .unit) (d : Phrase op.rank) :
    ∃ d' : Phrase op.rank,
      (∀ gap, d'.placed gap = u.placed gap ++ ⟨[' '], op.lexeme⟩ :: d.placed [' ']) ∧
      d'.tree = .op op u.tree d.tree ∧ d'.levels = max u.levels d.levels + 1 := by
  cases op with
  | not => exact absurd rfl hop
  | and => exact ⟨and (unit u) d, fun _ => rfl, rfl, rfl⟩
  | or => exact ⟨or (negation (unit u)) d, fun _ => rfl, rfl, rfl⟩

end Phrase

/-! ### Texts -/

/-- The phrase of a text that is one call. -/
theorem exists_call {s : Text} {e : Expr} (h : readCall (tidyLex s) = .ok e) :
    ∃ u : Phrase .unit, tidyLex s = u.placed [] ∧ u.tree = e ∧ u.levels = 0 ∧
      endsInLiteral (lex s) = false := by
  obtain ⟨u, gap, hu, htree, hlevels⟩ := readCall_eq_ok (legible_tidyLex s) h
  have hgap := head?_tidyLex s
  rw [hu] at hgap
  obtain rfl := Phrase.gap_eq hgap
  have hclosed := (u.balanced_placed []).literals
  rw [← hu] at hclosed
  exact ⟨u, hu, htree, hlevels, (endsInLiteral_tidyAfter none (lex s)).symm.trans hclosed⟩

section Calls
variable {op : Op} (hop : op ≠ .not) {calls : List (Text × Expr)} (hne : calls ≠ [])
  (hcalls : ∀ c ∈ calls, readCall (tidyLex c.1) = .ok c.2)
include hop hne hcalls

/-- **Joined calls are the phrase of a chain**, with one level for each operator. -/
theorem exists_chained : ∃ d : Phrase op.rank,
    tidyLex (joined op (calls.map (·.1))) = d.placed [] ∧
      d.tree = chain op (calls.map (·.2)) ∧ d.levels + 1 = calls.length := by
  induction calls with
  | nil => exact absurd rfl hne
  | cons c calls ih =>
    obtain ⟨hc, hrest⟩ := List.forall_mem_cons.mp hcalls
    obtain ⟨u, hu, htree, hlevels, hclosed⟩ := exists_call hc
    by_cases hnil : calls = []
    · subst hnil
      obtain ⟨d, hplaced, htree', hlevels'⟩ := u.exists_alone op
      refine ⟨d, ?_, htree'.trans htree, ?_⟩
      · rw [hplaced, ← hu]
        simp [joined]
      · rw [hlevels', hlevels]
        rfl
    · obtain ⟨d, hd, hdtree, hdlevels⟩ := ih hnil hrest
      obtain ⟨d', hplaced, htree', hlevels'⟩ := Phrase.exists_longer hop u d
      refine ⟨d', ?_, ?_, ?_⟩
      · rw [List.map_cons, joined_cons op _ (by simpa using hnil), hplaced]
        exact tidyLex_joined op hclosed hu hd
      · obtain ⟨c', calls, rfl⟩ := List.exists_cons_of_ne_nil hnil
        rw [htree', htree, hdtree]
        rfl
      · rw [hlevels', hlevels, List.length_cons, ← hdlevels, Nat.zero_max]

theorem parse_joined_calls {s : Text} (hs : tidyText s = tidyText (joined op (calls.map (·.1)))) :
    parse s = within (calls.length - 1) (chain op (calls.map (·.2))) := by
  obtain ⟨d, hd, htree, hlevels⟩ := exists_chained hop hne hcalls
  have hplaced : tidyLex s = d.loosest.placed [] := by
    rw [d.placed_loosest, ← hd, ← lex_tidyText, hs, lex_tidyText]
  rw [parse_eq_within hplaced, d.tree_loosest, d.levels_loosest, htree, ← hlevels,
    Nat.add_sub_cancel]

end Calls
end AccessRules
