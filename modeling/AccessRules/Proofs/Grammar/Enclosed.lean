import AccessRules.Proofs.Grammar.Reading

/-! Reading a rule in parentheses, and rules joined by an operator.

A text in parentheses has its own lexemes between the two (`enclosed`), and what stands
around it only changes the gap before its first lexeme. So if the text is read, the
parentheses make a group of its phrase (`exists_group`), which is an operand of any
operator. `parse_enclosed` says what is read: the tree with the operator above it, unless
the levels that are added are too many. -/
namespace AccessRules

/-! ### Parentheses -/

/-- The lexemes of a text in parentheses, with `gap` before them. -/
def enclosed (gap s : Text) : List Placed :=
  ⟨gap, .opening⟩ :: (lex s ++ [⟨lastBlanks s, .closing⟩])

theorem render_enclosed (gap s : Text) :
    render (enclosed gap s) = gap ++ '(' :: (s ++ [')']) := by
  rw [enclosed, render_cons, render_lex_close, List.append_assoc]
  rfl

theorem legible_enclosed {gap s : Text} (hgap : Blank gap) (hs : endsInLiteral (lex s) = false) :
    Legible (enclosed gap s) :=
  .mark hgap trivial rfl rfl (legible_lex_close hs)

/-- The lexemes of the negation of a text in parentheses. -/
theorem legible_negated {s : Text} (hs : endsInLiteral (lex s) = false) :
    Legible (⟨[], Op.not.lexeme⟩ :: enclosed [' '] s) :=
  .keyword .not blank_nil nofun (legible_enclosed blank_space hs)

theorem endsInLiteral_enclosed (gap : Text) {s : Text} (hs : endsInLiteral (lex s) = false) :
    endsInLiteral (enclosed gap s) = false := by
  rw [enclosed, endsInLiteral_cons, endsInLiteral_append, hs]
  rfl

/-- What comes after a text in parentheses comes after their close. -/
theorem lastLexeme_enclosed (before : Option Lexeme) (gap s : Text) :
    lastLexeme before (enclosed gap s) = some .closing := by
  show lastLexeme (some .opening) (lex s ++ [⟨lastBlanks s, .closing⟩]) = some .closing
  rw [lastLexeme_append]
  rfl

/-- What stands before a phrase only changes the gap before it. -/
theorem tidyAfter_phrase {before : Option Lexeme} {ls : List Placed} {r : Rank} {d : Phrase r}
    {gap : Text} (h : tidyAfter before ls = d.placed gap) (before' : Option Lexeme) :
    ∃ gap' : Gap, tidyAfter before' ls = d.placed gap' := by
  obtain ⟨l, rest, hd⟩ := d.placed_head
  cases ls with
  | nil => exact absurd h.symm (d.placed_ne_nil gap)
  | cons p ls =>
    rw [hd gap] at h
    obtain ⟨hp, hrest⟩ := List.cons.inj h
    refine ⟨⟨tidyGap before' p, blank_tidyGap before' p⟩, ?_⟩
    rw [hd, tidyAfter, hrest, (Placed.mk.inj hp).2]

/-- Parentheses around a text that is a phrase make a group of it. -/
theorem exists_group {s : Text} {d : Phrase .disjunction} (h : tidyLex s = d.placed [])
    (before : Option Lexeme) (gap : Text) :
    ∃ (u : Phrase .unit) (gap' : Gap), tidyAfter before (enclosed gap s) = u.placed gap' ∧
      u.tree = d.tree ∧ u.levels = d.levels + 1 := by
  obtain ⟨inside, hinside⟩ := tidyAfter_phrase h (some .opening)
  have hlast := blank_tidyGap (lastLexeme (some .opening) (lex s)) ⟨lastBlanks s, .closing⟩
  have hgap := blank_tidyGap before ⟨gap, .opening⟩
  refine ⟨.group inside d ⟨_, hlast⟩, ⟨_, hgap⟩, ?_, rfl, rfl⟩
  rw [enclosed, tidyAfter, tidyAfter_append, hinside]
  rfl

/-! ### Operators -/

namespace Phrase

theorem exists_negated (u : Phrase .unit) : ∃ d : Phrase .disjunction,
    (∀ gap, d.placed gap = ⟨gap, Op.not.lexeme⟩ :: u.placed [' ']) ∧
      d.tree = .not u.tree ∧ d.levels = u.levels + 1 :=
  ⟨conjunction (negation (not (unit u))), fun _ => rfl, rfl, rfl⟩

theorem exists_joined (l r : Phrase .unit) {op : Op} (hop : op ≠ .not) : ∃ d : Phrase .disjunction,
    (∀ gap, d.placed gap = l.placed gap ++ ⟨[' '], op.lexeme⟩ :: r.placed [' ']) ∧
      d.tree = .op op l.tree r.tree ∧ d.levels = max l.levels r.levels + 1 := by
  cases op with
  | and => exact ⟨conjunction (and (unit l) (negation (unit r))), fun _ => rfl, rfl, rfl⟩
  | or =>
    exact ⟨or (negation (unit l)) (conjunction (negation (unit r))), fun _ => rfl, rfl, rfl⟩
  | not => exact absurd rfl hop

end Phrase

section Read
variable {s s' : Text} {d d' : Phrase .disjunction} (hs : endsInLiteral (lex s) = false)
  (hd : tidyLex s = d.placed [])
include hs hd

theorem parse_parenthesized : parse ('(' :: (s ++ [')'])) = within (d.levels + 1) d.tree := by
  obtain ⟨u, gap, htidy, htree, hlevels⟩ := exists_group hd none []
  have hparse := parse_render (d := .conjunction (.negation (.unit u)))
    (legible_enclosed blank_nil hs) htidy
  rw [render_enclosed, List.nil_append] at hparse
  rw [hparse, ← htree, ← hlevels]
  rfl

theorem parse_negated : parse (Op.not.keyword.toList ++ ' ' :: '(' :: (s ++ [')'])) =
    within (d.levels + 2) (.not d.tree) := by
  obtain ⟨u, gap, htidy, htree, hlevels⟩ := exists_group hd (some Op.not.lexeme) [' ']
  obtain ⟨negated, hplaced, htree', hlevels'⟩ := u.exists_negated
  have hlayout : tidyAfter none (⟨[], Op.not.lexeme⟩ :: enclosed [' '] s) =
      negated.placed [] := by
    rw [tidyAfter, htidy, Phrase.gap_after_keyword htidy, hplaced]
    rfl
  have hparse := parse_render (legible_negated hs) hlayout
  rw [render_cons, render_enclosed] at hparse
  rw [htree', hlevels', htree, hlevels] at hparse
  exact hparse

theorem parse_joined (hs' : endsInLiteral (lex s') = false) (hd' : tidyLex s' = d'.placed [])
    {op : Op} (hop : op ≠ .not) :
    parse ('(' :: (s ++ [')']) ++ ' ' :: (op.keyword.toList ++ ' ' :: '(' :: (s' ++ [')']))) =
      within (max d.levels d'.levels + 2) (.op op d.tree d'.tree) := by
  obtain ⟨l, gap, hl, htreel, hlevelsl⟩ := exists_group hd none []
  obtain ⟨r, gap', hr, htreer, hlevelsr⟩ := exists_group hd' (some op.lexeme) [' ']
  obtain ⟨joined, hplaced, htree, hlevels⟩ := l.exists_joined r hop
  have hright : Legible (⟨[' '], op.lexeme⟩ :: enclosed [' '] s') :=
    .keyword op blank_space nofun (legible_enclosed blank_space hs')
  have hlegible : Legible (enclosed [] s ++ ⟨[' '], op.lexeme⟩ :: enclosed [' '] s') :=
    (legible_enclosed blank_nil hs).append_cons (endsInLiteral_enclosed [] hs) (by simp) hright
  have hlayout : tidyAfter none (enclosed [] s ++ ⟨[' '], op.lexeme⟩ :: enclosed [' '] s') =
      joined.placed gap := by
    rw [tidyAfter_append, lastLexeme_enclosed, tidyAfter_keyword, hl, hr,
      Phrase.gap_after_keyword hr, hplaced]
  have hparse := parse_render hlegible hlayout
  rw [render_append, render_cons, render_enclosed, render_enclosed] at hparse
  rw [htree, hlevels, htreel, htreer, hlevelsl, hlevelsr, Nat.add_max_add_right] at hparse
  exact hparse

end Read

/-- **A rule in parentheses is an operand like any other.** When two texts are read, so is
each of them in parentheses, as the same tree, and so are its negation, their conjunction and
their disjunction, as the operator over their trees. The parentheses cost a level and the
operator another one; if a call then lies under more levels than there may be, that is what
the reading says, and nothing else. -/
theorem parse_enclosed {s s' : Text} {e e' : Expr} (h : parse s = .ok e)
    (h' : parse s' = .ok e') :
    ∃ d d' : Phrase .disjunction, (d.text = tidyText s ∧ d.tree = e) ∧
      (d'.text = tidyText s' ∧ d'.tree = e') ∧
      parse ("(".toList ++ s ++ ")".toList) = within (d.levels + 1) e ∧
      parse ("NOT (".toList ++ s ++ ")".toList) = within (d.levels + 2) (.not e) ∧
      parse ("(".toList ++ s ++ ") AND (".toList ++ s' ++ ")".toList) =
        within (max d.levels d'.levels + 2) (.and e e') ∧
      parse ("(".toList ++ s ++ ") OR (".toList ++ s' ++ ")".toList) =
        within (max d.levels d'.levels + 2) (.or e e') := by
  obtain ⟨d, hd, rfl, -⟩ := phrase_of_parse h
  obtain ⟨d', hd', rfl, -⟩ := phrase_of_parse h'
  have hs := closed_of_parse h
  have hs' := closed_of_parse h'
  refine ⟨d, d', ⟨text_eq_tidyText hd, rfl⟩, ⟨text_eq_tidyText hd', rfl⟩,
    parse_parenthesized hs hd, parse_negated hs hd, ?_, ?_⟩
  · have hand := parse_joined hs hd hs' hd' (show Op.and ≠ .not by decide)
    simpa [Op.keyword, Expr.and] using hand
  · have hor := parse_joined hs hd hs' hd' (show Op.or ≠ .not by decide)
    simpa [Op.keyword, Expr.or] using hor

theorem parse_enclosed_disjunction :
    let s := " hasRole('A') or not hasRole(b)".toList
    let s' := "hasPermission(')')\t".toList
    let e := Expr.or (.call .role ["'A'".toList]) (.not (.call .role ["b".toList]))
    let e' := Expr.call .permission ["')'".toList]
    parse s = .ok e ∧ parse s' = .ok e' ∧
      ∃ d d' : Phrase .disjunction, (d.text = tidyText s ∧ d.tree = e) ∧
        (d'.text = tidyText s' ∧ d'.tree = e') ∧
        parse ("(".toList ++ s ++ ")".toList) = within (d.levels + 1) e ∧
        parse ("NOT (".toList ++ s ++ ")".toList) = within (d.levels + 2) (.not e) ∧
        parse ("(".toList ++ s ++ ") AND (".toList ++ s' ++ ")".toList) =
          within (max d.levels d'.levels + 2) (.and e e') ∧
        parse ("(".toList ++ s ++ ") OR (".toList ++ s' ++ ")".toList) =
          within (max d.levels d'.levels + 2) (.or e e') := by
  intro s s' e e'
  have h : parse s = .ok e := by decide +kernel
  have h' : parse s' = .ok e' := by decide +kernel
  exact ⟨h, h', parse_enclosed h h'⟩

end AccessRules
