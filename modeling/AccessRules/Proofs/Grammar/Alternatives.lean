import AccessRules.Proofs.Decision.Combining
import AccessRules.Proofs.Grammar.Enclosed

/-! Reading two rules with `OR` between them.

No parentheses are added, so the first rule's own alternatives end up beside those of the
second one, in one chain that nests to the right (`orElse`). The tree is that of an `or`
over the two trees only when the first rule is no chain itself (`tree_orElse`); but it is
asked and answered like one (`evaluate_orElse`). -/
namespace AccessRules

/-! ### Alternatives -/

namespace Phrase

/-- The phrase with `OR` and another one after it, which becomes its last alternatives. -/
def orElse : {r : Rank} → Phrase r → Phrase .disjunction → Phrase .disjunction
  | _, or l r, d => or l (r.orElse d)
  | _, conjunction p, d => or p d
  | .conjunction, p, d => or p d
  | .negation, p, d => or (negation p) d
  | .unit, p, d => or (negation (unit p)) d

theorem placed_orElse {r : Rank} (d : Phrase r) (d' : Phrase .disjunction) (gap : Text) :
    (d.orElse d').placed gap = d.placed gap ++ ⟨[' '], Op.or.lexeme⟩ :: d'.placed [' '] := by
  induction d generalizing gap with
  | or l r _ ih =>
    rw [orElse, placed, ih, placed, List.append_assoc]
    rfl
  | _ => rfl

/-- **More alternatives are asked after the others**, as if they were those of an `or` around
the phrase. -/
theorem evaluate_orElse (ctx : Context) {r : Rank} (d : Phrase r) (d' : Phrase .disjunction) :
    evaluate ctx (d.orElse d').tree = evaluate ctx (.or d.tree d'.tree) := by
  induction d with
  | or l r _ ih =>
    calc evaluate ctx ((or l r).orElse d').tree
      _ = (evaluate ctx l.tree).either (evaluate ctx (r.orElse d').tree) := evaluate_or ctx ..
      _ = (evaluate ctx l.tree).either (evaluate ctx (.or r.tree d'.tree)) := by rw [ih]
      _ = evaluate ctx (.or l.tree (.or r.tree d'.tree)) := (evaluate_or ctx ..).symm
      _ = evaluate ctx (.or (or l r).tree d'.tree) := (evaluate_or_assoc ctx ..).symm
  | _ => rfl

/-- The tree is an `or` over the two trees when there were no alternatives before. -/
theorem tree_orElse {d d' : Phrase .disjunction} :
    (d.orElse d').tree = .or d.tree d'.tree ↔ ∃ p, d = conjunction p := by
  cases d with
  | conjunction p => exact ⟨fun _ => ⟨p, rfl⟩, fun _ => rfl⟩
  | or l r =>
    constructor
    · intro h
      have hcount : l.tree.nodeCount = 1 + l.tree.nodeCount + r.tree.nodeCount :=
        congrArg Expr.nodeCount (Expr.op.inj h).2.1
      omega
    · rintro ⟨p, hp⟩
      cases hp

end Phrase

/-! ### Texts -/

/-- After a keyword it makes no difference whether there are blanks. -/
theorem tidyAfter_blank (op : Op) (c : Char) (ls : List Placed) :
    tidyAfter (some op.lexeme) (addBlank c ls) = tidyAfter (some op.lexeme) ls := by
  have hop : op.lexeme.op? ≠ none := op.op?_lexeme_ne_none
  cases ls with
  | nil => rfl
  | cons p rest =>
    rw [addBlank, tidyAfter, tidyAfter, tidyGap_keyword (.inl hop), tidyGap_keyword (.inl hop)]

section Joined
variable {s s' : Text}

/-- The lexemes of a text, a keyword between spaces, and a second text. -/
theorem lex_joined (op : Op) (hs : endsInLiteral (lex s) = false) (hs' : lex s' ≠ []) :
    lex (s ++ ' ' :: (op.keyword.toList ++ ' ' :: s')) =
      lex s ++ ⟨lastBlanks s ++ [' '], op.lexeme⟩ :: addBlank ' ' (lex s') := by
  have hop : Blank (lastBlanks s ++ [' ']) := by
    intro c hc
    rcases List.mem_append.mp hc with hc | hc
    · exact (render_lex s).1 c hc
    · obtain rfl := List.mem_singleton.mp hc
      rfl
  have hlex : lex (' ' :: s') = addBlank ' ' (lex s') := lex_blank rfl s'
  have hright : Legible (⟨lastBlanks s ++ [' '], op.lexeme⟩ :: lex (' ' :: s')) := by
    obtain ⟨p, rest, hp⟩ := List.exists_cons_of_ne_nil hs'
    have hlegible := legible_lex (' ' :: s')
    rw [hlex, hp, addBlank] at hlegible ⊢
    exact .keyword op hop (List.cons_ne_nil _ _) hlegible
  have htext : s ++ ' ' :: (op.keyword.toList ++ ' ' :: s') =
      render (lex s ++ [⟨lastBlanks s ++ [' '], op.lexeme⟩]) ++ ' ' :: s' := by
    calc s ++ ' ' :: (op.keyword.toList ++ ' ' :: s')
      _ = render (lex s) ++ lastBlanks s ++ ' ' :: (op.keyword.toList ++ ' ' :: s') := by
        rw [(render_lex s).2]
      _ = _ := by simp [render_append, Op.lexeme, Lexeme.text]
  rw [htext, lex_render_append, hlex, List.append_assoc]
  · rfl
  · rw [endsInLiteral_append, hs]
    rfl
  · rw [List.append_assoc]
    exact (legible_lex s).append_cons hs (fun _ => by simp) hright

/-- The tidy lexemes of two phrases with a keyword between them. -/
theorem tidyLex_joined (op : Op) {r r' : Rank} {d : Phrase r} {d' : Phrase r'}
    (hs : endsInLiteral (lex s) = false) (hd : tidyLex s = d.placed [])
    (hd' : tidyLex s' = d'.placed []) :
    tidyLex (s ++ ' ' :: (op.keyword.toList ++ ' ' :: s')) =
      d.placed [] ++ ⟨[' '], op.lexeme⟩ :: d'.placed [' '] := by
  have hne : lex s ≠ [] := by
    intro hnil
    rw [tidyLex, hnil] at hd
    exact d.placed_ne_nil [] hd.symm
  have hne' : lex s' ≠ [] := by
    intro hnil
    rw [tidyLex, hnil] at hd'
    exact d'.placed_ne_nil [] hd'.symm
  obtain ⟨l, hl⟩ := exists_lastLexeme none hne
  obtain ⟨gap, hgap⟩ := tidyAfter_phrase hd' (some op.lexeme)
  calc tidyLex (s ++ ' ' :: (op.keyword.toList ++ ' ' :: s'))
    _ = tidyLex s ++ ⟨[' '], op.lexeme⟩ :: tidyAfter (some op.lexeme) (lex s') := by
      rw [tidyLex, lex_joined op hs hne', tidy, tidyAfter_append, hl, tidyAfter_keyword,
        tidyAfter_blank]
      rfl
    _ = d.placed [] ++ ⟨[' '], op.lexeme⟩ :: d'.placed [' '] := by
      rw [hd, hgap, Phrase.gap_after_keyword hgap]

end Joined

/-- **`OR` between two rules means what it says.** When two texts are read, the text with `OR`
between them and no parentheses is read as well, unless it nests too deep. It is granted
when one of the rules is, and asks what the first one asks and then, if that one was denied,
what the second one asks. The tree is that of an `or` over the two trees exactly when the
first text has no alternatives outside its groups. -/
theorem parse_alternatives {s s' : Text} {e e' : Expr} (h : parse s = .ok e)
    (h' : parse s' = .ok e') :
    ∃ d d' : Phrase .disjunction, (d.text = tidyText s ∧ d.tree = e) ∧
      (d'.text = tidyText s' ∧ d'.tree = e') ∧
      parse (s ++ " OR ".toList ++ s') = within (d.orElse d').levels (d.orElse d').tree ∧
      (∀ ctx, granted ctx (d.orElse d').tree = (granted ctx e || granted ctx e') ∧
        queries ctx (d.orElse d').tree =
          queries ctx e ++ if granted ctx e then [] else queries ctx e') ∧
      ((d.orElse d').tree = .or e e' ↔ ∃ p, d = .conjunction p) := by
  obtain ⟨d, hd, rfl, -⟩ := phrase_of_parse h
  obtain ⟨d', hd', rfl, -⟩ := phrase_of_parse h'
  have hjoined : tidyLex (s ++ " OR ".toList ++ s') = (d.orElse d').placed [] := by
    rw [d.placed_orElse d', ← tidyLex_joined .or (closed_of_parse h) hd hd', List.append_assoc]
    rfl
  refine ⟨d, d', ⟨text_eq_tidyText hd, rfl⟩, ⟨text_eq_tidyText hd', rfl⟩,
    parse_eq_within hjoined, fun ctx => ?_, Phrase.tree_orElse⟩
  have hevaluate := d.evaluate_orElse ctx d'
  constructor
  · rw [granted, hevaluate]
    exact granted_or ctx d.tree d'.tree
  · rw [queries, hevaluate]
    exact queries_or ctx d.tree d'.tree

theorem parse_alternatives_chain :
    let s := "hasRole(a) or not hasRole('b') ".toList
    let s' := "hasRole(c)AND hasRole(d) OR hasRole(e)".toList
    let leaf (name : String) := Expr.call .role [name.toList]
    let e := Expr.or (leaf "a") (.not (leaf "'b'"))
    let e' := Expr.or (.and (leaf "c") (leaf "d")) (leaf "e")
    parse s = .ok e ∧ parse s' = .ok e' ∧ parse (s ++ " OR ".toList ++ s') ≠ .ok (.or e e') ∧
      ∃ d d' : Phrase .disjunction, (d.text = tidyText s ∧ d.tree = e) ∧
        (d'.text = tidyText s' ∧ d'.tree = e') ∧
        parse (s ++ " OR ".toList ++ s') = within (d.orElse d').levels (d.orElse d').tree ∧
        (∀ ctx, granted ctx (d.orElse d').tree = (granted ctx e || granted ctx e') ∧
          queries ctx (d.orElse d').tree =
            queries ctx e ++ if granted ctx e then [] else queries ctx e') ∧
        ((d.orElse d').tree = .or e e' ↔ ∃ p, d = .conjunction p) := by
  intro s s' leaf e e'
  have h : parse s = .ok e := by decide +kernel
  have h' : parse s' = .ok e' := by decide +kernel
  exact ⟨h, h', by decide +kernel, parse_alternatives h h'⟩

end AccessRules
