import AccessRules.Proofs.Grammar.Reading
import AccessRules.Proofs.Lexeme.Ends
import AccessRules.Proofs.Lexeme.Tidy
import AccessRules.Report.Inspect

/-! What the tidy text keeps of a text.

A text is cut into lexemes in one way only (`segmentation_iff`), and so is its tidy text.
`tidyText_layout` compares the two lexeme by lexeme: the tidy layout respells keywords, sets
the blanks between lexemes, takes those at the ends away, and changes nothing else. A tidy
layout is its own tidy layout (`tidyAfter_tidyAfter`), so that the tidy text can stand for the
text wherever only the tidy layout is looked at: `tidyText_stands` says so of reading and of
inspecting, with all that they report. -/
namespace AccessRules

/-! ### Cutting a text -/

/-- The text is these lexemes, with their gaps, and these blanks after the last one. After a
literal that is never closed there are none, since they are part of it. -/
structure Segmentation (s : Text) (ls : List Placed) (last : Text) : Prop where
  legible : Legible ls
  blank : Blank last
  closed : endsInLiteral ls = true → last = []
  text : render ls ++ last = s

theorem segmentation_lex (s : Text) : Segmentation s (lex s) (lastBlanks s) :=
  ⟨legible_lex s, (render_lex s).1, lastBlanks_of_open, (render_lex s).2⟩

/-- **There is one way to cut a text.** -/
theorem segmentation_iff {s last : Text} {ls : List Placed} :
    Segmentation s ls last ↔ ls = lex s ∧ last = lastBlanks s := by
  constructor
  · rintro ⟨hlegible, hblank, hclosed, rfl⟩
    have hlex : lex (render ls ++ last) = ls := by
      cases hopen : endsInLiteral ls with
      | false => exact lex_render_blanks hlegible hopen hblank
      | true => rw [hclosed hopen, List.append_nil, lex_render hlegible]
    exact ⟨hlex.symm, (lastBlanks_render hlex).symm⟩
  · rintro ⟨rfl, rfl⟩
    exact segmentation_lex s

/-! ### One lexeme -/

namespace Lexeme

/-- The lexeme in its own spelling: a word is respelled if it is a keyword in some case, and a
literal that is never closed loses the blanks at its end. -/
inductive Respelled : Lexeme → Lexeme → Prop
  | keyword {letters : Text} {op : Op} (h : letters.map Char.toUpper = op.keyword.toList) :
    Respelled (word letters) (word op.keyword.toList)
  | word {letters : Text} (h : ∀ op : Op, letters.map Char.toUpper ≠ op.keyword.toList) :
    Respelled (word letters) (word letters)
  | opening : Respelled opening opening
  | closing : Respelled closing closing
  | comma : Respelled comma comma
  | literal (quote : Char) (content : Text) :
    Respelled (literal quote content) (literal quote content)
  | openLiteral (quote : Char) {content last : Text} (hlast : Blank last)
      (hend : ∀ c ∈ content.getLast?, isBlank c = false) :
    Respelled (openLiteral quote (content ++ last)) (openLiteral quote content)

theorem respelled_tidy (l : Lexeme) : l.Respelled l.tidy := by
  cases l with
  | word letters =>
    cases hop : Op.ofWord? letters with
    | some op =>
      rw [tidy_keyword (l := .word letters) hop]
      exact .keyword (Op.ofWord?_eq_some.mp hop)
    | none =>
      rw [tidy, hop]
      refine .word fun op hupper => ?_
      rw [Op.ofWord?_eq_some.mpr hupper] at hop
      cases hop
  | openLiteral quote content =>
    obtain ⟨last, hlast, hcontent⟩ := content.exists_trimEnd_append
    have hrespelled := Respelled.openLiteral quote hlast content.getLast?_trimEnd
    rwa [← hcontent] at hrespelled
  | opening => exact .opening
  | closing => exact .closing
  | comma => exact .comma
  | literal quote content => exact .literal quote content

theorem tidy_tidy (l : Lexeme) : l.tidy.tidy = l.tidy := by
  cases hop : l.op? with
  | some op => rw [tidy_keyword hop, tidy_keyword op.op?_lexeme]
  | none =>
    cases l with
    | word letters =>
      have hw : Op.ofWord? letters = none := hop
      simp [tidy, hw]
    | openLiteral quote content => exact congrArg (Lexeme.openLiteral quote) content.trimEnd_trimEnd
    | _ => rfl

/-- A lexeme in its own spelling ends in no blank. -/
theorem getLast?_tidy {l : Lexeme} (h : l.Legible) :
    ∀ c ∈ l.tidy.text.getLast?, isBlank c = false := by
  cases hopen : l.isOpenLiteral with
  | false => exact getLast?_text (legible_tidy h) (by rw [isOpenLiteral_tidy, hopen])
  | true =>
    cases l with
    | openLiteral quote content =>
      intro c hc
      by_cases hnil : content.trimEnd = []
      · rw [tidy, text, hnil] at hc
        cases hc
        exact isBlank_of_isQuote h.1
      · rw [tidy, text, List.getLast?_cons_of_ne_nil hnil] at hc
        exact content.getLast?_trimEnd c hc
    | _ => cases hopen

end Lexeme

/-! ### All lexemes -/

/-- The lexemes of `ls'` are those of `ls` in their own spelling. No gap is before the first
one, and the others have a space where `ls` has blanks or there is a keyword on either side,
and nothing elsewhere. -/
structure Relaid (ls ls' : List Placed) : Prop where
  lexemes : List.Forall₂ (fun p p' => p.lexeme.Respelled p'.lexeme) ls ls'
  first : ∀ p' ∈ ls'.head?, p'.gap = []
  between : (ls.zip ls').IsChain fun p q => q.2.gap =
    if q.1.gap ≠ [] ∨ p.1.lexeme.op? ≠ none ∨ q.1.lexeme.op? ≠ none then [' '] else []

theorem respelled_tidyAfter (before : Option Lexeme) (ls : List Placed) :
    List.Forall₂ (fun p p' => p.lexeme.Respelled p'.lexeme) ls (tidyAfter before ls) := by
  induction ls generalizing before with
  | nil => exact .nil
  | cons p ls ih => exact .cons p.lexeme.respelled_tidy (ih (some p.lexeme))

theorem tidyGap_eq (l : Lexeme) (p : Placed) : tidyGap (some l) p =
    if p.gap ≠ [] ∨ l.op? ≠ none ∨ p.lexeme.op? ≠ none then [' '] else [] := by
  rw [tidyGap, ← ite_not]
  simp only [not_and_or, ne_eq]

theorem between_tidyAfter (before : Option Lexeme) (ls : List Placed) :
    (ls.zip (tidyAfter before ls)).IsChain fun p q => q.2.gap =
      if q.1.gap ≠ [] ∨ p.1.lexeme.op? ≠ none ∨ q.1.lexeme.op? ≠ none then [' '] else [] := by
  induction ls generalizing before with
  | nil => exact .nil
  | cons p ls ih =>
    refine (ih (some p.lexeme)).cons fun q hq => ?_
    cases ls with
    | nil => cases hq
    | cons q ls =>
      cases hq
      exact tidyGap_eq p.lexeme q

theorem relaid_tidyLex (s : Text) : Relaid (lex s) (tidyLex s) :=
  ⟨respelled_tidyAfter none (lex s), head?_tidyLex s, between_tidyAfter none (lex s)⟩

/-! ### The tidy text -/

theorem tidyText_eq_phrase (s : Text) : tidyText s = phrase (tidyLex s) := by
  have hgap := head?_tidyLex s
  rw [tidyText]
  cases hls : tidyLex s with
  | nil => rfl
  | cons p ls =>
    rw [hls] at hgap
    rw [render_cons, hgap p rfl]
    rfl

theorem trim_tidyText (s : Text) : (tidyText s).trim = tidyText s := by
  rw [tidyText_eq_phrase]
  refine trim_phrase_of_ends (legible_tidyLex s) fun p hp => ?_
  have hmem := List.mem_map_of_mem (f := (·.lexeme)) hp
  rw [tidyLex, tidy, lexemes_tidyAfter] at hmem
  obtain ⟨q, hq, hqp⟩ := List.mem_map.mp hmem
  rw [← hqp]
  exact Lexeme.getLast?_tidy ((legible_lex s).lexemes q hq)

/-- **The tidy text has the lexemes of the text, in another layout.** Each of the two is cut in
one way. Lexeme by lexeme, a word that is a keyword in some case has its own spelling, a
literal that is never closed has lost the blanks at its end, and everything else is as it was.
One space parts what was apart or is next to a keyword, nothing parts the rest, and no blanks
are left at the ends. -/
theorem tidyText_layout (s : Text) :
    (∀ ls last, Segmentation s ls last ↔ ls = lex s ∧ last = lastBlanks s) ∧
    (∀ ls last, Segmentation (tidyText s) ls last ↔ ls = lex (tidyText s) ∧ last = []) ∧
    Relaid (lex s) (lex (tidyText s)) ∧ (tidyText s).trim = tidyText s := by
  have hlex : lex (tidyText s) = tidyLex s := lex_tidyText s
  have hlast : lastBlanks (tidyText s) = [] := by
    refine lastBlanks_eq ?_
    rw [hlex, List.append_nil]
    rfl
  refine ⟨fun _ _ => segmentation_iff, fun _ _ => ?_, ?_, trim_tidyText s⟩
  · rw [segmentation_iff, hlast]
  · rw [hlex]
    exact relaid_tidyLex s

example : tidyText " not(a ,b)AND'x  y'\tor\u00a0\"open  ".toList =
    "NOT (a ,b) AND 'x  y' OR \"open".toList := by decide +kernel

/-! ### The tidy text in place of the text -/

theorem tidyGap_tidyGap (before : Option Lexeme) (p : Placed) :
    tidyGap (before.map Lexeme.tidy) ⟨tidyGap before p, p.lexeme.tidy⟩ = tidyGap before p := by
  cases before with
  | none => rfl
  | some l =>
    rw [Option.map_some, tidyGap_eq, tidyGap_eq, Lexeme.op?_tidy, Lexeme.op?_tidy]
    split
    · exact if_pos (.inl (List.cons_ne_nil _ _))
    · rename_i htouching
      exact if_neg fun h => htouching (.inr (h.resolve_left (by simp)))

/-- A tidy layout is its own tidy layout. -/
theorem tidyAfter_tidyAfter (before : Option Lexeme) (ls : List Placed) :
    tidyAfter (before.map Lexeme.tidy) (tidyAfter before ls) = tidyAfter before ls := by
  induction ls generalizing before with
  | nil => rfl
  | cons p ls ih =>
    have hrest := ih (some p.lexeme)
    rw [Option.map_some] at hrest
    rw [tidyAfter, tidyAfter, tidyGap_tidyGap, Lexeme.tidy_tidy, hrest]

theorem tidyLex_tidyText (s : Text) : tidyLex (tidyText s) = tidyLex s := by
  rw [tidyLex, lex_tidyText]
  exact tidyAfter_tidyAfter none (lex s)

section Congruence
variable {s s' : Text} (h : tidyLex s' = tidyLex s)
include h

theorem parse_congr : parse s' = parse s := by
  rw [parse, parse, h]

theorem parseLogged_congr : parseLogged s' = parseLogged s := by
  rw [parseLogged, parseLogged, parse_congr h, tidyText, tidyText, h]

theorem inspect_congr : inspect s' = inspect s := by
  rw [inspect, inspect, faults, faults, parse_congr h, h]

theorem inspectLogged_congr : inspectLogged s' = inspectLogged s := by
  rw [inspectLogged, inspectLogged, parseLogged_congr h, inspect_congr h, h]

end Congruence

/-- **The tidy text stands for the text.** Tidying it again changes nothing. It is read as the
same tree or not read for the same cause, inspecting it finds the same faults and warnings,
and both leave the same log. -/
theorem tidyText_stands (s : Text) :
    tidyText (tidyText s) = tidyText s ∧
    (parse (tidyText s) = parse s ∧ parseLogged (tidyText s) = parseLogged s) ∧
    inspect (tidyText s) = inspect s ∧ inspectLogged (tidyText s) = inspectLogged s := by
  have htidy := tidyLex_tidyText s
  exact ⟨congrArg render htidy, ⟨parse_congr htidy, parseLogged_congr htidy⟩,
    inspect_congr htidy, inspectLogged_congr htidy⟩

end AccessRules
