import AccessRules.Proofs.Audit.Mentions
import AccessRules.Proofs.Lexeme.Ends

/-! The name in a mention, and the first parameter of a call.

An audit takes a name out of the text of a mention, a decision out of a parameter of the
tree. Both go by the first field between the parentheses: the tidy layout moves no comma
(`fields_tidyAfter`), and a field of one lexeme has the same text in both layouts
(`Occurrence.head?_params`). What is then taken off it, every quote at its ends or one
pair of them, comes to the same for a plain parameter (`PlainParam.unquote_eq`). -/
namespace AccessRules

/-! ### Literals -/

section Literal
variable {q : Char} (hq : isQuote q = true) (x : Text)
include hq

/-- The blanks around a literal are taken off, and none of its own. -/
theorem trim_around_literal {a b : Text} (ha : Blank a) (hb : Blank b) :
    (a ++ (Lexeme.literal q x).text ++ b).trim = (Lexeme.literal q x).text :=
  strip_append ha hb (head?_literal hq x) (getLast?_literal hq x)

theorem trim_literal : (Lexeme.literal q x).text.trim = (Lexeme.literal q x).text :=
  strip_self (head?_literal hq x) (getLast?_literal hq x)

/-- One pair of quotes is taken off a literal. -/
theorem unquote_literal : unquote (Lexeme.literal q x).text = x := by
  rw [unquote, trim_literal hq x]
  cases x with
  | nil => simp [Lexeme.text, hq]
  | cons c x =>
    have hlast : (c :: x ++ [q]).getLast? = some q := List.getLast?_concat
    have hcontent : (c :: x ++ [q]).dropLast = c :: x := List.dropLast_concat
    exact (if_pos ⟨hq, hlast⟩).trans hcontent

end Literal

/-- Neither end of the text is a quote. -/
structure Unquoted (x : Text) : Prop where
  first : ∀ c ∈ x.head?, isQuote c = false
  last : ∀ c ∈ x.getLast?, isQuote c = false

theorem Unquoted.of_ends {x : Text} {c d : Char} (hc : x.head? = some c) (hd : x.getLast? = some d)
    (hcq : isQuote c = false) (hdq : isQuote d = false) : Unquoted x := by
  constructor
  · intro c' hc'
    rw [hc] at hc'
    cases hc'
    exact hcq
  · intro d' hd'
    rw [hd] at hd'
    cases hd'
    exact hdq

/-- Every quote is taken off a literal, which is one pair if its content has none at its
ends. -/
theorem stripQuotes_literal {q : Char} (hq : isQuote q = true) {x : Text} (hx : Unquoted x) :
    stripQuotes (Lexeme.literal q x).text = x := by
  have hquote : ∀ c ∈ [q], isQuote c = true := List.forall_mem_singleton.mpr hq
  exact strip_append (a := [q]) (b := [q]) hquote hquote hx.first hx.last

/-! ### Plain parameters -/

/-- A parameter that is empty, one word, or one literal whose content has no quote at its
ends. -/
def PlainParam (p : Text) : Prop :=
  (∀ c ∈ p, isBare c = true) ∨
  ∃ q x, isQuote q = true ∧ q ∉ x ∧ Unquoted x ∧ p = (Lexeme.literal q x).text

namespace PlainParam
variable {p : Text}

/-- **What an audit and a decision take off a plain parameter is the same.** -/
theorem unquote_eq (h : PlainParam p) : stripQuotes p.trim = unquote p := by
  rcases h with hbare | ⟨q, x, hq, -, hx, rfl⟩
  · have htrim : p.trim = p :=
      strip_self (fun c hc => isBlank_of_isBare (hbare c (List.mem_of_head? hc)))
        fun c hc => isBlank_of_isBare (hbare c (List.mem_of_getLast? hc))
    have hstrip : stripQuotes p = p :=
      strip_self (fun c hc => isQuote_of_isBare (hbare c (List.mem_of_head? hc)))
        fun c hc => isQuote_of_isBare (hbare c (List.mem_of_getLast? hc))
    rw [unquote, htrim, hstrip]
    match p, hbare with
    | [], _ => rfl
    | [c], _ => rfl
    | c :: d :: s, hbare => simp [isQuote_of_isBare (hbare c (by simp))]
  · rw [trim_literal hq x, stripQuotes_literal hq hx, unquote_literal hq]

theorem single (h : PlainParam p) : SingleParam p :=
  h.imp id fun ⟨q, x, hq, hqx, _, hp⟩ => ⟨q, x, hq, hqx, hp⟩

end PlainParam

/-! ### The first field in both layouts -/

theorem tidy_comma {l : Lexeme} : l.tidy = .comma ↔ l = .comma := by
  cases l <;> simp [Lexeme.tidy]

/-- The tidy layout keeps the fields apart as they are. -/
theorem fields_tidyAfter {ls first : List Placed} {others : List (List Placed)}
    (h : fields ls = first :: others) (before : Option Lexeme) : ∃ others',
      fields (tidyAfter before ls) = tidyAfter before first :: others' ∧
        (others' = [] ↔ others = []) := by
  obtain ⟨hplain, hls⟩ := fields_eq_cons h
  have htidy : fields (tidyAfter before first) = [tidyAfter before first] := by
    refine fields_of_noComma fun p hp => ?_
    have hmem := List.mem_map_of_mem (f := (·.lexeme)) hp
    rw [lexemes_tidyAfter] at hmem
    obtain ⟨q, hq, hqp⟩ := List.mem_map.mp hmem
    rw [← hqp, Ne, tidy_comma]
    exact hplain q hq
  rcases hls with ⟨rfl, rfl⟩ | ⟨p, rest, rfl, hp, rfl⟩
  · exact ⟨[], htidy, Iff.rfl⟩
  · refine ⟨fields (tidyAfter (some p.lexeme) rest), ?_, ?_⟩
    · rw [tidyAfter_append, tidyAfter, fields_comma _ (tidy_comma.mpr hp), htidy]
      rfl
    · exact iff_of_false (fields_ne_nil _) (fields_ne_nil _)

/-- The tidy layout of arguments changes none of their lexemes. -/
theorem lexemes_tidyAfter_of_plain {ls : List Placed} (hplain : ∀ p ∈ ls, p.lexeme.op? = none)
    (hclosed : endsInLiteral ls = false) (before : Option Lexeme) :
    (tidyAfter before ls).map (·.lexeme) = ls.map (·.lexeme) := by
  rw [lexemes_tidyAfter]
  exact List.map_congr_left fun p hp =>
    Lexeme.tidy_of_plain (hplain p hp) (endsInLiteral_eq_false.mp hclosed p hp)

namespace Occurrence

/-- The first parameter has the lexemes of the first field. -/
theorem first_field (o : Occurrence) :
    ∃ first others, fields o.args = first :: others ∧
      (o.params.head? = none → first = [] ∧ others = []) ∧
      ∀ p ∈ o.params.head?, (first ≠ [] ∨ others ≠ []) ∧
        (lex p).map (·.lexeme) = first.map (·.lexeme) := by
  obtain ⟨first, others, hfields⟩ := exists_fields o.args
  obtain ⟨others', htidy, hothers⟩ := fields_tidyAfter hfields (some .opening)
  refine ⟨first, others, hfields, ?_⟩
  by_cases hnone : first = [] ∧ others = []
  -- One empty field is no parameter, in either layout.
  · obtain ⟨rfl, rfl⟩ := hnone
    rw [hothers.mpr rfl] at htidy
    have hhead : o.params.head? = none := head?_params_nil htidy
    rw [hhead]
    exact ⟨fun _ => ⟨rfl, rfl⟩, nofun⟩
  · have hne : first ≠ [] ∨ others ≠ [] := not_and_or.mp hnone
    have hhead : o.params.head? = some (phrase (tidyAfter (some .opening) first)) :=
      head?_params htidy (hne.imp (mt tidyAfter_eq_nil) (mt hothers.mp))
    obtain ⟨rest, hargs⟩ := prefix_of_fields hfields
    have hlegible := o.legible
    have hplain := o.plain
    have hclosed := o.balanced.literals
    rw [← hargs] at hlegible hplain hclosed
    rw [hhead]
    refine ⟨nofun, fun p hp => ⟨hne, ?_⟩⟩
    cases hp
    rw [lexemes_phrase (legible_tidyAfter _ hlegible.left)]
    exact lexemes_tidyAfter_of_plain (fun q hq => hplain q (List.mem_append_left _ hq))
      (endsInLiteral_append_eq_false.mp hclosed).1 _

/-- If the first parameter is the text of one lexeme, the first field is that lexeme. -/
theorem first_field_lexeme (o : Occurrence) {l : Lexeme} (hl : l.Legible)
    (hparam : o.params.head? = some l.text) :
    ∃ gap others, fields o.args = [⟨gap, l⟩] :: others := by
  obtain ⟨first, others, hfields, -, hfirst⟩ := o.first_field
  have hlexemes := (hfirst _ hparam).2
  rw [lex_lexeme hl] at hlexemes
  obtain ⟨p, rfl, hp⟩ := List.map_eq_singleton_iff.mp hlexemes.symm
  cases hp
  exact ⟨p.gap, others, hfields⟩

/-- A plain first parameter is the same in the tidy layout as in the text. -/
theorem head?_params (o : Occurrence) (hplain : ∀ p ∈ o.params.head?, PlainParam p) :
    (AccessRules.params o.args).head? = o.params.head? := by
  obtain ⟨first, others, hfields, hnone, hfirst⟩ := o.first_field
  cases hhead : o.params.head? with
  | none =>
    obtain ⟨rfl, rfl⟩ := hnone hhead
    exact head?_params_nil hfields
  | some p =>
    obtain ⟨hne, hlexemes⟩ := hfirst p hhead
    rw [AccessRules.head?_params hfields hne]
    rcases (hplain p hhead).single.exists_lexeme with rfl | ⟨l, hl, rfl⟩
    · obtain rfl : first = [] := List.map_eq_nil_iff.mp hlexemes.symm
      rfl
    · obtain ⟨gap, others', hfields'⟩ := o.first_field_lexeme hl hhead
      cases hfields.symm.trans hfields'
      exact congrArg some (List.append_nil l.text)

end Occurrence

/-! ### Named checks -/

theorem mem_namesIn {words : WordChars} {checks : List Check} {s x : Text} :
    x ∈ namesIn words checks s ↔
      x ≠ [] ∧ ∃ m ∈ mentions words s, m.1 ∈ checks ∧ mentionedName m.2 = x := by
  simp only [namesIn, Std.TreeSet.mem_ofList]
  simp [and_comm, and_assoc]

end AccessRules
