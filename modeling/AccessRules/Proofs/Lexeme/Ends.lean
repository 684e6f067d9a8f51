import Mathlib.Data.List.DropRight
import AccessRules.Proofs.Lexeme.Params

/-! How texts and parameters begin and end.

What is stripped off a text is what stands around the first and the last character that
stay (`strip_append`). No lexeme begins with a blank and only an open literal can end in
one, so a parameter has nothing left to trim (`trim_of_mem_params`); outside literals it is
made of lexemes of the arguments other than commas (`lexeme_of_mem_params`). Of the empty
parameters at the end only one is dropped: `getLast?_params_eq_nil` says when another one is
left there. -/
namespace AccessRules

/-! ### Ends of a text -/

/-- Characters at the ends of a text are taken off, up to the first others. -/
theorem strip_append {p : Char → Bool} {a u b : Text} (ha : ∀ c ∈ a, p c = true)
    (hb : ∀ c ∈ b, p c = true) (hfirst : ∀ c ∈ u.head?, p c = false)
    (hlast : ∀ c ∈ u.getLast?, p c = false) :
    (((a ++ u ++ b).dropWhile p).reverse.dropWhile p).reverse = u := by
  have hall {s t : Text} (hs : ∀ c ∈ s, p c = true) (ht : ∀ c ∈ t.head?, p c = false) :
      (s ++ t).dropWhile p = t := by
    rw [List.dropWhile_append_of_pos hs]
    cases t with
    | nil => rfl
    | cons c t => exact List.dropWhile_cons_of_neg (by simp [ht c rfl])
  by_cases hu : u = []
  · subst hu
    have hblank : ∀ c ∈ a ++ b, p c = true := fun c hc =>
      (List.mem_append.mp hc).elim (ha c) (hb c)
    rw [List.append_nil, List.dropWhile_eq_nil_iff.mpr hblank]
    rfl
  · obtain ⟨c, t, rfl⟩ := List.exists_cons_of_ne_nil hu
    rw [List.append_assoc, hall ha (by simpa using hfirst), List.reverse_append,
      hall (fun d hd => hb d (List.mem_reverse.mp hd)) (by rwa [List.head?_reverse]),
      List.reverse_reverse]

theorem strip_self {p : Char → Bool} {u : Text} (hfirst : ∀ c ∈ u.head?, p c = false)
    (hlast : ∀ c ∈ u.getLast?, p c = false) :
    ((u.dropWhile p).reverse.dropWhile p).reverse = u := by
  have hstrip := strip_append (a := []) (b := []) (fun _ h => nomatch h) (fun _ h => nomatch h)
    hfirst hlast
  rwa [List.nil_append, List.append_nil] at hstrip

namespace Text
variable (s : Text)

theorem trimEnd_trimEnd : s.trimEnd.trimEnd = s.trimEnd := by
  simp only [trimEnd, List.reverse_reverse, List.dropWhile_idempotent]

theorem getLast?_trimEnd : ∀ c ∈ s.trimEnd.getLast?, isBlank c = false := by
  intro c hc
  rw [trimEnd, List.getLast?_reverse] at hc
  have hstop := List.head?_dropWhile_not isBlank s.reverse
  rw [hc] at hstop
  simpa using hstop

/-- What is trimmed off the end stands after the last character that is no blank. -/
theorem trimEnd_append {a : Text} (ha : ∀ c ∈ a.getLast?, isBlank c = false) :
    (a ++ s).trimEnd = a ++ s.trimEnd := by
  have hstop : a.reverse.dropWhile isBlank = a.reverse := by
    rw [← List.head?_reverse] at ha
    cases hrev : a.reverse with
    | nil => rfl
    | cons c t => exact List.dropWhile_cons_of_neg (by simp [ha c (by rw [hrev]; rfl)])
  rw [trimEnd, trimEnd, List.reverse_append, List.dropWhile_append, hstop]
  split
  · rename_i hs
    rw [List.isEmpty_iff.mp hs, List.reverse_reverse, List.reverse_nil, List.append_nil]
  · rw [List.reverse_append, List.reverse_reverse]

/-- Blanks around a text are trimmed off it with its own. -/
theorem trim_append {a b : Text} (ha : Blank a) (hb : Blank b) : (a ++ s ++ b).trim = s.trim := by
  rw [trim, trimStart, List.append_assoc, List.dropWhile_append_of_pos ha, List.dropWhile_append,
    trim, trimStart]
  cases hs : s.dropWhile isBlank with
  | nil =>
    rw [List.isEmpty_nil, if_pos rfl, List.dropWhile_eq_nil_iff.mpr hb]
  | cons c t =>
    have hb' : ∀ d ∈ b.reverse, isBlank d = true := fun d hd => hb d (List.mem_reverse.mp hd)
    rw [List.isEmpty_cons, if_neg Bool.false_ne_true, trimEnd, List.reverse_append,
      List.dropWhile_append_of_pos hb', trimEnd]

theorem exists_trimEnd_append : ∃ last, Blank last ∧ s = s.trimEnd ++ last := by
  refine ⟨(s.reverse.takeWhile isBlank).reverse, fun c hc => ?_, ?_⟩
  · exact List.mem_takeWhile_imp (List.mem_reverse.mp hc)
  · rw [trimEnd, ← List.reverse_append, List.takeWhile_append_dropWhile, List.reverse_reverse]

/-- Only blanks stand around what is trimmed. -/
theorem exists_trim_append : ∃ a b, Blank a ∧ Blank b ∧ s = a ++ (s.trim ++ b) := by
  obtain ⟨b, hb, htrim⟩ := s.trimStart.exists_trimEnd_append
  refine ⟨s.takeWhile isBlank, b, fun c hc => List.mem_takeWhile_imp hc, hb, ?_⟩
  rw [trim, ← htrim, trimStart, List.takeWhile_append_dropWhile]

theorem head?_trim : ∀ c ∈ s.trim.head?, isBlank c = false := by
  intro c hc
  obtain ⟨b, -, htrim⟩ := s.trimStart.exists_trimEnd_append
  have hstop := List.head?_dropWhile_not isBlank s
  have hhead : s.trimStart.head? = some c := by
    rw [htrim, List.head?_append, ← trim, hc]
    rfl
  rw [← trimStart, hhead] at hstop
  simpa using hstop

theorem getLast?_trim : ∀ c ∈ s.trim.getLast?, isBlank c = false := s.trimStart.getLast?_trimEnd

theorem eq_nil_of_trim_left {g s : Text} (h : (g ++ s).trim = g ++ s) (hg : Blank g) : g = [] := by
  cases g with
  | nil => rfl
  | cons c g =>
    have hc := head?_trim (c :: g ++ s) c (by rw [h]; rfl)
    cases (hg c (List.mem_cons_self ..)).symm.trans hc

theorem eq_nil_of_trim_right {s g : Text} (h : (s ++ g).trim = s ++ g) (hg : Blank g) : g = [] := by
  rcases List.eq_nil_or_concat g with rfl | ⟨g, c, rfl⟩
  · rfl
  · rw [List.concat_eq_append, ← List.append_assoc] at h
    have hc := getLast?_trim (s ++ g ++ [c]) c (by rw [h, List.getLast?_concat]; rfl)
    cases (hg c (by simp)).symm.trans hc

end Text

theorem isBlank_of_isQuote {c : Char} (h : isQuote c = true) : isBlank c = false := by
  rcases isQuote_iff.mp h with rfl | rfl <;> decide

theorem isBlank_of_isBare {c : Char} (h : isBare c = true) : isBlank c = false := by
  simp only [isBare, Bool.not_eq_true', Bool.or_eq_false_iff] at h
  exact h.1.1.1.1

theorem isQuote_of_isBlank {c : Char} (h : isBlank c = true) : isQuote c = false := by
  rw [← Bool.not_eq_true]
  intro hq
  rw [isBlank_of_isQuote hq] at h
  cases h

theorem isBare_of_isBlank {c : Char} (h : isBlank c = true) : isBare c = false := by
  simp [isBare, h]

theorem isQuote_of_isBare {c : Char} (h : isBare c = true) : isQuote c = false := by
  simp only [isBare, Bool.not_eq_true', Bool.or_eq_false_iff] at h
  exact h.2

/-! ### Ends of a lexeme -/

section Literal
variable {q : Char} (hq : isQuote q = true) (x : Text)
include hq

theorem head?_literal : ∀ c ∈ (Lexeme.literal q x).text.head?, isBlank c = false := by
  intro c hc
  cases hc
  exact isBlank_of_isQuote hq

theorem getLast?_literal : ∀ c ∈ (Lexeme.literal q x).text.getLast?, isBlank c = false := by
  intro c hc
  have hlast : (q :: x ++ [q]).getLast? = some q := List.getLast?_concat
  obtain rfl : q = c := Option.some.inj (hlast.symm.trans hc)
  exact isBlank_of_isQuote hq

end Literal

namespace Lexeme
variable {l : Lexeme}

theorem text_ne_nil (h : l.Legible) : l.text ≠ [] := by
  cases l with
  | word letters => exact h.1
  | _ => exact List.cons_ne_nil _ _

theorem head?_text (h : l.Legible) : ∀ c ∈ l.text.head?, isBlank c = false := by
  cases l with
  | word letters => exact fun c hc => isBlank_of_isBare (h.2 c (List.mem_of_head? hc))
  | literal quote content => exact head?_literal h.1 content
  | openLiteral quote content => exact head?_literal h.1 content
  | _ =>
    intro c hc
    cases hc
    rfl

theorem getLast?_text (h : l.Legible) (hopen : l.isOpenLiteral = false) :
    ∀ c ∈ l.text.getLast?, isBlank c = false := by
  cases l with
  | word letters => exact fun c hc => isBlank_of_isBare (h.2 c (List.mem_of_getLast? hc))
  | literal quote content => exact getLast?_literal h.1 content
  | openLiteral quote content => cases hopen
  | _ =>
    intro c hc
    cases hc
    rfl

end Lexeme

/-! ### Ends of a field -/

section Field
variable {ls : List Placed} (h : Legible ls)
include h

theorem phrase_eq_nil : phrase ls = [] ↔ ls = [] := by
  cases ls with
  | nil => simp [phrase]
  | cons p ls => simp [phrase, Lexeme.text_ne_nil h.head.2.1]

/-- The text of a field ends as its last lexeme does. -/
theorem getLast?_phrase (hne : ls ≠ []) :
    ∃ p ∈ ls, (phrase ls).getLast? = p.lexeme.text.getLast? := by
  obtain ⟨p, ls, rfl⟩ := List.exists_cons_of_ne_nil hne
  rcases List.eq_nil_or_concat ls with rfl | ⟨init, last, rfl⟩
  · exact ⟨p, List.mem_singleton_self p, by simp [phrase]⟩
  · have hlast : last.lexeme.text ≠ [] := Lexeme.text_ne_nil (h.lexemes last (by simp))
    refine ⟨last, by simp, ?_⟩
    rw [phrase, List.concat_eq_append, render_append, render_cons, render_nil, List.append_nil,
      ← List.append_assoc, ← List.append_assoc, List.getLast?_append_of_ne_nil _ hlast]

/-- A text whose lexemes end in no blank has none at its ends. -/
theorem trim_phrase_of_ends
    (hends : ∀ p ∈ ls, ∀ c ∈ p.lexeme.text.getLast?, isBlank c = false) :
    (phrase ls).trim = phrase ls := by
  by_cases hne : ls = []
  · subst hne
    rfl
  refine strip_self (fun c hc => ?_) fun c hc => ?_
  · obtain ⟨p, ls, rfl⟩ := List.exists_cons_of_ne_nil hne
    rw [phrase, List.head?_append_of_ne_nil _ (Lexeme.text_ne_nil h.head.2.1)] at hc
    exact Lexeme.head?_text h.head.2.1 c hc
  · obtain ⟨p, hp, hlast⟩ := getLast?_phrase h hne
    rw [hlast] at hc
    exact hends p hp c hc

/-- A field has no blanks at its ends. -/
theorem trim_phrase (hopen : endsInLiteral ls = false) : (phrase ls).trim = phrase ls :=
  trim_phrase_of_ends h fun p hp =>
    Lexeme.getLast?_text (h.lexemes p hp) (endsInLiteral_eq_false.mp hopen p hp)

end Field

/-! ### Parameters -/

theorem paramsIn_eq_ok {args : Text} {ps : List Text} :
    paramsIn args = .ok ps ↔ endsInLiteral (lex args) = false ∧ params (lex args) = ps := by
  rw [paramsIn]
  split <;> simp_all

theorem mem_of_mem_fields {ls field : List Placed} (hf : field ∈ fields ls) :
    ∀ p ∈ field, p ∈ ls ∧ p.lexeme ≠ .comma := by
  induction ls generalizing field with
  | nil =>
    cases List.mem_singleton.mp hf
    exact fun _ h => absurd h List.not_mem_nil
  | cons q ls ih =>
    obtain ⟨first, others, hls⟩ := exists_fields ls
    have hrest {field : List Placed} (hf : field ∈ first :: others) :
        ∀ p ∈ field, p ∈ q :: ls ∧ p.lexeme ≠ .comma := fun p hp =>
      (ih (hls ▸ hf) p hp).imp_left (List.mem_cons_of_mem q)
    rw [fields, hls] at hf
    split at hf
    · rcases List.mem_cons.mp hf with rfl | hf
      · exact fun _ h => absurd h List.not_mem_nil
      · exact hrest hf
    · rename_i hq
      rcases List.mem_cons.mp hf with rfl | hf
      · exact List.forall_mem_cons.mpr
          ⟨⟨List.mem_cons_self .., hq⟩, hrest (List.mem_cons_self ..)⟩
      · exact hrest (List.mem_cons_of_mem first hf)

theorem exists_field {fs : List (List Placed)} {p : Text} (h : p ∈ paramTexts fs) :
    ∃ f ∈ fs, phrase f = p := by
  fun_induction paramTexts fs with
  | case1 => cases h
  | case2 => cases h
  | case3 last => exact ⟨last, List.mem_singleton_self last, (List.mem_singleton.mp h).symm⟩
  | case4 f others _ ih =>
    rcases List.mem_cons.mp h with rfl | h
    · exact ⟨f, List.mem_cons_self .., rfl⟩
    · obtain ⟨g, hg, hp⟩ := ih h
      exact ⟨g, List.mem_cons_of_mem f hg, hp⟩

/-- The parameters are all the fields but an empty last one. -/
theorem paramTexts_concat (fs : List (List Placed)) (f : List Placed) :
    paramTexts (fs ++ [f]) = fs.map phrase ++ if f = [] then [] else [phrase f] := by
  induction fs with
  | nil => rfl
  | cons g fs ih =>
    rw [List.cons_append, paramTexts_cons (.inr (by simp)), ih]
    rfl

section Params
variable {ls : List Placed} (h : Legible ls)
include h

/-- What is in a parameter outside literals is in the arguments, and no comma. -/
theorem lexeme_of_mem_params {p : Text} (hp : p ∈ params ls) :
    ∀ q ∈ lex p, q.lexeme ≠ .comma ∧ ∃ r ∈ ls, r.lexeme = q.lexeme := by
  intro q hq
  obtain ⟨f, hf, rfl⟩ := exists_field hp
  have hmem := List.mem_map_of_mem (f := (·.lexeme)) hq
  rw [lexemes_phrase (legible_of_mem_fields h hf)] at hmem
  obtain ⟨r, hr, hrq⟩ := List.mem_map.mp hmem
  obtain ⟨hls, hcomma⟩ := mem_of_mem_fields hf r hr
  exact ⟨hrq ▸ hcomma, r, hls, hrq⟩

theorem closed_of_mem_params (hopen : endsInLiteral ls = false) {p : Text} (hp : p ∈ params ls) :
    endsInLiteral (lex p) = false := by
  refine endsInLiteral_eq_false.mpr fun q hq => ?_
  obtain ⟨-, r, hr, hrq⟩ := lexeme_of_mem_params h hp q hq
  exact hrq ▸ endsInLiteral_eq_false.mp hopen r hr

theorem trim_of_mem_params (hopen : endsInLiteral ls = false) {p : Text} (hp : p ∈ params ls) :
    p.trim = p := by
  obtain ⟨f, hf, rfl⟩ := exists_field hp
  exact trim_phrase (legible_of_mem_fields h hf) (endsInLiteral_eq_false.mpr fun q hq =>
    endsInLiteral_eq_false.mp hopen q (mem_of_mem_fields hf q hq).1)

end Params

theorem fields_last_comma (before : List Placed) {p : Placed} (hp : p.lexeme = .comma)
    {after : List Placed} (h : ∀ q ∈ after, q.lexeme ≠ .comma) :
    fields (before ++ p :: after) = fields before ++ [after] := by
  rw [fields_comma before hp, fields_of_noComma h]

/-- Lexemes end in a comma when nothing stands after the last one. -/
theorem comma_suffix_iff {before : List Placed} {p : Placed} (hp : p.lexeme = .comma)
    {after : List Placed} (h : ∀ q ∈ after, q.lexeme ≠ .comma) :
    [Lexeme.comma] <:+ (before ++ p :: after).map (·.lexeme) ↔ after = [] := by
  rw [List.singleton_suffix_iff_getLast?_eq_some, List.getLast?_map]
  rcases List.eq_nil_or_concat after with rfl | ⟨init, last, rfl⟩
  · simp [hp]
  · have hlast : last.lexeme ≠ .comma := h last (by simp)
    rw [List.concat_eq_append, ← List.cons_append, ← List.append_assoc, List.getLast?_concat]
    simp [hlast]

theorem not_comma_suffix {ls : List Placed} (h : ∀ q ∈ ls, q.lexeme ≠ .comma) :
    ¬[Lexeme.comma] <:+ ls.map (·.lexeme) := fun hcomma =>
  have ⟨q, hq, hlexeme⟩ := List.mem_map.mp (hcomma.subset (List.mem_singleton_self _))
  h q hq hlexeme

/-- The last field is empty when no lexeme stands before it, or a comma. -/
theorem getLast?_fields_eq_nil (ls : List Placed) :
    (fields ls).getLast? = some [] ↔ ls = [] ∨ [Lexeme.comma] <:+ ls.map (·.lexeme) := by
  rcases exists_last_comma ls with hplain | ⟨before, p, after, rfl, hp, hafter⟩
  · simp [fields_of_noComma hplain, not_comma_suffix hplain]
  · rw [comma_suffix_iff hp hafter, fields_last_comma before hp hafter, List.getLast?_concat]
    simp

theorem getLast?_map_phrase {ls : List Placed} (h : Legible ls) :
    ((fields ls).map phrase).getLast? = some [] ↔ (fields ls).getLast? = some [] := by
  rw [List.getLast?_map, Option.map_eq_some_iff]
  constructor
  · rintro ⟨f, hlast, hf⟩
    have hlegible := legible_of_mem_fields h (List.mem_of_getLast? hlast)
    rw [hlast, (phrase_eq_nil hlegible).mp hf]
  · exact fun hlast => ⟨[], hlast, rfl⟩

/-- **Only one empty parameter is dropped.** The last parameter is empty when the lexemes
are a comma alone or end in two of them. -/
theorem getLast?_params_eq_nil {ls : List Placed} (h : Legible ls) :
    (params ls).getLast? = some [] ↔
      ls.map (·.lexeme) = [.comma] ∨ [.comma, .comma] <:+ ls.map (·.lexeme) := by
  have hends (hcommas : ls.map (·.lexeme) = [.comma] ∨ [.comma, .comma] <:+ ls.map (·.lexeme)) :
      [Lexeme.comma] <:+ ls.map (·.lexeme) :=
    hcommas.elim (fun hone => hone ▸ List.suffix_refl _) fun htwo =>
      (List.suffix_cons _ _).trans htwo
  rcases exists_last_comma ls with hplain | ⟨before, p, after, rfl, hp, hafter⟩
  · have hnone : ¬[Lexeme.comma] <:+ ls.map (·.lexeme) := not_comma_suffix hplain
    rw [params, fields_of_noComma hplain, iff_false_right (mt hends hnone)]
    by_cases hls : ls = [] <;> simp [paramTexts, hls, phrase_eq_nil h]
  · rw [params, fields_last_comma before hp hafter, paramTexts_concat]
    by_cases hnil : after = []
    · -- The last comma closes the field before it, and that one counts.
      subst hnil
      rw [if_pos rfl, List.append_nil, getLast?_map_phrase h.left, getLast?_fields_eq_nil,
        List.map_append, List.map_cons, hp]
      refine or_congr (by simp) ?_
      show _ ↔ [Lexeme.comma] ++ [Lexeme.comma] <:+ before.map (·.lexeme) ++ [Lexeme.comma]
      exact List.suffix_append_self_iff.symm
    · rw [if_neg hnil, List.getLast?_concat, Option.some_inj, phrase_eq_nil h.right.tail]
      exact iff_of_false hnil (mt hends (mt (comma_suffix_iff hp hafter).mp hnil))

end AccessRules
