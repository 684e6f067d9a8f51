import AccessRules.Proofs.Grammar.Calls
import AccessRules.Proofs.Grammar.Spelling
import AccessRules.Proofs.Offsets.Split

/-! Words, in a text and in what is cut out of it.

`StandsIn` says that a text stands in another one between `before` and `after`, outside
literals and with no word cut at its ends. What stands in it is then what stands at the same
place of the other one (`StandsIn.trans_iff`): cutting it out makes no words and hides none. In
tidy layout the words of a keyword are where the test for a keyword succeeds, that is with a
space or an end of the text on each side (`keywordAt?_iff`). -/
namespace AccessRules

/-- A text that begins with no letter begins with no word, unless there are blanks before it. -/
theorem gap_ne_nil_of_head? {t : Text} (ht : ∀ c ∈ t.head?, isBare c = false) :
    ∀ p ∈ (lex t).head?, p.lexeme.isWord = true → p.gap ≠ [] := by
  intro p hp hword hgap
  obtain ⟨ls, hls⟩ := List.head?_eq_some_iff.mp hp
  obtain ⟨gap, l⟩ := p
  cases l with
  | word letters =>
    obtain ⟨-, ⟨hne, hbare⟩, -⟩ := (hls ▸ legible_lex t).head
    obtain ⟨c, letters, rfl⟩ := List.exists_cons_of_ne_nil hne
    obtain rfl : gap = [] := hgap
    have hhead : t.head? = some c := by
      rw [← (render_lex t).2, hls]
      rfl
    cases (hbare c (List.mem_cons_self ..)).symm.trans (ht c hhead)
  | _ => cases hword

/-- `u` stands in `s` between `before` and `after`, with no word cut at its ends. -/
structure StandsIn (s before u after : Text) : Prop where
  text : s = before ++ (u ++ after)
  closed : openQuote before = none
  first : ∀ c ∈ before.getLast?, isBare c = false
  last : ∀ c ∈ after.head?, isBare c = false

namespace StandsIn
variable {s before u after : Text}

theorem refl (s : Text) : StandsIn s [] s [] := ⟨(List.append_nil s).symm, rfl, nofun, nofun⟩

theorem trim (s : Text) : ∃ before after, StandsIn s before s.trim after := by
  obtain ⟨a, b, ha, hb, hs⟩ := s.exists_trim_append
  exact ⟨a, b, hs, ha.closed, fun c hc => isBare_of_isBlank (ha c (List.mem_of_getLast? hc)),
    fun c hc => isBare_of_isBlank (hb c (List.mem_of_head? hc))⟩

/-- **Cutting makes no words and hides none.** What stands in the text that is cut out stands
in the other one, at the same place, and the other way round. -/
theorem trans_iff (h : StandsIn s before u after) {a v b : Text} :
    StandsIn s (before ++ a) v (b ++ after) ↔ StandsIn u a v b := by
  have htext : s = before ++ a ++ (v ++ (b ++ after)) ↔ u = a ++ (v ++ b) := by
    rw [h.text, List.append_assoc, List.append_right_inj, ← List.append_assoc v,
      ← List.append_assoc a, List.append_left_inj]
  have hfirst : (∀ c ∈ (before ++ a).getLast?, isBare c = false) ↔
      ∀ c ∈ a.getLast?, isBare c = false := by
    rcases List.eq_nil_or_concat a with rfl | ⟨a, c, rfl⟩
    · rw [List.append_nil]
      exact iff_of_true h.first nofun
    · rw [List.getLast?_append_of_ne_nil _ (by simp)]
  have hlast : (∀ c ∈ (b ++ after).head?, isBare c = false) ↔
      ∀ c ∈ b.head?, isBare c = false := by
    cases b with
    | nil => exact iff_of_true h.last nofun
    | cons c b => exact Iff.rfl
  constructor
  · rintro ⟨ht, hc, hf, hl⟩
    exact ⟨htext.mp ht, (openQuote_append h.closed a).symm.trans hc, hfirst.mp hf, hlast.mp hl⟩
  · rintro ⟨ht, hc, hf, hl⟩
    exact ⟨htext.mpr ht, (openQuote_append h.closed a).trans hc, hfirst.mpr hf, hlast.mpr hl⟩

/-- A word is a lexeme where it stands. -/
theorem lex_word (h : StandsIn s before u after) (hne : u ≠ [])
    (hb : ∀ c ∈ u, isBare c = true) :
    ∃ ls gap, lex s = ls ++ ⟨gap, .word u⟩ :: lex after ∧ before = render ls ++ gap := by
  obtain ⟨ls, gap, front, hlex, hbefore⟩ := lex_append_word h.closed hne hb
    (gap_ne_nil_of_head? h.last)
  rw [← h.text] at hlex
  have hword : ∀ c ∈ front ++ u, isBare c = true :=
    ((legible_lex s).lexemes ⟨gap, .word (front ++ u)⟩ (by simp [hlex])).2
  rcases List.eq_nil_or_concat front with rfl | ⟨front, c, rfl⟩
  · exact ⟨ls, gap, hlex, by rw [hbefore, List.append_nil]⟩
  · -- The word would go on before the place.
    have hc := h.first c (by rw [hbefore, List.concat_eq_append, ← List.append_assoc,
      List.getLast?_concat]; rfl)
    cases (hword c (by simp)).symm.trans hc

end StandsIn

/-! ### Keywords -/

theorem ne_nil_of_ofWord? {w : Text} {op : Op} (h : Op.ofWord? w = some op) : w ≠ [] := by
  rintro rfl
  cases h

theorem isBare_of_ofWord? {w : Text} {op : Op} (h : Op.ofWord? w = some op) :
    ∀ c ∈ w, isBare c = true := fun _ hc => isBare_of_isNameChar (isNameChar_of_keyword h hc)

/-- In tidy layout a keyword has a space or an end of the text on each side. -/
theorem StandsIn.keyword_spaced {s a w b : Text} {op : Op} (h : StandsIn s a w b)
    (hop : Op.ofWord? w = some op) (hs : Tidied (lex s)) (htrim : s.trim = s) :
    Edge a ∧ op.Begins (w ++ b) := by
  obtain ⟨ls, gap, hlex, ha⟩ := h.lex_word (ne_nil_of_ofWord? hop) (isBare_of_ofWord? hop)
  have hlegible := legible_lex s
  rw [hlex] at hs hlegible
  have hgap : Blank gap := hlegible.right.head.1
  obtain ⟨hbefore, hafter⟩ := hs.keyword_gaps (p := ⟨gap, .word w⟩) (by
    show Op.ofWord? w ≠ none
    rw [hop]
    nofun)
  have hw : w = op.keyword.toList :=
    Lexeme.word.inj (hs.spelled ⟨gap, .word w⟩ (by simp) op hop)
  rw [h.text] at htrim
  constructor
  · cases ls with
    | nil =>
      obtain rfl : a = gap := ha
      rw [Text.eq_nil_of_trim_left htrim hgap]
      nofun
    | cons p ls =>
      obtain rfl : gap = [' '] := hbefore (List.cons_ne_nil _ _)
      rw [ha, Edge, List.getLast?_concat]
      exact fun c hc => (Option.some.inj hc).symm
  · refine ⟨b, by rw [hw], fun c hc => ?_⟩
    obtain ⟨hlast, hb⟩ := render_lex b
    cases hls : lex b with
    | nil =>
      rw [hls, render_nil, List.nil_append] at hb
      rw [hb] at hlast
      rw [← List.append_assoc] at htrim
      rw [Text.eq_nil_of_trim_right htrim hlast] at hc
      cases hc
    | cons q ls =>
      rw [hls, render_cons, hafter q (by rw [hls]; rfl)] at hb
      rw [← hb] at hc
      exact (Option.some.inj hc).symm

/-- **The test for a keyword finds the words that are one.** -/
theorem keywordAt?_iff {a t : Text} (ha : openQuote a = none) (hs : Tidied (lex (a ++ t)))
    (htrim : (a ++ t).trim = a ++ t) (op : Op) :
    (edgeAt? (a ++ t) a.byteSize = some true ∧ keywordAt? (a ++ t) a.byteSize op = some true) ↔
      ∃ w b, t = w ++ b ∧ Op.ofWord? w = some op ∧ StandsIn (a ++ t) a w b := by
  obtain ⟨edge, hedge, hedge'⟩ := edgeAt?_append a t
  obtain ⟨found, hfound, hfound'⟩ := keywordAt?_append a t op
  rw [hedge, hfound, Option.some_inj, Option.some_inj, hedge', hfound']
  constructor
  · rintro ⟨hbefore, b, rfl, hafter⟩
    refine ⟨op.keyword.toList, b, rfl, op.op?_lexeme, rfl, ha, fun c hc => ?_, fun c hc => ?_⟩
    · rw [hbefore c hc]
      rfl
    · rw [hafter c hc]
      rfl
  · rintro ⟨w, b, rfl, hop, h⟩
    exact h.keyword_spaced hop hs htrim

end AccessRules
