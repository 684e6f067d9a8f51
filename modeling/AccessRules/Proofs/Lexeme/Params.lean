import AccessRules.Params
import AccessRules.Proofs.Lexeme.Render

/-! How lexemes between parentheses divide, piece by piece.

A comma divides what is on each side of it (`fields_comma`), and a lexeme that is no
comma joins what is around it (`fields_plain`). So the first field goes up to the first
comma (`fields_eq_cons`), and one lexeme stands in one field: `params_around` says what the
parameters have of it, its text at one place of one parameter, with all the rest settled by
the lexemes around it. -/
namespace AccessRules

/-! ### Fields -/

theorem fields_ne_nil (ls : List Placed) : fields ls ≠ [] := by
  cases ls with
  | nil => exact List.cons_ne_nil _ _
  | cons p rest =>
    rw [fields]
    split
    · exact List.cons_ne_nil _ _
    · split <;> exact List.cons_ne_nil _ _

theorem exists_fields (ls : List Placed) : ∃ first rest, fields ls = first :: rest :=
  List.exists_cons_of_ne_nil (fields_ne_nil ls)

/-- A comma divides. -/
theorem fields_comma (a : List Placed) {p : Placed} (hp : p.lexeme = .comma) (b : List Placed) :
    fields (a ++ p :: b) = fields a ++ fields b := by
  induction a with
  | nil =>
    show fields (p :: b) = [] :: fields b
    rw [fields, if_pos hp]
  | cons q a ih =>
    rw [List.cons_append, fields, fields]
    split
    · rw [ih, List.cons_append]
    · obtain ⟨first, rest, ha⟩ := exists_fields a
      rw [ih, ha]
      rfl

/-- Lexemes without a comma join the first field of what follows. -/
theorem fields_plain {a : List Placed} (ha : ∀ p ∈ a, p.lexeme ≠ .comma) {b first : List Placed}
    {rest : List (List Placed)} (hb : fields b = first :: rest) :
    fields (a ++ b) = (a ++ first) :: rest := by
  induction a with
  | nil => exact hb
  | cons p a ih =>
    rw [List.cons_append, fields, if_neg (ha p (List.mem_cons_self ..)),
      ih fun q hq => ha q (List.mem_cons_of_mem p hq)]
    rfl

theorem fields_of_noComma {ls : List Placed} (h : ∀ p ∈ ls, p.lexeme ≠ .comma) :
    fields ls = [ls] := by
  have hall := fields_plain h (b := []) rfl
  rwa [List.append_nil] at hall

/-- Lexemes up to their last comma, and those after it. -/
theorem exists_last_comma (a : List Placed) : (∀ p ∈ a, p.lexeme ≠ .comma) ∨
    ∃ before p after, a = before ++ p :: after ∧ p.lexeme = .comma ∧
      ∀ q ∈ after, q.lexeme ≠ .comma := by
  induction a with
  | nil => exact .inl fun _ h => absurd h List.not_mem_nil
  | cons p a ih =>
    rcases ih with hplain | ⟨before, c, after, rfl, hc, hafter⟩
    · by_cases hp : p.lexeme = .comma
      · exact .inr ⟨[], p, a, rfl, hp, hplain⟩
      · exact .inl (List.forall_mem_cons.mpr ⟨hp, hplain⟩)
    · exact .inr ⟨p :: before, c, after, rfl, hc, hafter⟩

/-- What follows the lexemes joins their last field. -/
theorem exists_last_field (a : List Placed) : ∃ fs last, last <:+ a ∧
    ∀ b first rest, fields b = first :: rest → fields (a ++ b) = fs ++ (last ++ first) :: rest := by
  rcases exists_last_comma a with hplain | ⟨before, p, after, rfl, hp, hafter⟩
  · exact ⟨[], a, List.suffix_refl a, fun b first rest hb => fields_plain hplain hb⟩
  · refine ⟨fields before, after, ⟨before ++ [p], by simp⟩, fun b first rest hb => ?_⟩
    rw [List.append_assoc, List.cons_append, fields_comma before hp, fields_plain hafter hb]

/-- The first field goes up to the first comma. -/
theorem fields_eq_cons {ls first : List Placed} {others : List (List Placed)}
    (h : fields ls = first :: others) : (∀ p ∈ first, p.lexeme ≠ .comma) ∧
      ((ls = first ∧ others = []) ∨
        ∃ p rest, ls = first ++ p :: rest ∧ p.lexeme = .comma ∧ fields rest = others) := by
  induction ls generalizing first with
  | nil =>
    cases h
    exact ⟨fun _ h => absurd h List.not_mem_nil, .inl ⟨rfl, rfl⟩⟩
  | cons p ls ih =>
    rw [fields] at h
    by_cases hp : p.lexeme = .comma
    · rw [if_pos hp] at h
      cases h
      exact ⟨fun _ h => absurd h List.not_mem_nil, .inr ⟨p, ls, rfl, hp, rfl⟩⟩
    · obtain ⟨first', rest, hls⟩ := exists_fields ls
      rw [if_neg hp, hls] at h
      cases h
      obtain ⟨hplain, hrest⟩ := ih hls
      refine ⟨List.forall_mem_cons.mpr ⟨hp, hplain⟩, ?_⟩
      rcases hrest with ⟨rfl, hothers⟩ | ⟨c, rest, rfl, hc, hothers⟩
      · exact .inl ⟨rfl, hothers⟩
      · exact .inr ⟨c, rest, rfl, hc, hothers⟩

theorem prefix_of_fields {ls first : List Placed} {others : List (List Placed)}
    (h : fields ls = first :: others) : first <+: ls := by
  rcases (fields_eq_cons h).2 with ⟨rfl, -⟩ | ⟨p, rest, rfl, -⟩
  · exact List.prefix_refl ls
  · exact List.prefix_append first (p :: rest)

theorem legible_of_mem_fields {ls field : List Placed} (h : Legible ls) (hf : field ∈ fields ls) :
    Legible field := by
  induction ls with
  | nil =>
    cases List.mem_singleton.mp hf
    exact .nil
  | cons p ls ih =>
    obtain ⟨first, others, hls⟩ := exists_fields ls
    rw [fields, hls] at hf
    rw [hls] at ih
    split at hf
    · rcases List.mem_cons.mp hf with rfl | hf
      · exact .nil
      · exact ih h.tail hf
    · rcases List.mem_cons.mp hf with rfl | hf
      · obtain ⟨rest, hrest⟩ := prefix_of_fields hls
        rw [← hrest] at h
        exact Legible.left (a := p :: first) h
      · exact ih h.tail (List.mem_cons_of_mem first hf)

/-- The same lexemes divide into fields of the same lexemes. -/
theorem fields_congr {a b : List Placed} (h : a.map (·.lexeme) = b.map (·.lexeme)) :
    List.Forall₂ (fun f g => f.map (·.lexeme) = g.map (·.lexeme)) (fields a) (fields b) := by
  induction a generalizing b with
  | nil =>
    rw [List.map_eq_nil_iff.mp h.symm]
    exact .cons rfl .nil
  | cons p a ih =>
    cases b with
    | nil => cases h
    | cons q b =>
      obtain ⟨hp, hrest⟩ : p.lexeme = q.lexeme ∧ _ := List.cons.inj h
      obtain ⟨first, others, ha⟩ := exists_fields a
      obtain ⟨first', others', hb⟩ := exists_fields b
      have hfields := ih hrest
      rw [ha, hb] at hfields
      rw [fields, fields, ha, hb, hp]
      split
      · exact .cons rfl hfields
      · obtain ⟨hfirst, hothers⟩ := List.forall₂_cons.mp hfields
        exact .cons (congrArg₂ List.cons hp hfirst) hothers

/-! ### The texts of fields -/

theorem paramTexts_cons {field : List Placed} {others : List (List Placed)}
    (h : field ≠ [] ∨ others ≠ []) :
    paramTexts (field :: others) = phrase field :: paramTexts others := by
  cases others with
  | nil =>
    rcases h with h | h
    · exact if_neg h
    · exact absurd rfl h
  | cons other others =>
    rw [paramTexts]
    exact nofun

/-- The first parameter is the first field, unless that is empty and the only one. -/
theorem head?_params {ls first : List Placed} {others : List (List Placed)}
    (h : fields ls = first :: others) (hne : first ≠ [] ∨ others ≠ []) :
    (params ls).head? = some (phrase first) := by
  rw [params, h, paramTexts_cons hne]
  rfl

theorem head?_params_nil {ls : List Placed} (h : fields ls = [[]]) : (params ls).head? = none := by
  rw [params, h]
  rfl

theorem paramTexts_append (fs : List (List Placed)) {field : List Placed} (h : field ≠ [])
    (others : List (List Placed)) :
    paramTexts (fs ++ field :: others) = fs.map phrase ++ phrase field :: paramTexts others := by
  induction fs with
  | nil => exact paramTexts_cons (.inl h)
  | cons f fs ih =>
    have hne : fs ++ field :: others ≠ [] := by simp
    rw [List.cons_append, paramTexts_cons (.inr hne), ih]
    rfl

/-- A field is read from its text as it is, but for the blanks before it. -/
theorem lexemes_phrase {ls : List Placed} (h : Legible ls) :
    (lex (phrase ls)).map (·.lexeme) = ls.map (·.lexeme) := by
  cases ls with
  | nil => rfl
  | cons p ls =>
    have hread : lex (phrase (p :: ls)) = ⟨[], p.lexeme⟩ :: ls := lex_render (h.regap blank_nil)
    rw [hread]
    rfl

/-- A parameter that is one word, which may be empty, or one closed literal. -/
def SingleParam (p : Text) : Prop :=
  (∀ c ∈ p, isBare c = true) ∨ ∃ q x, isQuote q = true ∧ q ∉ x ∧ p = (Lexeme.literal q x).text

theorem SingleParam.exists_lexeme {p : Text} (h : SingleParam p) :
    p = [] ∨ ∃ l : Lexeme, l.Legible ∧ p = l.text := by
  rcases h with hbare | ⟨q, x, hq, hx, rfl⟩
  · by_cases hp : p = []
    · exact .inl hp
    · exact .inr ⟨.word p, ⟨hp, hbare⟩, rfl⟩
  · exact .inr ⟨.literal q x, ⟨hq, hx⟩, rfl⟩

/-- There are no gaps in the field of a single parameter, so its lexemes are its text. -/
theorem phrase_congr {f g : List Placed} (h : f.map (·.lexeme) = g.map (·.lexeme))
    (hg : Legible g) (hsingle : SingleParam (phrase g)) : phrase f = phrase g := by
  have hread := lexemes_phrase hg
  rcases hsingle.exists_lexeme with hnil | ⟨l, hl, htext⟩
  · rw [hnil] at hread
    obtain rfl := List.map_eq_nil_iff.mp hread.symm
    rw [List.map_eq_nil_iff.mp h]
  · rw [htext, lex_lexeme hl] at hread
    obtain ⟨p, rfl, hp⟩ := List.map_eq_singleton_iff.mp (h.trans hread.symm)
    rw [htext]
    exact (List.append_nil _).trans (congrArg Lexeme.text hp)

/-- Single parameters depend on the lexemes and not on what is between them. -/
theorem paramTexts_congr {fs gs : List (List Placed)}
    (h : List.Forall₂ (fun f g => f.map (·.lexeme) = g.map (·.lexeme)) fs gs)
    (hgs : ∀ g ∈ gs, Legible g) (hsingle : ∀ p ∈ paramTexts gs, SingleParam p) :
    paramTexts fs = paramTexts gs := by
  induction h with
  | nil => rfl
  | @cons f g fs gs hfg hrest ih =>
    obtain ⟨hg, hgs⟩ := List.forall_mem_cons.mp hgs
    have hf : f = [] ↔ g = [] := by
      rw [← List.map_eq_nil_iff (f := Placed.lexeme), hfg, List.map_eq_nil_iff]
    have hfs : fs = [] ↔ gs = [] := by
      rw [← List.length_eq_zero_iff, hrest.length_eq, List.length_eq_zero_iff]
    by_cases hne : g ≠ [] ∨ gs ≠ []
    · rw [paramTexts_cons hne] at hsingle ⊢
      obtain ⟨hfirst, hothers⟩ := List.forall_mem_cons.mp hsingle
      rw [paramTexts_cons (hne.imp (mt hf.mp) (mt hfs.mp)), phrase_congr hfg hg hfirst,
        ih hgs hothers]
    · -- One empty field is no parameter.
      obtain ⟨hgnil, hgsnil⟩ := not_or.mp hne
      rw [hf.mpr (not_not.mp hgnil), hfs.mpr (not_not.mp hgsnil), not_not.mp hgnil,
        not_not.mp hgsnil]

theorem params_congr {a b : List Placed} (h : a.map (·.lexeme) = b.map (·.lexeme))
    (hb : Legible b) (hsingle : ∀ p ∈ params b, SingleParam p) : params a = params b :=
  paramTexts_congr (fields_congr h) (fun _ hg => legible_of_mem_fields hb hg) hsingle

/-- The text of a field around one of its lexemes. What stands before the lexeme does
not end inside a literal. -/
theorem exists_front {ls : List Placed} (h : Legible ls) (hopen : endsInLiteral ls = false)
    {gap : Text} (hg : Blank gap) : ∃ front, endsInLiteral (lex front) = false ∧
      ∀ l rest, phrase (ls ++ ⟨gap, l⟩ :: rest) = front ++ l.text ++ render rest := by
  cases ls with
  | nil => exact ⟨[], rfl, fun l rest => rfl⟩
  | cons p ls =>
    refine ⟨render (⟨[], p.lexeme⟩ :: ls) ++ gap, ?_, fun l rest => ?_⟩
    · rw [lex_render_blanks (h.regap blank_nil) hopen hg]
      exact hopen
    · simp [phrase, render_append]

/-- **One lexeme stands in one parameter.** Whatever lexeme but a comma stands between
`a` and `b`, the parameters are the same up to its text, which stands outside literals. -/
theorem params_around {a : List Placed} (h : Legible a) (hopen : endsInLiteral a = false)
    {gap : Text} (hg : Blank gap) (b : List Placed) :
    ∃ before front back after, endsInLiteral (lex front) = false ∧ ∀ l : Lexeme, l ≠ .comma →
      params (a ++ ⟨gap, l⟩ :: b) = before ++ (front ++ l.text ++ back) :: after := by
  obtain ⟨fs, last, ⟨rest, rfl⟩, hfields⟩ := exists_last_field a
  obtain ⟨first, others, hb⟩ := exists_fields b
  obtain ⟨front, hfront, hphrase⟩ :=
    exists_front h.right (endsInLiteral_append_eq_false.mp hopen).2 hg
  refine ⟨fs.map phrase, front, render first, paramTexts others, hfront, fun l hl => ?_⟩
  have hfirst : fields (⟨gap, l⟩ :: b) = (⟨gap, l⟩ :: first) :: others :=
    fields_plain (a := [⟨gap, l⟩]) (List.forall_mem_singleton.mpr hl) hb
  rw [params, hfields _ _ _ hfirst, paramTexts_append fs (by simp), hphrase]

end AccessRules
