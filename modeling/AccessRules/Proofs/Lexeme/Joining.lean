import AccessRules.Proofs.Lexeme.Outside

/-! Dividing arguments at their commas, and joining them again.

`IsParam` says of a text alone, without lexemes, that it can be a parameter. Texts whose
literals are closed and that hold no comma outside them are the fields of their joining
(`fields_byCommas`), blanks around them being trimmed off, so that joined parameters are divided
as they were (`paramsIn_padded`), and all arguments are joined parameters with blanks around
them (`exists_padded`). The other way round arguments are divided into such parameters, which are
joined again; only if the last of them is empty another comma has to stand after it
(`paramsIn_byCommas`). -/
namespace AccessRules

/-- A text that no comma divides: its literals are closed, and there is no comma outside them. -/
structure Undivided (u : Text) : Prop where
  closed : openQuote u = none
  noComma : ',' ∉ outside u

/-- What a parameter is: no comma divides it, and it has no blanks at its ends. -/
structure IsParam (p : Text) : Prop extends Undivided p where
  trimmed : p.trim = p

theorem isParam_nil : IsParam [] := ⟨⟨rfl, List.not_mem_nil⟩, rfl⟩

theorem isParam_concat_nil {ps : List Text} (h : ∀ p ∈ ps, IsParam p) :
    ∀ p ∈ ps ++ [[]], IsParam p := fun p hp =>
  (List.mem_append.mp hp).elim (h p) fun hp => List.mem_singleton.mp hp ▸ isParam_nil

/-- The parameter with blanks around it. -/
def Padded (p u : Text) : Prop := ∃ a b, Blank a ∧ Blank b ∧ u = a ++ p ++ b

/-- Texts with a comma between any two of them. -/
def byCommas (us : List Text) : Text := [','].intercalate us

/-! ### Fields -/

/-- A text is its lexemes with blanks around them. -/
theorem padded_phrase (u : Text) : Padded (phrase (lex u)) u := by
  obtain ⟨hlast, hu⟩ := render_lex u
  cases hlex : lex u with
  | nil =>
    rw [hlex, render_nil, List.nil_append] at hu
    exact ⟨[], lastBlanks u, blank_nil, hlast, hu.symm⟩
  | cons p ls =>
    refine ⟨p.gap, lastBlanks u, (hlex ▸ legible_lex u).head.1, hlast, ?_⟩
    rw [phrase, ← List.append_assoc p.gap, ← render_cons, ← hlex, hu]

/-- The lexemes of a text are the text without the blanks at its ends. -/
theorem phrase_lex {u : Text} (h : openQuote u = none) : phrase (lex u) = u.trim := by
  obtain ⟨a, b, ha, hb, hu⟩ := padded_phrase u
  calc phrase (lex u)
    _ = (phrase (lex u)).trim :=
      (trim_phrase (legible_lex u) (endsInLiteral_lex_eq_false.mpr h)).symm
    _ = (a ++ phrase (lex u) ++ b).trim := (Text.trim_append _ ha hb).symm
    _ = u.trim := by rw [← hu]

namespace Undivided

theorem fields_lex {u : Text} (h : Undivided u) : fields (lex u) = [lex u] :=
  fields_of_noComma fun q hq hcomma => h.noComma (exists_comma_lex.mp ⟨q, hq, hcomma⟩)

end Undivided

theorem byCommas_cons (u : Text) {us : List Text} (hne : us ≠ []) :
    byCommas (u :: us) = u ++ ',' :: byCommas us := by
  rw [byCommas, List.intercalate_cons_of_ne_nil hne, List.append_assoc]
  rfl

/-- A comma after a text that ends outside literals is read after it. -/
theorem lex_append_comma {u : Text} (h : openQuote u = none) (v : Text) :
    lex (u ++ ',' :: v) = lex u ++ ⟨lastBlanks u, .comma⟩ :: lex v :=
  lex_append_mark h (lex_comma v) rfl

/-- **Texts that no comma divides are the fields of their joining.** -/
theorem fields_byCommas {us : List Text} (hne : us ≠ []) (h : ∀ u ∈ us, Undivided u) :
    openQuote (byCommas us) = none ∧ fields (lex (byCommas us)) = us.map lex := by
  induction us with
  | nil => exact absurd rfl hne
  | cons u us ih =>
    obtain ⟨hu, hus⟩ := List.forall_mem_cons.mp h
    cases us with
    | nil =>
      rw [byCommas, List.intercalate_singleton]
      exact ⟨hu.closed, hu.fields_lex⟩
    | cons v us =>
      obtain ⟨hclosed, hfields⟩ := ih (List.cons_ne_nil v us) hus
      rw [byCommas_cons u (List.cons_ne_nil v us), lex_append_comma hu.closed, fields_comma _ rfl,
        hu.fields_lex, hfields, openQuote_append hu.closed]
      exact ⟨hclosed, rfl⟩

theorem paramsIn_of_undivided {us : List Text} (h : ∀ u ∈ us, Undivided u) :
    paramsIn (byCommas us) = .ok (paramTexts (us.map lex)) := by
  by_cases hne : us = []
  · subst hne
    rfl
  · obtain ⟨hclosed, hfields⟩ := fields_byCommas hne h
    exact paramsIn_eq_ok.mpr ⟨endsInLiteral_lex_eq_false.mpr hclosed, congrArg paramTexts hfields⟩

namespace Padded
variable {p u : Text} (hpad : Padded p u) (h : IsParam p)
include hpad h

theorem undivided : Undivided u := by
  obtain ⟨a, b, ha, hb, rfl⟩ := hpad
  have hnone {g : Text} (hg : Blank g) : ',' ∉ outside g := by
    rw [outside_plain fun c hc => isQuote_of_isBlank (hg c hc)]
    exact fun hc => nomatch hg ',' hc
  have hmid : openQuote (a ++ p) = none := (openQuote_append ha.closed p).trans h.closed
  constructor
  · exact (openQuote_append hmid b).trans hb.closed
  · rw [outside_append hmid, outside_append ha.closed]
    simp only [List.mem_append, not_or]
    exact ⟨⟨hnone ha, h.noComma⟩, hnone hb⟩

theorem phrase_eq : phrase (lex u) = p := by
  rw [phrase_lex (hpad.undivided h).closed]
  obtain ⟨a, b, ha, hb, rfl⟩ := hpad
  rw [Text.trim_append _ ha hb, h.trimmed]

end Padded

theorem Padded.refl (p : Text) : Padded p p :=
  ⟨[], [], blank_nil, blank_nil, by rw [List.nil_append, List.append_nil]⟩

/-- Arguments are divided into parameters. -/
theorem isParam_of_paramsIn {args : Text} {ps : List Text} (h : paramsIn args = .ok ps) {p : Text}
    (hp : p ∈ ps) : IsParam p := by
  obtain ⟨hclosed, rfl⟩ := paramsIn_eq_ok.mp h
  have hlegible := legible_lex args
  refine ⟨⟨endsInLiteral_lex_eq_false.mp (closed_of_mem_params hlegible hclosed hp), ?_⟩,
    trim_of_mem_params hlegible hclosed hp⟩
  rw [← exists_comma_lex]
  rintro ⟨q, hq, hcomma⟩
  exact (lexeme_of_mem_params hlegible hp q hq).1 hcomma

/-- Without the blanks at its ends an undivided text is a parameter. -/
theorem Undivided.isParam {u : Text} (h : Undivided u) : IsParam (phrase (lex u)) := by
  by_cases hnil : lex u = []
  · rw [hnil]
    exact isParam_nil
  · have hparams : params (lex u) = [phrase (lex u)] := by
      rw [params, h.fields_lex]
      exact if_neg hnil
    exact isParam_of_paramsIn
      (paramsIn_eq_ok.mpr ⟨endsInLiteral_lex_eq_false.mpr h.closed, hparams⟩)
      (List.mem_singleton_self _)

/-! ### Joining and dividing -/

/-- **Joined parameters are divided as they were**, whatever blanks stand around each of them;
but an empty one at the end is dropped. -/
theorem paramsIn_padded {ps us : List Text} (hpad : List.Forall₂ Padded ps us)
    (h : ∀ p ∈ ps, IsParam p) :
    paramsIn (byCommas us) = .ok (if ps.getLast? = some [] then ps.dropLast else ps) := by
  have hus : (∀ u ∈ us, Undivided u) ∧ ps = us.map fun u => phrase (lex u) := by
    induction hpad with
    | nil => exact ⟨fun _ hu => (nomatch hu), rfl⟩
    | cons hpad _ ih =>
      obtain ⟨hp, hps⟩ := List.forall_mem_cons.mp h
      obtain ⟨hundivided, heq⟩ := ih hps
      exact ⟨List.forall_mem_cons.mpr ⟨hpad.undivided hp, hundivided⟩,
        List.cons_eq_cons.mpr ⟨(hpad.phrase_eq hp).symm, heq⟩⟩
  obtain ⟨hundivided, rfl⟩ := hus
  rw [paramsIn_of_undivided hundivided]
  rcases List.eq_nil_or_concat us with rfl | ⟨init, last, rfl⟩
  · rfl
  · have hnil : phrase (lex last) = [] ↔ lex last = [] := phrase_eq_nil (legible_lex last)
    rw [List.concat_eq_append, List.map_append, List.map_append, List.map_singleton,
      List.map_singleton, paramTexts_concat, List.map_map, List.getLast?_concat,
      List.dropLast_concat]
    by_cases hlast : lex last = []
    · rw [if_pos hlast, List.append_nil, if_pos (congrArg some (hnil.mpr hlast))]
      rfl
    · rw [if_neg hlast, if_neg (mt Option.some_inj.mp (mt hnil.mp hlast))]
      rfl

theorem byCommas_concat_nil {ps : List Text} (hne : ps ≠ []) :
    byCommas (ps ++ [[]]) = byCommas ps ++ [','] := by
  induction ps with
  | nil => exact absurd rfl hne
  | cons p ps ih =>
    by_cases hps : ps = []
    · subst hps
      rw [List.singleton_append, byCommas_cons p (List.cons_ne_nil [] []), byCommas, byCommas,
        List.intercalate_singleton, List.intercalate_singleton]
    · rw [List.cons_append, byCommas_cons p (by simp), ih hps, byCommas_cons p hps,
        List.append_assoc, List.cons_append]

/-- A text whose literals are closed is undivided, or has a first comma. -/
theorem undivided_or_comma {args : Text} (h : openQuote args = none) :
    Undivided args ∨ ∃ u v, args = u ++ ',' :: v ∧ Undivided u ∧ openQuote v = none := by
  obtain ⟨first, others, hfields⟩ := exists_fields (lex args)
  obtain ⟨hplain, ⟨hargs, -⟩ | ⟨p, rest, hargs, hp, -⟩⟩ := fields_eq_cons hfields
  · refine .inl ⟨h, fun hcomma => ?_⟩
    obtain ⟨q, hq, hqcomma⟩ := exists_comma_lex.mpr hcomma
    exact hplain q (hargs ▸ hq) hqcomma
  · have hlegible := legible_lex args
    have hclosed := endsInLiteral_lex_eq_false.mpr h
    rw [hargs] at hlegible hclosed
    have hlex : lex (render first ++ p.gap) = first :=
      lex_render_blanks hlegible.left (endsInLiteral_append_eq_false.mp hclosed).1
        hlegible.right.head.1
    have hu : Undivided (render first ++ p.gap) := by
      constructor
      · rw [← endsInLiteral_lex_eq_false, hlex]
        exact (endsInLiteral_append_eq_false.mp hclosed).1
      · rw [← exists_comma_lex, hlex]
        rintro ⟨q, hq, hcomma⟩
        exact hplain q hq hcomma
    have htext : args = render first ++ p.gap ++ ',' :: (render rest ++ lastBlanks args) := by
      conv_lhs => rw [← (render_lex args).2, hargs]
      simp [render_append, hp, Lexeme.text]
    refine .inr ⟨_, _, htext, hu, ?_⟩
    rw [htext, openQuote_append hu.closed] at h
    exact h

/-- Arguments are joined parameters, with blanks around them. -/
theorem exists_padded {args : Text} (h : openQuote args = none) : ∃ fs us,
    List.Forall₂ Padded fs us ∧ (∀ p ∈ fs, IsParam p) ∧ us ≠ [] ∧ byCommas us = args := by
  induction hn : args.length using Nat.strong_induction_on generalizing args with
  | _ n ih =>
    rcases undivided_or_comma h with hone | ⟨u, v, rfl, hu, hv⟩
    · refine ⟨[phrase (lex args)], [args], .cons (padded_phrase args) .nil,
        List.forall_mem_singleton.mpr hone.isParam, List.cons_ne_nil args [], ?_⟩
      rw [byCommas, List.intercalate_singleton]
    · obtain ⟨fs, us, hpad, hfs, hne, hargs⟩ := ih v.length (by simp [← hn]; omega) hv rfl
      refine ⟨phrase (lex u) :: fs, u :: us, .cons (padded_phrase u) hpad,
        List.forall_mem_cons.mpr ⟨hu.isParam, hfs⟩, List.cons_ne_nil u us, ?_⟩
      rw [byCommas_cons u hne, hargs]

/-- **Dividing undoes joining, and joining undoes dividing**, as far as empty last parameters
go: one is dropped, and when two commas leave another one the joining needs a comma more. All
arguments are joined so from what is around their commas, and of this they keep everything but
an empty text after the last comma. -/
theorem paramsIn_byCommas :
    (∀ ps us, List.Forall₂ Padded ps us → (∀ p ∈ ps, IsParam p) → ps.getLast? ≠ some [] →
      paramsIn (byCommas us) = .ok ps) ∧
    (∀ args err, paramsIn args = .error err ↔
      openQuote args ≠ none ∧ err = .unterminatedLiteral args.trim) ∧
    (∀ args, openQuote args = none → ∃ ps, paramsIn args = .ok ps ∧
      (∀ p ∈ ps, IsParam p) ∧
      (ps.getLast? = some [] ↔ (lex args).map (·.lexeme) = [.comma] ∨
        [.comma, .comma] <:+ (lex args).map (·.lexeme)) ∧
      paramsIn (byCommas ps ++ if ps.getLast? = some [] then [','] else []) = .ok ps) ∧
    (∀ ps us, List.Forall₂ Padded ps us → (∀ p ∈ ps, IsParam p) →
      paramsIn (byCommas us) = .ok (if ps.getLast? = some [] then ps.dropLast else ps)) ∧
    ∀ args, openQuote args = none → ∃ ps us, List.Forall₂ Padded ps us ∧ (∀ p ∈ ps, IsParam p) ∧
      byCommas us = args ∧
      paramsIn args = .ok (if ps.getLast? = some [] then ps.dropLast else ps) := by
  refine ⟨fun ps us hpad h hlast => ?_, fun args err => ?_, fun args hclosed => ?_,
    fun ps us => paramsIn_padded, fun args hclosed => ?_⟩
  · rw [paramsIn_padded hpad h, if_neg hlast]
  · rw [paramsIn, endsInLiteral_lex, ← Option.isSome_iff_ne_none]
    split
    · rename_i hopen
      simp [hopen, eq_comm]
    · rename_i hclosed
      simp [hclosed]
  · have hok : paramsIn args = .ok (params (lex args)) :=
      paramsIn_eq_ok.mpr ⟨endsInLiteral_lex_eq_false.mpr hclosed, rfl⟩
    have hparams := fun p => isParam_of_paramsIn hok (p := p)
    refine ⟨params (lex args), hok, hparams, getLast?_params_eq_nil (legible_lex args), ?_⟩
    have hagain {ps : List Text} (hps : ∀ p ∈ ps, IsParam p) :
        paramsIn (byCommas ps) = .ok (if ps.getLast? = some [] then ps.dropLast else ps) :=
      paramsIn_padded (List.forall₂_same.mpr fun p _ => .refl p) hps
    by_cases hlast : (params (lex args)).getLast? = some []
    · -- The empty parameter after the comma more is the one that is dropped.
      have hne : params (lex args) ≠ [] := by
        intro hnil
        rw [hnil] at hlast
        cases hlast
      rw [if_pos hlast, ← byCommas_concat_nil hne, hagain (isParam_concat_nil hparams),
        List.getLast?_concat, if_pos rfl, List.dropLast_concat]
    · rw [if_neg hlast, List.append_nil, hagain hparams, if_neg hlast]
  · obtain ⟨ps, us, hpad, hps, -, rfl⟩ := exists_padded hclosed
    exact ⟨ps, us, hpad, hps, rfl, paramsIn_padded hpad hps⟩

theorem paramsIn_byCommas_mixed :
    let ps := ["'a, b'".toList, [], "\"x\"".toList]
    let us := [" 'a, b'\t".toList, "\u00a0".toList, "\"x\" \n".toList]
    paramsIn (byCommas us) = .ok ps ∧ paramsIn (byCommas (us ++ [['\t']])) = .ok ps ∧
      paramsIn "a'".toList = .error (.unterminatedLiteral "a'".toList) ∧
      ∃ qs, paramsIn " ',' ,, ".toList = .ok qs ∧ (∀ p ∈ qs, IsParam p) ∧
        qs.getLast? = some [] ∧ paramsIn (byCommas qs ++ [',']) = .ok qs := by
  intro ps us
  have hpad : List.Forall₂ Padded ps us := by
    refine .cons ⟨[' '], ['\t'], ?_, ?_, rfl⟩ (.cons ⟨['\u00a0'], [], ?_, blank_nil, rfl⟩
      (.cons ⟨[], [' ', '\n'], blank_nil, ?_, rfl⟩ .nil))
    all_goals exact List.all_eq_true.mp (by decide)
  have hps : ∀ p ∈ ps, IsParam p := by
    simp only [ps, List.forall_mem_cons]
    refine ⟨⟨⟨rfl, ?_⟩, rfl⟩, ⟨⟨rfl, ?_⟩, rfl⟩, ⟨⟨rfl, ?_⟩, rfl⟩, fun _ h => nomatch h⟩
    all_goals decide
  have hpad' : List.Forall₂ Padded (ps ++ [[]]) (us ++ [['\t']]) := by
    refine List.rel_append hpad (.cons ⟨['\t'], [], ?_, blank_nil, rfl⟩ .nil)
    exact List.all_eq_true.mp (by decide)
  have hdropped := paramsIn_byCommas.2.2.2.1 _ _ hpad' (isParam_concat_nil hps)
  have hopen := (paramsIn_byCommas.2.1 "a'".toList _).mpr ⟨by decide, rfl⟩
  obtain ⟨qs, hok, hqs, hlast, hagain⟩ := paramsIn_byCommas.2.2.1 " ',' ,, ".toList rfl
  have hempty : qs.getLast? = some [] := hlast.mpr (.inr (by decide))
  rw [if_pos hempty] at hagain
  exact ⟨paramsIn_byCommas.1 ps us hpad hps (by decide), hdropped, hopen, qs, hok, hqs, hempty,
    hagain⟩

/-- A comma alone leaves an empty parameter, which is lost when it is joined. -/
theorem comma_divided : paramsIn [','] = .ok [[]] ∧ paramsIn (byCommas [[]]) = .ok [] ∧
    ¬∀ args ps, paramsIn args = .ok ps → ps.getLast? ≠ some [] ∧ paramsIn (byCommas ps) = .ok ps :=
  ⟨rfl, rfl, fun hall => (hall [','] [[]] rfl).1 rfl⟩

end AccessRules
