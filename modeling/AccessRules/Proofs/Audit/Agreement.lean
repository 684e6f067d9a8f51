import AccessRules.Proofs.Audit.Names

/-! What an audit says of a rule that is read.

`audit_exact` says that the names found in a plain rule are the names its tree asks about,
none missing and none besides: no closing parenthesis cuts its arguments, and no quote
stands at the end of a literal. `literal_audited` says of one literal in any rule when its
content is found: a cut can part it at a comma, and quotes at its own ends are lost
(`literal_not_audited`). -/
namespace AccessRules

/-! ### Plain rules -/

/-- The name that is found in a call is its first parameter, unquoted. -/
theorem Occurrence.mentionedName_text (o : Occurrence)
    (hplain : ∀ p ∈ o.params.head?, PlainParam p) :
    mentionedName o.text = unquote (o.params.head?.getD []) := by
  have hlex : lex o.text = o.args := lex_render_blanks o.legible o.balanced.literals o.blank
  have hparams : paramsIn o.text = .ok (AccessRules.params o.args) := by
    simp only [paramsIn, hlex, o.balanced.literals, Bool.false_eq_true, if_false]
  simp only [mentionedName, hparams, o.head?_params hplain]
  cases hhead : o.params.head? with
  | none => rfl
  | some p => exact (hplain p hhead).unquote_eq

/-- The arguments of the calls in a text are those of its occurrences. -/
theorem exists_call_of_spelled {s : Text} {os : List Occurrence} (h : Spelled (lex s) os)
    {i : Nat} {o : Occurrence} (ho : os[i]? = some o) :
    ∃ c, (callsIn s)[i]? = some c ∧ c.args = some o.text := by
  have hcalls := congrArg (·[i]?) (h.calls 0)
  simp only [List.getElem?_map, ho, Option.map_some] at hcalls
  obtain ⟨c, hc, hco⟩ := Option.map_eq_some_iff.mp hcalls
  exact ⟨c, hc, (Prod.mk.inj hco).2⟩

/-- **An audit of a plain rule is exact**: the names it gives for some checks are the
unquoted first parameters of their calls in the tree. -/
theorem mem_namesIn_of_plain (words : WordChars) {s : Text} {e : Expr} (h : parse s = .ok e)
    (hargs : ∀ c ∈ callsIn s, ∀ args ∈ c.args, ')' ∉ args)
    (hparams : ∀ call ∈ e.calls, ∀ p ∈ call.2.head?, PlainParam p) (checks : List Check)
    (x : Text) : x ∈ namesIn words checks s ↔
      x ≠ [] ∧ ∃ call ∈ e.calls, call.1 ∈ checks ∧ ∃ p ∈ call.2.head?, unquote p = x := by
  obtain ⟨os, hos, hcalls⟩ := spelled_of_parse h
  have hclose : ∀ o ∈ os, ')' ∉ o.text := by
    intro o ho
    obtain ⟨i, hi⟩ := List.mem_iff_getElem?.mp ho
    obtain ⟨c, hc, hco⟩ := exists_call_of_spelled hos hi
    exact hargs c (List.mem_of_getElem? hc) o.text hco
  have hmentions : mentions words s = os.map fun o => (o.check, o.text) := by
    rw [mentions_of_spelled hos, List.map_eq_flatMap]
    exact List.flatMap_congr fun o ho => Occurrence.mentions_of_not_mem (hclose o ho)
  rw [← hcalls] at hparams ⊢
  simp only [List.forall_mem_map] at hparams
  rw [mem_namesIn, hmentions]
  refine and_congr_right fun hne => ?_
  simp only [List.mem_map, exists_exists_and_eq_and]
  refine exists_congr fun o => and_congr_right fun ho => and_congr_right fun _ => ?_
  rw [o.mentionedName_text (hparams o ho)]
  show _ ↔ ∃ p ∈ o.params.head?, unquote p = x
  cases o.params.head? with
  | none => exact iff_of_false (Ne.symm hne) (by simp)
  | some p => simp

/-- **The roles and permissions that are found in a plain rule are those its tree asks
about**, first parameters for all checks but the conditional one. -/
theorem audit_exact (words : WordChars) {s : Text} {e : Expr} (h : parse s = .ok e)
    (hargs : ∀ c ∈ callsIn s, ∀ args ∈ c.args, ')' ∉ args)
    (hparams : ∀ call ∈ e.calls, ∀ p ∈ call.2.head?, PlainParam p) (x : Text) :
    (x ∈ rolesIn words s ↔
      x ≠ [] ∧ ∃ call ∈ e.calls, call.1 = .role ∧ ∃ p ∈ call.2.head?, unquote p = x) ∧
    (x ∈ permissionsIn words s ↔ x ≠ [] ∧ ∃ call ∈ e.calls,
      (call.1 = .permission ∨ call.1 = .resource) ∧ ∃ p ∈ call.2.head?, unquote p = x) := by
  constructor
  · have hroles := mem_namesIn_of_plain words h hargs hparams [.role] x
    simp only [List.mem_singleton] at hroles
    exact hroles
  · have hpermissions := mem_namesIn_of_plain words h hargs hparams [.permission, .resource] x
    simp only [List.mem_cons, List.not_mem_nil, or_false] at hpermissions
    exact hpermissions

theorem audit_exact_mixed_layout :
    let s := "not hasRole( 'A') or (hasPermission(doc:read , x))".toList
    let e := Expr.or (.not (.call .role ["'A'".toList]))
      (.call .permission ["doc:read".toList, "x".toList])
    parse s = .ok e ∧ (∀ c ∈ callsIn s, ∀ args ∈ c.args, ')' ∉ args) ∧
      (∀ call ∈ e.calls, ∀ p ∈ call.2.head?, PlainParam p) ∧
      ("A".toList ∈ rolesIn .unicode16 s ↔ "A".toList ≠ [] ∧
        ∃ call ∈ e.calls, call.1 = .role ∧ ∃ p ∈ call.2.head?, unquote p = "A".toList) ∧
      ("A".toList ∈ permissionsIn .unicode16 s ↔ "A".toList ≠ [] ∧ ∃ call ∈ e.calls,
        (call.1 = .permission ∨ call.1 = .resource) ∧
          ∃ p ∈ call.2.head?, unquote p = "A".toList) := by
  intro s e
  have hparse : parse s = .ok e := by decide +kernel
  have hargs : ∀ c ∈ callsIn s, ∀ args ∈ c.args, ')' ∉ args := by decide +kernel
  have hquotes : Unquoted ['A'] := .of_ends rfl rfl rfl rfl
  have hrole : PlainParam "'A'".toList :=
    .inr ⟨'\'', ['A'], by decide, by decide, hquotes, by decide⟩
  have hpermission : PlainParam "doc:read".toList := .inl (List.all_eq_true.mp (by decide))
  have hparams : ∀ call ∈ e.calls, ∀ p ∈ call.2.head?, PlainParam p := by
    refine List.forall_mem_cons.mpr ⟨fun p hp => ?_, List.forall_mem_singleton.mpr fun p hp => ?_⟩
    · cases hp
      exact hrole
    · cases hp
      exact hpermission
  exact ⟨hparse, hargs, hparams, audit_exact .unicode16 hparse hargs hparams _⟩

/-! ### One literal -/

/-- What can follow the first parameter of a call: blanks, and then nothing or a comma. -/
def EndsField (v : Text) : Prop := ∃ b, Blank b ∧ (v = b ∨ ∃ w, v = b ++ ',' :: w)

theorem EndsField.takeWhile {v : Text} (h : EndsField v) : EndsField (v.takeWhile (· != ')')) := by
  obtain ⟨b, hb, hv⟩ := h
  have hclose : ∀ c ∈ b, (c != ')') = true := bne_of_not_mem (hb.not_mem (by decide))
  refine ⟨b, hb, ?_⟩
  rcases hv with rfl | ⟨w, rfl⟩
  · exact .inl (List.takeWhile_eq_self_iff.mpr hclose)
  · exact .inr ⟨w.takeWhile (· != ')'), List.takeWhile_append_of_pos hclose⟩

theorem Occurrence.exists_endsField (o : Occurrence) {p : Placed}
    {others : List (List Placed)} (hfields : fields o.args = [p] :: others) :
    ∃ v, EndsField v ∧ o.text = p.text ++ v := by
  rcases (fields_eq_cons hfields).2 with ⟨hargs, -⟩ | ⟨c, rest, hargs, hc, -⟩
  · exact ⟨o.lastGap, ⟨o.lastGap, o.blank, .inl rfl⟩, by simp [text, hargs, Placed.text]⟩
  · have h := o.legible
    rw [hargs] at h
    refine ⟨c.gap ++ ',' :: (render rest ++ o.lastGap), ⟨c.gap, h.tail.head.1, .inr ⟨_, rfl⟩⟩, ?_⟩
    simp [text, hargs, hc, Placed.text, Lexeme.text]

theorem not_mem_literal {gap : Text} (hgap : Blank gap) {q : Char} (hq : isQuote q = true)
    {x : Text} {c : Char} (hblank : isBlank c = false) (hquote : isQuote c = false)
    (hx : c ∉ x) : c ∉ gap ++ (Lexeme.literal q x).text := by
  have hcq : c ≠ q := by
    rintro rfl
    rw [hq] at hquote
    cases hquote
  simp [Lexeme.text, hgap.not_mem hblank, hcq, hx]

/-- A literal is the first field, if what follows it ends the field. -/
theorem fields_literal {gap v : Text} {q : Char} {x : Text} (hgap : Blank gap)
    (hq : isQuote q = true) (hqx : q ∉ x) (hv : EndsField v) :
    ∃ others, fields (lex (gap ++ (Lexeme.literal q x).text ++ v)) =
      [⟨gap, .literal q x⟩] :: others := by
  let p : Placed := ⟨gap, .literal q x⟩
  have hp : ∀ r ∈ [p], r.lexeme ≠ .comma := List.forall_mem_singleton.mpr nofun
  have hlex : lex (p.text ++ v) = p :: lex v :=
    lex_text_append (p := p) hgap ⟨hq, hqx⟩ (fun r _ => .of_mark rfl rfl r) rfl
  show ∃ others, fields (lex (p.text ++ v)) = [p] :: others
  rw [hlex]
  obtain ⟨b, hb, rfl | ⟨w, rfl⟩⟩ := hv
  · rw [lex_blanks hb]
    exact ⟨[], fields_of_noComma hp⟩
  · rw [lex_gap hb (lex_comma w)]
    refine ⟨fields (lex w), ?_⟩
    show fields ([p] ++ ⟨b ++ [], .comma⟩ :: lex w) = _
    rw [fields_comma [p] rfl, fields_of_noComma hp]
    rfl

/-- **A mention that begins with a literal is about its content**, if the mention does not
end in a literal, or the content has no comma. -/
theorem mentionedName_literal {gap v : Text} {q : Char} {x : Text} (hgap : Blank gap)
    (hq : isQuote q = true) (hqx : q ∉ x) (hx : Unquoted x) (hv : EndsField v)
    (hcut : ',' ∉ x ∨ endsInLiteral (lex (gap ++ (Lexeme.literal q x).text ++ v)) = false) :
    mentionedName (gap ++ (Lexeme.literal q x).text ++ v) = x := by
  cases hopen : endsInLiteral (lex (gap ++ (Lexeme.literal q x).text ++ v)) with
  -- The mention divides as arguments do.
  | false =>
    obtain ⟨others, hfields⟩ := fields_literal hgap hq hqx hv
    have hhead := head?_params hfields (.inl (List.cons_ne_nil _ _))
    simp only [mentionedName, paramsIn, hopen, Bool.false_eq_true, if_false, hhead]
    show stripQuotes (Text.trim ((Lexeme.literal q x).text ++ [])) = x
    rw [List.append_nil, trim_literal hq x, stripQuotes_literal hq hx]
  -- It was cut in a later literal, and ends at its first comma of any kind.
  | true =>
    have hcomma : ',' ∉ x := hcut.resolve_right (by rw [hopen]; decide)
    obtain ⟨b, hb, hv⟩ := hv
    have hfirst : (gap ++ (Lexeme.literal q x).text ++ v).takeWhile (· != ',') =
        gap ++ (Lexeme.literal q x).text ++ b := by
      have hplain : ',' ∉ gap ++ (Lexeme.literal q x).text ++ b := by
        rw [List.mem_append, not_or]
        exact ⟨not_mem_literal hgap hq (by decide) (by decide) hcomma, hb.not_mem (by decide)⟩
      rcases hv with rfl | ⟨w, rfl⟩
      · exact List.takeWhile_eq_self_iff.mpr (bne_of_not_mem hplain)
      · rw [← List.append_assoc]
        exact takeWhile_bne hplain w
    simp only [mentionedName, paramsIn, hopen, if_true, hfirst]
    rw [trim_around_literal hq x hgap hb, stripQuotes_literal hq hx]

/-- The text of a call up to its first closing parenthesis, where a literal comes first. -/
theorem Occurrence.mentionedName_cut (o : Occurrence) {q : Char} {x : Text}
    (hq : isQuote q = true) (hqx : q ∉ x) (hx : Unquoted x) (hclose : ')' ∉ x)
    (hparam : o.params.head? = some (Lexeme.literal q x).text)
    (hcut : ',' ∉ x ∨ endsInLiteral (lex (o.text.takeWhile (· != ')'))) = false) :
    mentionedName (o.text.takeWhile (· != ')')) = x := by
  obtain ⟨gap, others, hfields⟩ := o.first_field_lexeme (l := .literal q x) ⟨hq, hqx⟩ hparam
  obtain ⟨v, hv, htext⟩ := o.exists_endsField hfields
  have hgap : Blank gap :=
    o.legible.gaps _ ((prefix_of_fields hfields).subset (List.mem_singleton_self _))
  have hfirst : o.text.takeWhile (· != ')') =
      gap ++ (Lexeme.literal q x).text ++ v.takeWhile (· != ')') := by
    rw [htext]
    exact List.takeWhile_append_of_pos
      (bne_of_not_mem (not_mem_literal hgap hq (by decide) (by decide) hclose))
  rw [hfirst] at hcut ⊢
  exact mentionedName_literal hgap hq hqx hx hv.takeWhile hcut

/-- **What a literal is asked about for is found**, in the call that asks, if no quote is at
its ends: whatever the other parameters are, as long as the search does not take a closing
parenthesis in one of them for the end of the call, or there is no comma to cut at. -/
theorem literal_audited (words : WordChars) {s : Text} {e : Expr} (h : parse s = .ok e) {i : Nat}
    {check : Check} {q : Char} {x : Text} {params : List Text}
    (hcall : e.calls[i]? = some (check, (Lexeme.literal q x).text :: params))
    (hq : isQuote q = true) (hqx : q ∉ x) (hne : x ≠ []) (hx : Unquoted x) (hclose : ')' ∉ x) :
    unquote (Lexeme.literal q x).text = x ∧
      ∃ c args, (callsIn s)[i]? = some c ∧ c.args = some args ∧
        (',' ∉ x ∨ endsInLiteral (lex (args.takeWhile (· != ')'))) = false →
          (check = .role → x ∈ rolesIn words s) ∧
          (check = .permission ∨ check = .resource → x ∈ permissionsIn words s)) := by
  refine ⟨unquote_literal hq x, ?_⟩
  obtain ⟨os, hos, hcalls⟩ := spelled_of_parse h
  rw [← hcalls, List.getElem?_map] at hcall
  obtain ⟨o, ho, hocall⟩ := Option.map_eq_some_iff.mp hcall
  obtain ⟨c, hc, hargs⟩ := exists_call_of_spelled hos ho
  refine ⟨c, o.text, hc, hargs, fun hcut => ?_⟩
  have hmem : o ∈ os := List.mem_of_getElem? ho
  obtain ⟨hcheck, hparams⟩ := Prod.mk.inj hocall
  have hname : mentionedName (o.text.takeWhile (· != ')')) = x :=
    o.mentionedName_cut hq hqx hx hclose (by rw [hparams]; rfl) hcut
  have hmention : (check, o.text.takeWhile (· != ')')) ∈ mentions words s := by
    rw [mentions_of_spelled hos, ← hcheck]
    exact List.mem_flatMap.mpr ⟨o, hmem, List.mem_cons_self ..⟩
  have hfound (checks : List Check) (hchecks : check ∈ checks) : x ∈ namesIn words checks s :=
    mem_namesIn.mpr ⟨hne, _, hmention, hchecks, hname⟩
  constructor
  · intro hrole
    exact hfound _ (by simp [hrole])
  · intro hpermission
    exact hfound _ (by simpa using hpermission)

theorem literal_audited_after_cut :
    let s := "hasRole('A', ')') and hasResourcePermission( \"doc, v1\", 'read')".toList
    let x := "doc, v1".toList
    let e := Expr.and (.call .role ["'A'".toList, "')'".toList])
      (.call .resource [(Lexeme.literal '"' x).text, "'read'".toList])
    parse s = .ok e ∧
      e.calls[1]? = some (.resource, (Lexeme.literal '"' x).text :: ["'read'".toList]) ∧
      isQuote '"' = true ∧ '"' ∉ x ∧ x ≠ [] ∧ Unquoted x ∧ ')' ∉ x ∧
      unquote (Lexeme.literal '"' x).text = x ∧
      ∃ c args, (callsIn s)[1]? = some c ∧ c.args = some args ∧
        (',' ∉ x ∨ endsInLiteral (lex (args.takeWhile (· != ')'))) = false →
          (Check.resource = .role → x ∈ rolesIn .unicode16 s) ∧
          (Check.resource = .permission ∨ Check.resource = .resource →
            x ∈ permissionsIn .unicode16 s)) := by
  intro s x e
  have hparse : parse s = .ok e := by decide +kernel
  have hx : Unquoted x := .of_ends rfl rfl rfl rfl
  exact ⟨hparse, rfl, by decide, by decide, by decide, hx, by decide,
    literal_audited .unicode16 hparse rfl (by decide) (by decide) (by decide) hx (by decide)⟩

/-- A literal that is cut is parted at its first comma, and quotes at the ends of a content
are lost. -/
theorem literal_not_audited :
    (let s := "hasResourcePermission('a,b', ')')".toList
      let x := "a,b".toList
      parse s = .ok (.call .resource [(Lexeme.literal '\'' x).text, "')'".toList]) ∧
        unquote (Lexeme.literal '\'' x).text = x ∧ x ≠ [] ∧ ')' ∉ x ∧
          x ∉ permissionsIn .unicode16 s) ∧
    (let s := "hasRole(\"'A'\")".toList
      let x := "'A'".toList
      parse s = .ok (.call .role [(Lexeme.literal '"' x).text]) ∧
        unquote (Lexeme.literal '"' x).text = x ∧ x ≠ [] ∧ ')' ∉ x ∧ x ∉ rolesIn .unicode16 s) := by
  decide +kernel

end AccessRules
