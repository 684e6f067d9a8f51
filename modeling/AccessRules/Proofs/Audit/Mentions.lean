import AccessRules.Audit
import AccessRules.Proofs.Grammar.Spelling

/-! What an audit finds in a text.

A mention is the name of a check, blanks, and an opening parenthesis with the text up to
the next closing one (`mention?_eq_some`). A mention never goes beyond a closing
parenthesis, so a text can be searched in two parts, before and after one
(`mentionsFrom_close`). In a text that is read this finds every call, in order, and
besides only what is written in arguments after a parenthesis in a literal
(`mentions_of_spelled`). -/
namespace AccessRules

variable {words : WordChars}

/-! ### Characters -/

/-- Whether the character before what follows the text is a word character. -/
def wordAfter (words : WordChars) (afterWord : Bool) (s : Text) : Bool :=
  s.foldl (fun _ c => words.has c) afterWord

theorem wordAfter_blank {g : Text} (hg : Blank g) {afterWord : Bool}
    (h : g = [] → afterWord = false) : wordAfter words afterWord g = false := by
  induction g generalizing afterWord with
  | nil => exact h rfl
  | cons c g ih =>
    obtain ⟨hc, hrest⟩ := List.forall_mem_cons.mp hg
    exact ih hrest fun _ => words.blank c hc

/-! ### One mention -/

/-- A text begins with the name of a check exactly if the check is found there: no name is
the beginning of another. -/
theorem namedCheck?_eq_some {s rest : Text} {check : Check} :
    namedCheck? s = some (check, rest) ↔ s = check.name.toList ++ rest := by
  constructor
  · intro h
    obtain ⟨found, hfound, hrest⟩ := Option.map_eq_some_iff.mp h
    cases hrest
    have hp := List.find?_some hfound
    obtain ⟨t, rfl⟩ := List.isPrefixOf_iff_prefix.mp hp
    rw [← String.length_toList, List.drop_left]
  · rintro rfl
    cases check <;> rfl

/-- The mention up to the parenthesis that ends it, with these blanks after the name. -/
def Mention.text (m : Mention) (gap : Text) : Text := m.check.name.toList ++ gap ++ '(' :: m.args

theorem bne_of_not_mem {u : Text} {c : Char} (h : c ∉ u) : ∀ d ∈ u, (d != c) = true :=
  fun _ hd => bne_iff_ne.mpr (ne_of_mem_of_not_mem hd h)

theorem takeWhile_bne {u : Text} {c : Char} (h : c ∉ u) (t : Text) :
    (u ++ c :: t).takeWhile (· != c) = u := by
  rw [List.takeWhile_append_of_pos (bne_of_not_mem h)]
  simp

theorem dropWhile_bne {u : Text} {c : Char} (h : c ∉ u) (t : Text) :
    (u ++ c :: t).dropWhile (· != c) = c :: t := by
  rw [List.dropWhile_append_of_pos (bne_of_not_mem h)]
  simp

theorem not_mem_takeWhile (c : Char) (s : Text) : c ∉ s.takeWhile (· != c) := by
  intro h
  have := List.mem_takeWhile_imp h
  simp at this

/-- **A mention is a name, blanks, and a parenthesis with the text up to the next one.** -/
theorem mention?_eq_some {s : Text} {m : Mention} :
    mention? s = some m ↔
      ∃ gap, Blank gap ∧ ')' ∉ m.args ∧ s = m.text gap ++ ')' :: m.after := by
  constructor
  · intro h
    unfold mention? at h
    split at h
    · cases h
    · rename_i check rest hname
      split at h
      · rename_i args hopening
        split at h
        · cases h
        · rename_i c after hclosing
          cases h
          obtain rfl : c = ')' := by
            have := List.head?_dropWhile_not (· != ')') args
            rw [hclosing] at this
            simpa using this
          refine ⟨rest.takeWhile isBlank, fun c hc => List.mem_takeWhile_imp hc,
            not_mem_takeWhile ')' args, ?_⟩
          rw [namedCheck?_eq_some.mp hname]
          show _ = check.name.toList ++ rest.takeWhile isBlank ++
            '(' :: args.takeWhile (· != ')') ++ ')' :: after
          rw [List.append_assoc, List.cons_append, ← hclosing, List.takeWhile_append_dropWhile,
            ← hopening, List.append_assoc, List.takeWhile_append_dropWhile]
      · cases h
  · intro ⟨gap, hgap, hargs, hs⟩
    have hname : namedCheck? s =
        some (m.check, gap ++ '(' :: (m.args ++ ')' :: m.after)) :=
      namedCheck?_eq_some.mpr (by simp [hs, Mention.text])
    have hopening : (gap ++ '(' :: (m.args ++ ')' :: m.after)).dropWhile isBlank =
        '(' :: (m.args ++ ')' :: m.after) := by
      rw [List.dropWhile_append_of_pos hgap]
      rfl
    simp only [mention?, hname, hopening, dropWhile_bne hargs, takeWhile_bne hargs]

/-! ### Searching -/

theorem mentionsFrom_nil (afterWord : Bool) : mentionsFrom words afterWord [] = [] := by
  unfold mentionsFrom
  rfl

/-- Where no mention begins, the search goes on with the next character. -/
theorem mentionsFrom_skip {afterWord : Bool} {c : Char} {s : Text}
    (h : afterWord = true ∨ mention? (c :: s) = none) :
    mentionsFrom words afterWord (c :: s) = mentionsFrom words (words.has c) s := by
  rw [mentionsFrom]
  split
  · rfl
  · rename_i hword
    split
    · rfl
    · rename_i m hm
      rcases h with h | h
      · exact absurd h hword
      · rw [h] at hm
        cases hm

/-- Where a mention begins, the search goes on after it. -/
theorem mentionsFrom_mention {s : Text} {m : Mention} (h : mention? s = some m) :
    mentionsFrom words false s = (m.check, m.args) :: mentionsFrom words false m.after := by
  cases s with
  | nil => cases h
  | cons c s =>
    rw [mentionsFrom, if_neg Bool.false_ne_true]
    split
    · rename_i hnone
      rw [h] at hnone
      cases hnone
    · rename_i m' hm
      rw [h] at hm
      cases hm
      rfl

/-- Every name begins with the same letter. -/
theorem mention?_eq_none {c : Char} (h : c ≠ 'h') (s : Text) : mention? (c :: s) = none := by
  rw [Option.eq_none_iff_forall_ne_some]
  intro m hm
  obtain ⟨gap, _, _, hs⟩ := mention?_eq_some.mp hm
  have hname : m.check.name.toList.head? = some 'h' := by
    cases m.check <;> rfl
  obtain ⟨t, ht⟩ := List.head?_eq_some_iff.mp hname
  rw [Mention.text, ht] at hs
  exact h (List.cons.inj hs).1

/-- No mention begins in a text without that letter. -/
theorem mentionsFrom_append {u : Text} (hu : 'h' ∉ u) (afterWord : Bool) (t : Text) :
    mentionsFrom words afterWord (u ++ t) = mentionsFrom words (wordAfter words afterWord u) t := by
  induction u generalizing afterWord with
  | nil => rfl
  | cons c u ih =>
    obtain ⟨hc, hrest⟩ := not_or.mp fun hm => hu (List.mem_cons.mpr hm)
    have hnone := mention?_eq_none (Ne.symm hc) (u ++ t)
    rw [List.cons_append, mentionsFrom_skip (.inr hnone), ih hrest]
    rfl

/-- No mention begins with a closing parenthesis, and none is kept from beginning after it. -/
theorem mentionsFrom_closing (afterWord : Bool) (t : Text) :
    mentionsFrom words afterWord (')' :: t) = mentionsFrom words false t := by
  have hword : words.has ')' = false := words.ascii ')' (by decide)
  rw [mentionsFrom_skip (.inr (mention?_eq_none (by decide) t)), hword]

/-- A mention is in what comes before a closing parenthesis, that included, or it is in
what comes after. -/
theorem Mention.after_eq {m : Mention} {gap u t : Text} (hgap : Blank gap) (hargs : ')' ∉ m.args)
    (h : u ++ ')' :: t = m.text gap ++ ')' :: m.after) :
    (m.after = t ∧ u = m.text gap) ∨
      ∃ v, m.after = v ++ ')' :: t ∧ u = m.text gap ++ ')' :: v := by
  have htext : ')' ∉ m.text gap := by
    have hname : ')' ∉ m.check.name.toList := by
      cases m.check <;> decide
    have hblank : ')' ∉ gap := fun hm => absurd (hgap _ hm) (by decide)
    simp [Mention.text, hname, hblank, hargs]
  rcases List.append_eq_append_iff.mp h with ⟨w, hw, hrest⟩ | ⟨w, rfl, hrest⟩
  · cases w with
    | nil =>
      rw [List.append_nil] at hw
      exact .inl ⟨(List.cons.inj hrest).2.symm, hw.symm⟩
    | cons c w =>
      obtain ⟨rfl, -⟩ := List.cons.inj hrest
      exact absurd (by rw [hw]; simp) htext
  · cases w with
    | nil => exact .inl ⟨(List.cons.inj hrest).2, List.append_nil _⟩
    | cons c w =>
      obtain ⟨rfl, hafter⟩ := List.cons.inj hrest
      exact .inr ⟨w, hafter, rfl⟩

/-- A mention does not depend on what comes after a closing parenthesis. -/
theorem mention?_close (u t : Text) : mention? (u ++ ')' :: t) =
    (mention? (u ++ [')'])).map fun m => ⟨m.check, m.args, m.after ++ t⟩ := by
  cases hm : mention? (u ++ [')']) with
  | some m =>
    obtain ⟨gap, hgap, hargs, hs⟩ := mention?_eq_some.mp hm
    refine mention?_eq_some.mpr ⟨gap, hgap, hargs, ?_⟩
    rw [List.append_cons, hs]
    simp [Mention.text]
  | none =>
    rw [Option.map_none, Option.eq_none_iff_forall_ne_some]
    intro m hfound
    obtain ⟨gap, hgap, hargs, hs⟩ := mention?_eq_some.mp hfound
    have hshorter : ∃ after, mention? (u ++ [')']) = some ⟨m.check, m.args, after⟩ := by
      rcases m.after_eq hgap hargs hs with ⟨-, hu⟩ | ⟨v, -, hu⟩
      · exact ⟨[], mention?_eq_some.mpr ⟨gap, hgap, hargs, by rw [hu]; rfl⟩⟩
      · refine ⟨v ++ [')'], mention?_eq_some.mpr ⟨gap, hgap, hargs, ?_⟩⟩
        rw [hu, List.append_assoc]
        rfl
    obtain ⟨after, hafter⟩ := hshorter
    rw [hm] at hafter
    cases hafter

/-- **A closing parenthesis parts the search**: what is found up to it and what is found
after it do not depend on each other. -/
theorem mentionsFrom_close (afterWord : Bool) (u t : Text) :
    mentionsFrom words afterWord (u ++ ')' :: t) =
      mentionsFrom words afterWord (u ++ [')']) ++ mentionsFrom words false t := by
  -- A mention may take in any part of `u`, so the induction is on its length.
  induction hn : u.length using Nat.strong_induction_on generalizing afterWord u with
  | _ n ih =>
    cases u with
    | nil =>
      show mentionsFrom words afterWord (')' :: t) = mentionsFrom words afterWord [')'] ++ _
      rw [mentionsFrom_closing, mentionsFrom_closing, mentionsFrom_nil, List.nil_append]
    | cons c u =>
      have hlater := ih u.length (by simp [← hn]) (words.has c) u rfl
      have hmention := mention?_close (c :: u) t
      rw [List.cons_append, List.cons_append] at hmention
      show mentionsFrom words afterWord (c :: (u ++ ')' :: t)) =
        mentionsFrom words afterWord (c :: (u ++ [')'])) ++ mentionsFrom words false t
      by_cases hword : afterWord = true
      · rw [mentionsFrom_skip (.inl hword), mentionsFrom_skip (.inl hword), hlater]
      · rw [Bool.eq_false_iff.mpr hword]
        cases hm : mention? (c :: (u ++ [')'])) with
        | none =>
          rw [hm] at hmention
          rw [mentionsFrom_skip (.inr hmention), mentionsFrom_skip (.inr hm), hlater]
        | some m =>
          rw [hm] at hmention
          rw [mentionsFrom_mention hmention, mentionsFrom_mention hm]
          obtain ⟨gap, hgap, hargs, hs⟩ := mention?_eq_some.mp hm
          rcases m.after_eq (u := c :: u) hgap hargs hs with ⟨hafter, -⟩ | ⟨v, hafter, hu⟩
          · simp [hafter, mentionsFrom_nil]
          · have hlt : v.length < n := by
              rw [← hn, hu]
              simp
              omega
            have hv := ih v.length hlt false v rfl
            simp [hafter, hv]

/-! ### The mentions of a rule -/

namespace Occurrence

/-- What is found in a call: its name with the text up to the first closing parenthesis,
and what is found in its arguments after that, if they go on. -/
def mentions (words : WordChars) (o : Occurrence) : List (Check × Text) :=
  (o.check, o.text.takeWhile (· != ')')) ::
    mentionsFrom words false ((o.text.dropWhile (· != ')')).tail ++ [')'])

theorem mentions_of_not_mem {o : Occurrence} (h : ')' ∉ o.text) :
    o.mentions words = [(o.check, o.text)] := by
  have hall := bne_of_not_mem h
  have hclose : mentionsFrom words false [')'] = [] := by
    rw [mentionsFrom_closing, mentionsFrom_nil]
  rw [mentions, List.takeWhile_eq_self_iff.mpr hall, List.dropWhile_eq_nil_iff.mpr hall]
  exact congrArg _ hclose

/-- A call is found where its name is, and the search goes on after it. -/
theorem mentionsFrom_call (o : Occurrence) {between : Text} (hb : Blank between) (t : Text) :
    mentionsFrom words false (o.check.name.toList ++ between ++ '(' :: (o.text ++ ')' :: t)) =
      o.mentions words ++ mentionsFrom words false t := by
  have hsplit := List.takeWhile_append_dropWhile (p := (· != ')')) (l := o.text)
  have hfound (after : Text)
      (h : o.text ++ ')' :: t = o.text.takeWhile (· != ')') ++ ')' :: after) :
      mention? (o.check.name.toList ++ between ++ '(' :: (o.text ++ ')' :: t)) =
        some ⟨o.check, o.text.takeWhile (· != ')'), after⟩ :=
    mention?_eq_some.mpr ⟨between, hb, not_mem_takeWhile _ _, by rw [h]; simp [Mention.text]⟩
  cases hrest : o.text.dropWhile (· != ')') with
  | nil =>
    rw [hrest, List.append_nil] at hsplit
    have hnot : ')' ∉ o.text := hsplit ▸ not_mem_takeWhile _ _
    rw [mentionsFrom_mention (hfound t (by rw [hsplit])), mentions_of_not_mem hnot, hsplit]
    rfl
  | cons c rest =>
    obtain rfl : c = ')' := by
      have := List.head?_dropWhile_not (· != ')') o.text
      rw [hrest] at this
      simpa using this
    rw [hrest] at hsplit
    have hafter : o.text ++ ')' :: t =
        o.text.takeWhile (· != ')') ++ ')' :: (rest ++ ')' :: t) := by
      rw [← List.cons_append, ← List.append_assoc, hsplit]
    rw [mentionsFrom_mention (hfound _ hafter), mentions, hrest]
    show _ :: mentionsFrom words false (rest ++ ')' :: t) = _
    rw [mentionsFrom_close]
    rfl

end Occurrence

theorem Blank.not_mem {g : Text} (h : Blank g) {c : Char} (hc : isBlank c = false) : c ∉ g :=
  fun hm => absurd (h c hm) (by rw [hc]; decide)

/-- No mention begins in a keyword or a parenthesis. -/
theorem Lexeme.Mark.not_mem {l : Lexeme} (h : l.Mark) : 'h' ∉ l.text := by
  rcases h with rfl | rfl | h
  · decide
  · decide
  · cases l with
    | word letters =>
      intro hm
      obtain ⟨op, hop⟩ := Option.ne_none_iff_exists'.mp h
      have hupper := toUpper_mem_keyword hop hm
      cases op <;> exact absurd hupper (by decide)
    | _ => exact absurd rfl h

/-- After a parenthesis no word goes on. -/
theorem Lexeme.Mark.wordAfter {l : Lexeme} (h : l.Mark) (hword : l.isWord = false) (gap : Text)
    (afterWord : Bool) : wordAfter words afterWord (gap ++ l.text) = false := by
  unfold AccessRules.wordAfter
  rw [List.foldl_append]
  rcases h with rfl | rfl | h
  · exact words.ascii '(' (by decide)
  · exact words.ascii ')' (by decide)
  · cases l with
    | word letters => cases hword
    | _ => exact absurd rfl h

namespace Spelled

/-- The search finds the calls one by one, with nothing between them. -/
theorem mentionsFrom_render {ls : List Placed} {os : List Occurrence} (h : Spelled ls os)
    (hls : Legible ls) {afterWord : Bool}
    (hword : ∀ p ∈ ls.head?, p.lexeme.isWord = true → p.gap = [] → afterWord = false)
    {g : Text} (hg : Blank g) :
    mentionsFrom words afterWord (render ls ++ g) = os.flatMap (Occurrence.mentions words) := by
  -- `hword` carries the induction: no word goes on into the name of a call, since two words
  -- are apart and a parenthesis ends every word.
  induction h generalizing afterWord with
  | nil =>
    show mentionsFrom words afterWord g = []
    rw [← List.append_nil g, mentionsFrom_append (hg.not_mem (by decide)), mentionsFrom_nil]
  | @mark p ls os hp _ ih =>
    obtain ⟨hgap, -, hapart⟩ := hls.head
    have hquiet : 'h' ∉ p.gap ++ p.lexeme.text := by
      rw [List.mem_append, not_or]
      exact ⟨hgap.not_mem (by decide), hp.not_mem⟩
    rw [render_cons, List.append_assoc, mentionsFrom_append hquiet]
    refine ih hls.tail fun q hq hqword hqgap => ?_
    by_cases hpword : p.lexeme.isWord = true
    · exact absurd hqgap ((hapart q hq).words hpword hqword)
    · exact hp.wordAfter (Bool.eq_false_iff.mpr hpword) p.gap afterWord
  | @call o gap between ls os _ ih =>
    rw [o.placed_append] at hls hword ⊢
    have hgap : Blank gap := hls.head.1
    have hbetween : Blank between := hls.tail.head.1
    have hrest : Legible (⟨o.lastGap, .closing⟩ :: ls) := hls.tail.tail.right
    have hstart : wordAfter words afterWord gap = false := wordAfter_blank hgap (hword _ rfl rfl)
    have hrender : render (⟨gap, o.check.lexeme⟩ :: ⟨between, .opening⟩ ::
        (o.args ++ ⟨o.lastGap, .closing⟩ :: ls)) ++ g =
        gap ++ (o.check.name.toList ++ between ++ '(' :: (o.text ++ ')' :: (render ls ++ g))) := by
      simp [render_append, Occurrence.text, Check.lexeme, Lexeme.text]
    rw [hrender, mentionsFrom_append (hgap.not_mem (by decide)), hstart,
      o.mentionsFrom_call hbetween, ih hrest.tail fun _ _ _ _ => rfl]
    rfl

end Spelled

/-- **In a text that is read the search finds the calls**, in order. -/
theorem mentions_of_spelled {s : Text} {os : List Occurrence} (h : Spelled (lex s) os) :
    mentions words s = os.flatMap (Occurrence.mentions words) := by
  obtain ⟨hblank, hs⟩ := render_lex s
  rw [mentions, ← hs]
  exact h.mentionsFrom_render (legible_lex s) (fun _ _ _ _ => rfl) hblank

end AccessRules
