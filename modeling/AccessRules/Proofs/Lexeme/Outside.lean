import AccessRules.Proofs.Lexeme.Ends
import AccessRules.Proofs.Lexeme.Nesting

/-! What stands outside literals, character by character.

A character stands outside literals when no quote before it is still open and it is no quote
itself. `openQuote` and `outside` say so with no lexemes, and in these terms parentheses
are counted: `ClosesMatch` says that no group closes before it opens, `Encloses` that a text
can stand between an opening parenthesis and the one that closes it. The lexemes of a text
agree: it ends inside a literal when a quote is open at its end (`endsInLiteral_lex`),
the groups open at its end are what its parentheses leave open (`nestAll?_lex`), and a group
that lexemes close is what the text encloses (`closeGroup?_lex`). -/
namespace AccessRules

/-! ### Quotes -/

/-- The quote that is open after a character, when `quote` is open before it. -/
def quoteAfter : Option Char → Char → Option Char
  | none, c => if isQuote c then some c else none
  | some q, c => if c = q then none else some q

/-- The quote that is open at the end of a text, when `quote` is open at its beginning. -/
def openQuoteFrom (quote : Option Char) (s : Text) : Option Char := s.foldl quoteAfter quote

/-- The quote of the literal that a text ends inside of. -/
def openQuote (s : Text) : Option Char := openQuoteFrom none s

/-- The characters outside literals, when `quote` is open at the beginning. -/
def outsideFrom (quote : Option Char) : Text → Text
  | [] => []
  | c :: s =>
    if quote = none ∧ isQuote c = false then c :: outsideFrom none s
    else outsideFrom (quoteAfter quote c) s

/-- The characters of a text outside literals. -/
def outside (s : Text) : Text := outsideFrom none s

theorem openQuoteFrom_append (quote : Option Char) (a b : Text) :
    openQuoteFrom quote (a ++ b) = openQuoteFrom (openQuoteFrom quote a) b := List.foldl_append

theorem openQuote_append {a : Text} (ha : openQuote a = none) (b : Text) :
    openQuote (a ++ b) = openQuote b := by
  rw [openQuote, openQuoteFrom_append, ← openQuote, ha]
  rfl

theorem quoteAfter_plain {c : Char} (h : isQuote c = false) : quoteAfter none c = none := by
  simp [quoteAfter, h]

/-- Without quotes nothing opens a literal. -/
theorem openQuoteFrom_plain {s : Text} (h : ∀ c ∈ s, isQuote c = false) :
    openQuoteFrom none s = none := by
  induction s with
  | nil => rfl
  | cons c s ih =>
    show openQuoteFrom (quoteAfter none c) s = none
    rw [quoteAfter_plain (h c (List.mem_cons_self ..))]
    exact ih fun d hd => h d (List.mem_cons_of_mem c hd)

theorem Blank.closed {g : Text} (h : Blank g) : openQuote g = none :=
  openQuoteFrom_plain fun c hc => isQuote_of_isBlank (h c hc)

theorem outsideFrom_quote (quote : Option Char) {c : Char}
    (h : ¬(quote = none ∧ isQuote c = false)) (s : Text) :
    outsideFrom quote (c :: s) = outsideFrom (quoteAfter quote c) s := if_neg h

theorem outside_cons {c : Char} (h : isQuote c = false) (s : Text) :
    outside (c :: s) = c :: outside s := if_pos ⟨rfl, h⟩

theorem outsideFrom_append (quote : Option Char) (a b : Text) :
    outsideFrom quote (a ++ b) = outsideFrom quote a ++ outsideFrom (openQuoteFrom quote a) b := by
  induction a generalizing quote with
  | nil => rfl
  | cons c a ih =>
    by_cases h : quote = none ∧ isQuote c = false
    · obtain ⟨rfl, hc⟩ := h
      have hafter : openQuoteFrom none (c :: a) = openQuoteFrom none a :=
        congrArg (openQuoteFrom · a) (quoteAfter_plain hc)
      rw [hafter, List.cons_append, outsideFrom, if_pos ⟨rfl, hc⟩, outsideFrom, if_pos ⟨rfl, hc⟩,
        ih, List.cons_append]
    · rw [List.cons_append, outsideFrom_quote quote h, outsideFrom_quote quote h, ih]
      rfl

theorem outside_append {a : Text} (ha : openQuote a = none) (b : Text) :
    outside (a ++ b) = outside a ++ outside b := by
  rw [outside, outsideFrom_append, ← openQuote, ha]
  rfl

/-- Without quotes a text is outside literals. -/
theorem outside_plain {s : Text} (h : ∀ c ∈ s, isQuote c = false) : outside s = s := by
  induction s with
  | nil => rfl
  | cons c s ih =>
    obtain ⟨hc, hs⟩ := List.forall_mem_cons.mp h
    rw [outside_cons hc, ih hs]

/-- A literal stays open up to its own quote, and nothing in it is outside. -/
theorem outsideFrom_content {q : Char} {content : Text} (h : q ∉ content) :
    openQuoteFrom (some q) content = some q ∧ outsideFrom (some q) content = [] := by
  induction content with
  | nil => exact ⟨rfl, rfl⟩
  | cons c content ih =>
    obtain ⟨hc, hcontent⟩ := not_or.mp fun hm => h (List.mem_cons.mpr hm)
    have hquote : quoteAfter (some q) c = some q := if_neg (Ne.symm hc)
    obtain ⟨hopen, houtside⟩ := ih hcontent
    constructor
    · show openQuoteFrom (quoteAfter (some q) c) content = some q
      rw [hquote, hopen]
    · rw [outsideFrom_quote _ fun hn => Option.some_ne_none q hn.1, hquote, houtside]

theorem outside_quote {q : Char} (hq : isQuote q = true) {content : Text} (h : q ∉ content) :
    openQuote (q :: content) = some q ∧ outside (q :: content) = [] := by
  have hafter : quoteAfter none q = some q := if_pos hq
  obtain ⟨hopen, houtside⟩ := outsideFrom_content h
  constructor
  · show openQuoteFrom (quoteAfter none q) content = some q
    rw [hafter, hopen]
  · rw [outside, outsideFrom_quote _ (by simp [hq]), hafter, houtside]

/-- What stands outside literals in a beginning of the text is a beginning of what does in
the text, and there are no others. -/
theorem prefix_outsideFrom {quote : Option Char} {s cs : Text} :
    cs <+: outsideFrom quote s ↔ ∃ p, p <+: s ∧ outsideFrom quote p = cs := by
  constructor
  · intro h
    induction s generalizing quote cs with
    | nil =>
      obtain rfl := List.prefix_nil.mp h
      exact ⟨[], List.nil_prefix, rfl⟩
    | cons c s ih =>
      by_cases hc : quote = none ∧ isQuote c = false
      · rw [outsideFrom, if_pos hc] at h
        cases cs with
        | nil => exact ⟨[], List.nil_prefix, rfl⟩
        | cons d cs =>
          obtain ⟨rfl, hcs⟩ := List.cons_prefix_cons.mp h
          obtain ⟨p, hp, rfl⟩ := ih hcs
          exact ⟨d :: p, List.cons_prefix_cons.mpr ⟨rfl, hp⟩, if_pos hc⟩
      · rw [outsideFrom_quote quote hc] at h
        obtain ⟨p, hp, rfl⟩ := ih h
        exact ⟨c :: p, List.cons_prefix_cons.mpr ⟨rfl, hp⟩, outsideFrom_quote quote hc p⟩
  · rintro ⟨p, ⟨rest, rfl⟩, rfl⟩
    rw [outsideFrom_append]
    exact List.prefix_append _ _

/-! ### Parentheses -/

/-- Outside literals, nothing closes before it opens: up to any place in the text, no more
groups close than open. -/
def ClosesMatch (s : Text) : Prop :=
  ∀ p, p <+: s → (outside p).count ')' ≤ (outside p).count '('

/-- The text can stand between an opening parenthesis and the one that closes it: its literals
are closed, and outside of them each opening parenthesis has its close. -/
structure Encloses (s : Text) : Prop where
  closed : openQuote s = none
  closesMatch : ClosesMatch s
  even : (outside s).count '(' = (outside s).count ')'

/-- The number of open groups after a character outside literals, when `depth` are open before
it; none if it closes a group that is not open. -/
def nestChar? (c : Char) (depth : Nat) : Option Nat :=
  if c = '(' then some (depth + 1)
  else if c = ')' then if depth = 0 then none else some (depth - 1)
  else some depth

/-- The number of open groups after characters outside literals. -/
def nestChars? : Nat → Text → Option Nat
  | depth, [] => some depth
  | depth, c :: s => (nestChar? c depth).bind (nestChars? · s)

theorem nestChar?_plain {c : Char} (ho : c ≠ '(') (hc : c ≠ ')') (depth : Nat) :
    nestChar? c depth = some depth := by
  rw [nestChar?, if_neg ho, if_neg hc]

/-- Open groups are counted: what opens, less what closes, and nothing closes that is not
open. -/
theorem nestChars?_eq_some {depth after : Nat} {cs : Text} : nestChars? depth cs = some after ↔
    depth + cs.count '(' = after + cs.count ')' ∧
      ∀ p, p <+: cs → p.count ')' ≤ depth + p.count '(' := by
  induction cs generalizing depth with
  | nil =>
    simp only [nestChars?, Option.some.injEq, List.count_nil, Nat.add_zero, List.prefix_nil]
    refine ⟨fun h => ⟨h, fun p hp => ?_⟩, And.left⟩
    rw [hp]
    exact Nat.zero_le _
  | cons c cs ih =>
    have hbegin (P : Text → Prop) :
        (∀ p, p <+: c :: cs → P p) ↔ P [] ∧ ∀ p, p <+: cs → P (c :: p) := by
      refine ⟨fun h => ⟨h [] List.nil_prefix, fun p hp =>
        h _ (List.cons_prefix_cons.mpr ⟨rfl, hp⟩)⟩, fun h p hp => ?_⟩
      cases p with
      | nil => exact h.1
      | cons d p =>
        obtain ⟨rfl, hrest⟩ := List.cons_prefix_cons.mp hp
        exact h.2 p hrest
    rw [hbegin, nestChars?]
    by_cases ho : c = '('
    · subst ho
      simp only [nestChar?, if_true, Option.bind_some, ih, List.count_nil, Nat.zero_le, true_and]
      simp [Nat.add_comm, Nat.add_left_comm]
    · by_cases hc : c = ')'
      · subst hc
        cases depth with
        | zero =>
          have hstop : ¬∀ p, p <+: cs → (')' :: p).count ')' ≤ 0 + (')' :: p).count '(' := by
            intro h
            have hfirst := h [] List.nil_prefix
            simp at hfirst
          exact iff_of_false nofun fun h => hstop h.2.2
        | succ depth =>
          simp only [nestChar?, ho, if_true, if_false, Nat.add_one_ne_zero, Nat.add_sub_cancel,
            Option.bind_some, ih, List.count_nil, Nat.zero_le, true_and]
          simp only [List.count_cons_self, List.count_cons_of_ne ho]
          refine and_congr (by omega) (forall₂_congr fun p _ => by omega)
      · rw [nestChar?_plain ho hc, Option.bind_some, ih]
        simp [List.count_cons_of_ne ho, List.count_cons_of_ne hc]

/-! ### Lexemes and characters -/

/-- The quote of the literal that a reading is inside of. -/
def Quoting.quote? : Quoting → Option Char
  | outside => none
  | inside quote _ => some quote

theorem endsInLiteral_lexFrom (quoting : Quoting) (s : Text) :
    endsInLiteral (lexFrom quoting s) = (openQuoteFrom quoting.quote? s).isSome := by
  induction s generalizing quoting with
  | nil => cases quoting <;> rfl
  | cons c s ih =>
    have hout : endsInLiteral (lex s) = (openQuoteFrom none s).isSome := ih .outside
    have hplain (hc : isQuote c = false) : openQuoteFrom none (c :: s) = openQuoteFrom none s :=
      congrArg (openQuoteFrom · s) (quoteAfter_plain hc)
    cases quoting with
    | inside quote reversed =>
      show _ = (openQuoteFrom (if c = quote then none else some quote) s).isSome
      rw [lexFrom]
      split
      · exact hout
      · exact ih (.inside quote _)
    | outside =>
      show endsInLiteral (lex (c :: s)) = (openQuoteFrom none (c :: s)).isSome
      rcases char_cases c with hc | rfl | rfl | rfl | hc | hc
      · rw [lex_blank hc, endsInLiteral_addBlank, hout, hplain (isQuote_of_isBlank hc)]
      · exact hout
      · exact hout
      · exact hout
      · rw [lex_quote hc, ih]
        show _ = (openQuoteFrom (quoteAfter none c) s).isSome
        rw [quoteAfter, if_pos hc]
        rfl
      · rw [lex_bare hc, endsInLiteral_addLetter, hout, hplain (isQuote_of_isBare hc)]

/-- **A text ends inside a literal when a quote is open at its end.** -/
theorem endsInLiteral_lex (s : Text) : endsInLiteral (lex s) = (openQuote s).isSome :=
  endsInLiteral_lexFrom .outside s

theorem endsInLiteral_lex_eq_false {s : Text} :
    endsInLiteral (lex s) = false ↔ openQuote s = none := by
  rw [endsInLiteral_lex, Option.isSome_eq_false_iff, Option.isNone_iff_eq_none]

theorem Lexeme.openQuote_text {l : Lexeme} (hl : l.Legible) (hopen : l.isOpenLiteral = false) :
    openQuote l.text = none := by
  rw [← endsInLiteral_lex_eq_false, lex_lexeme hl, endsInLiteral_cons, hopen]
  rfl

theorem nestAll?_addBlank (depth : Nat) (c : Char) (ls : List Placed) :
    nestAll? depth (addBlank c ls) = nestAll? depth ls := by
  cases ls <;> rfl

theorem nestAll?_addLetter (depth : Nat) (c : Char) (ls : List Placed) :
    nestAll? depth (addLetter c ls) = nestAll? depth ls := by
  unfold addLetter
  split <;> rfl

theorem nestAll?_lexFrom (depth : Nat) (quoting : Quoting) (s : Text) :
    nestAll? depth (lexFrom quoting s) = nestChars? depth (outsideFrom quoting.quote? s) := by
  induction s generalizing depth quoting with
  | nil => cases quoting <;> rfl
  | cons c s ih =>
    have hout (depth : Nat) : nestAll? depth (lex s) = nestChars? depth (outside s) :=
      ih depth .outside
    have hplain (hc : isQuote c = false) (ho : c ≠ '(') (hcl : c ≠ ')') :
        nestChars? depth (outside (c :: s)) = nestChars? depth (outside s) := by
      rw [outside_cons hc, nestChars?, nestChar?_plain ho hcl, Option.bind_some]
    cases quoting with
    | inside quote reversed =>
      rw [lexFrom, Quoting.quote?, outsideFrom_quote _ (by simp), quoteAfter]
      split
      · exact hout depth
      · exact ih depth (.inside quote _)
    | outside =>
      show nestAll? depth (lex (c :: s)) = nestChars? depth (outside (c :: s))
      rcases char_cases c with hc | rfl | rfl | rfl | hc | hc
      · rw [lex_blank hc, nestAll?_addBlank, hout, hplain (isQuote_of_isBlank hc)]
        · rintro rfl
          cases hc
        · rintro rfl
          cases hc
      · exact hout (depth + 1)
      · cases depth with
        | zero => rfl
        | succ depth => exact hout depth
      · exact hout depth
      · rw [lex_quote hc, ih, outside, outsideFrom_quote none (by simp [hc]), quoteAfter,
          if_pos hc]
        rfl
      · rw [lex_bare hc, nestAll?_addLetter, hout, hplain (isQuote_of_isBare hc)]
        · rintro rfl
          cases hc
        · rintro rfl
          cases hc

theorem nestAll?_lex (depth : Nat) (s : Text) :
    nestAll? depth (lex s) = nestChars? depth (outside s) := nestAll?_lexFrom depth .outside s

theorem exists_comma_addBlank (c : Char) (ls : List Placed) :
    (∃ p ∈ addBlank c ls, p.lexeme = .comma) ↔ ∃ p ∈ ls, p.lexeme = .comma := by
  cases ls <;> simp [addBlank]

theorem exists_comma_addLetter (c : Char) (ls : List Placed) :
    (∃ p ∈ addLetter c ls, p.lexeme = .comma) ↔ ∃ p ∈ ls, p.lexeme = .comma := by
  unfold addLetter
  split <;> simp

theorem exists_comma_lexFrom (quoting : Quoting) (s : Text) :
    (∃ p ∈ lexFrom quoting s, p.lexeme = .comma) ↔ ',' ∈ outsideFrom quoting.quote? s := by
  induction s generalizing quoting with
  | nil => cases quoting <;> simp [lexFrom, outsideFrom]
  | cons c s ih =>
    have hout : (∃ p ∈ lex s, p.lexeme = .comma) ↔ ',' ∈ outside s := ih .outside
    have hplain (hc : isQuote c = false) (hne : c ≠ ',') :
        ',' ∈ outside (c :: s) ↔ ',' ∈ outside s := by
      rw [outside_cons hc, List.mem_cons, or_iff_right hne.symm]
    cases quoting with
    | inside quote reversed =>
      rw [lexFrom, Quoting.quote?, outsideFrom_quote _ (by simp), quoteAfter]
      split
      · rw [List.exists_mem_cons_iff]
        exact (or_iff_right (by simp)).trans hout
      · exact ih (.inside quote _)
    | outside =>
      show (∃ p ∈ lex (c :: s), p.lexeme = .comma) ↔ ',' ∈ outside (c :: s)
      rcases char_cases c with hc | rfl | rfl | rfl | hc | hc
      · rw [lex_blank hc, exists_comma_addBlank, hout, hplain (isQuote_of_isBlank hc)]
        rintro rfl
        cases hc
      · rw [hplain rfl (by decide), ← hout, lex_opening, List.exists_mem_cons_iff]
        exact or_iff_right (by simp)
      · rw [hplain rfl (by decide), ← hout, lex_closing, List.exists_mem_cons_iff]
        exact or_iff_right (by simp)
      · rw [lex_comma, List.exists_mem_cons_iff, outside_cons rfl]
        exact iff_of_true (.inl rfl) (List.mem_cons_self ..)
      · rw [lex_quote hc, ih, outside, outsideFrom_quote none (by simp [hc]), quoteAfter,
          if_pos hc]
        rfl
      · rw [lex_bare hc, exists_comma_addLetter, hout, hplain (isQuote_of_isBare hc)]
        rintro rfl
        cases hc

/-- A comma outside literals is a lexeme. -/
theorem exists_comma_lex {s : Text} : (∃ p ∈ lex s, p.lexeme = .comma) ↔ ',' ∈ outside s :=
  exists_comma_lexFrom .outside s

/-- The groups that are open at the end of the lexemes are what the text opens and does not
close. -/
theorem nestAll?_lex_eq_some {s : Text} {after : Nat} : nestAll? 0 (lex s) = some after ↔
    ClosesMatch s ∧ (outside s).count '(' = after + (outside s).count ')' := by
  have hbegin : (∀ cs, cs <+: outside s → cs.count ')' ≤ cs.count '(') ↔ ClosesMatch s := by
    constructor
    · exact fun h p hp => h _ (prefix_outsideFrom.mpr ⟨p, hp, rfl⟩)
    · intro h cs hcs
      obtain ⟨p, hp, rfl⟩ := prefix_outsideFrom.mp hcs
      exact h p hp
  simp only [nestAll?_lex, nestChars?_eq_some, Nat.zero_add, hbegin, and_comm]

/-- No group closes before it opens exactly if the lexemes can be followed to the end. -/
theorem closesMatch_iff {s : Text} : ClosesMatch s ↔ ∃ depth, nestAll? 0 (lex s) = some depth := by
  simp only [nestAll?_lex_eq_some]
  constructor
  · intro h
    have hall := h s List.prefix_rfl
    exact ⟨(outside s).count '(' - (outside s).count ')', h, by omega⟩
  · rintro ⟨-, h, -⟩
    exact h

/-- **What can stand between matching parentheses is balanced lexemes.** -/
theorem encloses_iff {s : Text} : Encloses s ↔ Balanced (lex s) := by
  have hnest : nestAll? 0 (lex s) = some 0 ↔ _ := nestAll?_lex_eq_some
  rw [Nat.zero_add] at hnest
  constructor
  · rintro ⟨hclosed, hmatch, heven⟩
    exact ⟨hnest.mpr ⟨hmatch, heven⟩, endsInLiteral_lex_eq_false.mpr hclosed⟩
  · rintro ⟨hgroups, hliterals⟩
    obtain ⟨hmatch, heven⟩ := hnest.mp hgroups
    exact ⟨endsInLiteral_lex_eq_false.mp hliterals, hmatch, heven⟩

/-! ### Balance -/

section Balance
variable {s : Text}

theorem balance_lex_eq_balanced : balance (lex s) = .balanced ↔ Encloses s :=
  balance_eq_balanced.trans encloses_iff.symm

theorem balance_lex_eq_unmatchedClose : balance (lex s) = .unmatchedClose ↔ ¬ClosesMatch s := by
  rw [balance, balanceFrom_eq (legible_lex s), closesMatch_iff]
  cases nestAll? 0 (lex s) with
  | none => simp
  | some after => cases after <;> cases endsInLiteral (lex s) <;> simp

/-- The literal that a text ends in hides what is still open, but not what closes too much
before it. -/
theorem balance_lex_eq_openLiteral :
    balance (lex s) = .openLiteral ↔ ClosesMatch s ∧ openQuote s ≠ none := by
  rw [balance, balanceFrom_eq (legible_lex s), closesMatch_iff, ← Option.isSome_iff_ne_none,
    ← endsInLiteral_lex]
  cases nestAll? 0 (lex s) with
  | none => simp
  | some after => cases after <;> cases endsInLiteral (lex s) <;> simp

theorem balance_lex_eq_unmatchedOpen {n : Nat} : balance (lex s) = .unmatchedOpen n ↔
    ClosesMatch s ∧ openQuote s = none ∧ 0 < n ∧
      (outside s).count '(' = n + (outside s).count ')' := by
  have hopen : balance (lex s) = .unmatchedOpen n ↔
      nestAll? 0 (lex s) = some n ∧ endsInLiteral (lex s) = false ∧ 0 < n := by
    rw [balance, balanceFrom_eq (legible_lex s)]
    cases nestAll? 0 (lex s) with
    | none => simp
    | some after => cases after <;> cases endsInLiteral (lex s) <;> simp <;> omega
  rw [hopen, nestAll?_lex_eq_some, endsInLiteral_lex_eq_false]
  tauto

end Balance

/-! ### Parts of a text -/

/-- Nothing follows a literal that is never closed. -/
theorem Legible.closed_before {a b : List Placed} {p : Placed} (h : Legible (a ++ p :: b)) :
    endsInLiteral a = false := by
  induction a with
  | nil => rfl
  | cons q a ih =>
    have hnext : ∃ r, r ∈ (a ++ p :: b).head? := by
      cases a <;> exact ⟨_, rfl⟩
    obtain ⟨r, hr⟩ := hnext
    rw [endsInLiteral_cons, (h.head.2.2 r hr).closed, ih h.tail]
    rfl

section Append
variable {a : Text} (ha : openQuote a = none)
include ha

/-- A text that ends outside literals is read for itself when no word follows it. -/
theorem lex_append_mark {t : Text} {l : Lexeme} {ls : List Placed} (ht : lex t = ⟨[], l⟩ :: ls)
    (hl : l.isWord = false) : lex (a ++ t) = lex a ++ ⟨lastBlanks a, l⟩ :: ls := by
  obtain ⟨hblank, htext⟩ := render_lex a
  have hclosed : endsInLiteral (lex a) = false := endsInLiteral_lex_eq_false.mpr ha
  have hread : lex (lastBlanks a ++ t) = ⟨lastBlanks a, l⟩ :: ls := by
    rw [lex_gap hblank ht, List.append_nil]
  have hlegible : Legible (lex a ++ lex (lastBlanks a ++ t)) := by
    have hrest := legible_lex (lastBlanks a ++ t)
    rw [hread] at hrest ⊢
    refine (legible_lex a).append_cons hclosed (fun hw => ?_) hrest
    rw [hl] at hw
    cases hw
  rw [← hread, ← lex_render_append hclosed hlegible, ← List.append_assoc, htext]

/-- Letters after a text that ends outside literals join the word at its end, if it ends in
one. -/
theorem lex_append_word {letters t : Text} (hne : letters ≠ [])
    (hb : ∀ c ∈ letters, isBare c = true)
    (ht : ∀ p ∈ (lex t).head?, p.lexeme.isWord = true → p.gap ≠ []) :
    ∃ ls gap front,
      lex (a ++ (letters ++ t)) = ls ++ ⟨gap, .word (front ++ letters)⟩ :: lex t ∧
      a = render ls ++ gap ++ front := by
  obtain ⟨hblank, htext⟩ := render_lex a
  have hlegible := legible_lex a
  have hclosed : endsInLiteral (lex a) = false := endsInLiteral_lex_eq_false.mpr ha
  -- What stands before the letters is read by itself if no word touches them.
  have hread {ls : List Placed} {gap front : Text} (hls : Legible ls)
      (hopen : endsInLiteral ls = false) (hgap : Blank gap) (hfront : ∀ c ∈ front, isBare c = true)
      (happart : ∀ p ∈ ls.getLast?, p.lexeme.isWord = true → gap ≠ []) :
      lex (render ls ++ gap ++ front ++ (letters ++ t)) =
        ls ++ ⟨gap, .word (front ++ letters)⟩ :: lex t := by
    have hletters : ∀ c ∈ front ++ letters, isBare c = true := fun c hc =>
      (List.mem_append.mp hc).elim (hfront c) (hb c)
    have hword := lex_gap hgap (lex_word (by simp [hne]) hletters ht)
    rw [List.append_nil] at hword
    have hjoined : Legible (ls ++ lex (gap ++ (front ++ letters ++ t))) := by
      refine hls.join (legible_lex _) fun p hp q hq => ?_
      rw [hword] at hq
      cases hq
      exact ⟨endsInLiteral_eq_false.mp hopen p (List.mem_of_getLast? hp),
        fun hw _ => happart p hp hw⟩
    rw [← hword, ← lex_render_append hopen hjoined]
    simp only [List.append_assoc]
  by_cases hend : ∃ ls gap front, lex a = ls ++ [⟨gap, .word front⟩] ∧ lastBlanks a = []
  · obtain ⟨ls, gap, front, hlex, hlast⟩ := hend
    rw [hlex] at hlegible hclosed htext
    rw [hlast, List.append_nil, render_append, render_cons, render_nil, List.append_nil,
      ← List.append_assoc] at htext
    have hword := (hlegible.right.head).2.1
    refine ⟨ls, gap, front, ?_, htext.symm⟩
    rw [← htext]
    refine hread hlegible.left (endsInLiteral_append_eq_false.mp hclosed).1
      (hlegible.right.head).1 hword.2 fun p hp hw => ?_
    exact ((List.isChain_append.mp hlegible.apart).2.2 p hp _ rfl).words hw rfl
  · refine ⟨lex a, lastBlanks a, [], ?_, by rw [List.append_nil, htext]⟩
    have hrest := @hread _ _ [] hlegible hclosed hblank (fun _ h => nomatch h) ?_
    · rwa [List.append_nil, htext] at hrest
    · intro p hp hw hnil
      obtain ⟨gap, l⟩ := p
      cases l with
      | word front => exact hend ⟨_, gap, front, (List.dropLast_append_getLast? _ hp).symm, hnil⟩
      | _ => cases hw

end Append

/-- The end of a text's lexemes is what the end of the text reads as. -/
theorem lex_rest {s : Text} {a b : List Placed} (h : lex s = a ++ b) :
    lex (render b ++ lastBlanks s) = b := by
  have hlegible : Legible b := (h ▸ legible_lex s).right
  cases hopen : endsInLiteral b with
  | false => exact lex_render_blanks hlegible hopen (render_lex s).1
  | true =>
    have hlast : lastBlanks s = [] := lastBlanks_of_open (by rw [h, endsInLiteral_append, hopen,
      Bool.or_true])
    rw [hlast, List.append_nil, lex_render hlegible]

/-- What comes after a group is what the text after its close reads as. -/
theorem exists_rest_of_closeGroup? {s : Text} {g : Group} (h : closeGroup? 0 (lex s) = some g) :
    ∃ rest, s = g.text ++ ')' :: rest ∧ lex rest = g.after := by
  obtain ⟨hls, -⟩ := closeGroup?_eq_some.mp h
  refine ⟨render g.after ++ lastBlanks s, ?_, ?_⟩
  · calc s
      _ = render (lex s) ++ lastBlanks s := (render_lex s).2.symm
      _ = g.text ++ ')' :: (render g.after ++ lastBlanks s) := by
        rw [hls, render_append]
        simp [Group.text, Lexeme.text]
  · refine lex_rest (a := g.inside ++ [⟨g.lastGap, .closing⟩]) ?_
    rw [hls, List.append_assoc, List.singleton_append]

/-- What is in a group is what its text reads as. -/
theorem lex_text_of_closeGroup? {s : Text} {g : Group} (h : closeGroup? 0 (lex s) = some g) :
    lex g.text = g.inside ∧ endsInLiteral g.inside = false := by
  obtain ⟨hls, -⟩ := closeGroup?_eq_some.mp h
  have hlegible := legible_lex s
  rw [hls] at hlegible
  have hclosed : endsInLiteral g.inside = false := hlegible.closed_before
  exact ⟨lex_render_blanks hlegible.left hclosed hlegible.right.head.1, hclosed⟩

/-- **A group that lexemes close is what the text encloses.** -/
theorem closeGroup?_lex {s a : Text} : (closeGroup? 0 (lex s)).map Group.text = some a ↔
    ∃ rest, s = a ++ ')' :: rest ∧ Encloses a := by
  constructor
  · intro h
    obtain ⟨g, hg, rfl⟩ := Option.map_eq_some_iff.mp h
    obtain ⟨-, hnest⟩ := closeGroup?_eq_some.mp hg
    obtain ⟨hlex, hclosed⟩ := lex_text_of_closeGroup? hg
    obtain ⟨rest, hs, -⟩ := exists_rest_of_closeGroup? hg
    refine ⟨rest, hs, ?_⟩
    rw [encloses_iff, hlex]
    exact ⟨hnest, hclosed⟩
  · rintro ⟨rest, rfl, h⟩
    have hbalanced := encloses_iff.mp h
    have hlex := lex_append_mark h.closed (lex_closing rest) rfl
    rw [(closeGroup?_eq_some (g := ⟨lex a, lastBlanks a, lex rest⟩)).mpr ⟨hlex, hbalanced.groups⟩]
    exact congrArg some (render_lex a).2

end AccessRules
