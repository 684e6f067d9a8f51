import AccessRules.Proofs.Grammar.Reading
import AccessRules.Proofs.Lexeme.Outside
import AccessRules.Proofs.Text.Slice

/-! Groups, found by offsets in bytes.

The library cuts a text by naming its pieces. The same can be done by counting bytes: a scan
that knows the open quote and the number of open groups stops at the offset of a close
(`closeFrom?`), and the text is sliced there, which fails if an offset is not valid. It
never is: the close that a scan finds is the one that the lexemes have
(`matchingParen?_append`), and a group that goes to the end of the text is the slice between
its parentheses (`groupToEnd?_render`). -/
namespace AccessRules

/-- One less; nothing if there is nothing to take off. -/
def pred? : Nat → Option Nat
  | 0 => none
  | n + 1 => some n

/-! ### Closes -/

/-- The offset of the close that ends the last of `depth` open groups, in a text that begins at
offset `i` when `quote` is open. -/
def closeFrom? (quote : Option Char) (depth i : Nat) : Text → Option Nat
  | [] => none
  | c :: s =>
    if quote = none ∧ isQuote c = false then
      if c = '(' then closeFrom? none (depth + 1) (i + c.utf8Size) s
      else if c = ')' then
        if depth = 0 then none
        else if depth = 1 then some i
        else closeFrom? none (depth - 1) (i + c.utf8Size) s
      else closeFrom? none depth (i + c.utf8Size) s
    else closeFrom? (quoteAfter quote c) depth (i + c.utf8Size) s

/-- The offset of the close that matches the opening parenthesis at an offset, if there is
one; nothing if the offset is not valid. -/
def matchingParen? (s : Text) (start : Nat) : Option (Option Nat) := do
  let (_, rest) ← s.splitAt? start
  return closeFrom? none 0 start rest

/-- A scan stops at the first close that what it has read does not need. -/
theorem closeFrom?_eq_some {quote : Option Char} {depth i k : Nat} {s : Text} :
    closeFrom? quote (depth + 1) i s = some k ↔ ∃ a rest, s = a ++ ')' :: rest ∧
      openQuoteFrom quote a = none ∧ nestChars? depth (outsideFrom quote a) = some 0 ∧
      k = i + a.byteSize := by
  induction s generalizing quote depth i with
  | nil => simp [closeFrom?]
  | cons c s ih =>
    have hcons (P : Text → Prop) : (∃ a rest, c :: s = a ++ ')' :: rest ∧ P a) ↔
        (c = ')' ∧ P []) ∨ ∃ a rest, s = a ++ ')' :: rest ∧ P (c :: a) := by
      constructor
      · rintro ⟨a, rest, hs, hP⟩
        rcases List.cons_eq_append_iff.mp hs with ⟨rfl, hs'⟩ | ⟨a, rfl, hs'⟩
        · exact .inl ⟨(List.cons.inj hs').1.symm, hP⟩
        · exact .inr ⟨a, rest, hs', hP⟩
      · rintro (⟨rfl, hP⟩ | ⟨a, rest, rfl, hP⟩)
        · exact ⟨[], s, rfl, hP⟩
        · exact ⟨c :: a, rest, rfl, hP⟩
    have hsize (a : Text) : i + Text.byteSize (c :: a) = i + c.utf8Size + Text.byteSize a :=
      (Nat.add_assoc ..).symm
    rw [hcons, closeFrom?]
    by_cases hc : quote = none ∧ isQuote c = false
    · obtain ⟨rfl, hplain⟩ := hc
      have hquote (a : Text) : openQuoteFrom none (c :: a) = openQuoteFrom none a :=
        congrArg (openQuoteFrom · a) (quoteAfter_plain hplain)
      have hnest (a : Text) : nestChars? depth (outsideFrom none (c :: a)) =
          (nestChar? c depth).bind fun depth => nestChars? depth (outsideFrom none a) := by
        rw [outsideFrom, if_pos ⟨rfl, hplain⟩, nestChars?]
      simp only [hplain, and_self, if_true, hquote, hnest, hsize]
      by_cases ho : c = '('
      · subst ho
        simp [ih, nestChar?]
      · by_cases hcl : c = ')'
        · subst hcl
          cases depth with
          | zero => simp [nestChar?, nestChars?, openQuoteFrom, outsideFrom, Text.byteSize, eq_comm]
          | succ depth => simp [ih, nestChar?, nestChars?, outsideFrom]
        · simp [ho, hcl, ih, nestChar?_plain ho hcl]
    · have hquote (a : Text) : openQuoteFrom quote (c :: a) = openQuoteFrom (quoteAfter quote c) a :=
        rfl
      have hstop : ¬(c = ')' ∧ openQuoteFrom quote [] = none ∧
          nestChars? depth (outsideFrom quote []) = some 0 ∧ k = i + Text.byteSize []) := by
        rintro ⟨rfl, hopen, -⟩
        exact hc ⟨hopen, rfl⟩
      simp only [hc, if_false, or_iff_right hstop, hquote, outsideFrom_quote quote hc, hsize, ih]

/-- **The scan after an opening parenthesis ends where its group does.** -/
theorem closeFrom?_lex (i : Nat) (s : Text) : closeFrom? none 1 i s =
    (closeGroup? 0 (lex s)).map fun g => i + g.text.byteSize := by
  ext k
  rw [closeFrom?_eq_some, Option.map_eq_some_iff]
  constructor
  · rintro ⟨a, rest, hs, hclosed, hnest, rfl⟩
    have hbalanced : Balanced (lex a) := ⟨(nestAll?_lex 0 a).trans hnest,
      endsInLiteral_lex_eq_false.mpr hclosed⟩
    obtain ⟨g, hg, rfl⟩ := Option.map_eq_some_iff.mp
      (closeGroup?_lex.mpr ⟨rest, hs, encloses_iff.mpr hbalanced⟩)
    exact ⟨g, hg, rfl⟩
  · rintro ⟨g, hg, rfl⟩
    obtain ⟨rest, hs, h⟩ := closeGroup?_lex.mp (congrArg (Option.map Group.text) hg)
    exact ⟨g.text, rest, hs, h.closed, (nestAll?_lex 0 _).symm.trans (encloses_iff.mp h).groups, rfl⟩

/-- An opening parenthesis is matched by the close of the group after it. -/
theorem matchingParen?_append (a t : Text) : matchingParen? (a ++ '(' :: t) a.byteSize =
    some ((closeGroup? 0 (lex t)).map fun g => a.byteSize + 1 + g.text.byteSize) := by
  rw [matchingParen?, Text.splitAt?_append]
  show some (closeFrom? none 0 a.byteSize ('(' :: t)) = _
  rw [← closeFrom?_lex]
  rfl

/-! ### Groups -/

/-- What stands between the opening parenthesis at an offset and the last byte of the text, if
that is its close; nothing if an offset is not valid. -/
def groupToEnd? (s : Text) (start : Nat) : Option (Option Text) := do
  let last ← pred? s.byteSize
  if (← matchingParen? s start) = some last then return some (← s.slice? (start + 1) last)
  else return none

/-- What a text that is one group holds; nothing if an offset is not valid. -/
def outerGroup? (s : Text) : Option (Option Text) :=
  if s.head? = some '(' ∧ s.getLast? = some ')' then groupToEnd? s 0 else some none

/-- **A group that goes to the end is sliced out between its parentheses.** -/
theorem groupToEnd?_render (a : Text) {ls : List Placed} (h : Legible ls) :
    groupToEnd? (a ++ '(' :: render ls) a.byteSize =
      some (((closeGroup? 0 ls).filter (·.after.isEmpty)).map Group.text) := by
  have hlast : pred? (a ++ '(' :: render ls).byteSize =
      some (a.byteSize + (render ls).byteSize) := by
    have hsize : (a ++ '(' :: render ls).byteSize = a.byteSize + (render ls).byteSize + 1 := by
      rw [Text.byteSize_append, Text.byteSize, show '('.utf8Size = 1 from rfl]
      omega
    rw [hsize, pred?]
  have hmatch := matchingParen?_append a (render ls)
  rw [lex_render h] at hmatch
  simp only [groupToEnd?, hlast, hmatch, Option.bind_eq_bind, Option.bind_some]
  cases hclose : closeGroup? 0 ls with
  | none => rfl
  | some g =>
    obtain ⟨hls, -⟩ := closeGroup?_eq_some.mp hclose
    have htext : render ls = g.text ++ ')' :: render g.after := by
      simp [hls, render_append, Group.text, Lexeme.text]
    have hsize : (render ls).byteSize = g.text.byteSize + 1 + (render g.after).byteSize := by
      rw [htext, Text.byteSize_append, Text.byteSize, show ')'.utf8Size = 1 from rfl,
        Nat.add_assoc]
    have hslice : (a ++ '(' :: render ls).slice? (a.byteSize + 1) (a.byteSize + 1 + g.text.byteSize) =
        some g.text := by
      have hslice := Text.slice?_append (a ++ ['(']) g.text (')' :: render g.after)
      rw [Text.byteSize_append _ g.text, Text.byteSize_append, ← htext, List.append_assoc] at hslice
      exact hslice
    cases hafter : g.after with
    | nil =>
      have hend : a.byteSize + (render ls).byteSize = a.byteSize + 1 + g.text.byteSize := by
        rw [hsize, hafter, render_nil, Text.byteSize_eq_zero.mpr rfl]
        omega
      rw [Option.map_some, hend, if_pos rfl, hslice, Option.filter_some_pos (by simp [hafter])]
      rfl
    | cons q after =>
      have hq : q.lexeme.text ≠ [] := by
        rw [hls, hafter] at h
        exact Lexeme.text_ne_nil h.right.tail.head.2.1
      have hpos : (render g.after).byteSize ≠ 0 := by
        rw [hafter, Ne, Text.byteSize_eq_zero]
        simp [hq]
      have hlater : some (a.byteSize + 1 + g.text.byteSize) ≠
          some (a.byteSize + (render ls).byteSize) := by
        rw [hsize, Ne, Option.some_inj]
        omega
      rw [Option.map_some, if_neg hlater, Option.filter_some_neg (by simp [hafter])]
      rfl

theorem eq_opening_of_head? {l : Lexeme} (h : l.Legible) (hfirst : l.text.head? = some '(') :
    l = .opening := by
  cases l with
  | opening => rfl
  | word letters => cases h.2 '(' (List.mem_of_head? hfirst)
  | literal quote content | openLiteral quote content =>
    cases hfirst
    cases h.1
  | _ => cases hfirst

/-- **The outer group of a piece is that of its lexemes.** -/
theorem outerGroup?_phrase {piece : List Placed} (h : Legible piece) :
    (wholeGroup? piece = none ∧ outerGroup? (phrase piece) = some none) ∨
    ∃ inside lastGap, wholeGroup? piece = some inside ∧ Blank lastGap ∧
      phrase piece = '(' :: (render inside ++ lastGap ++ [')']) ∧
      outerGroup? (phrase piece) = some (some (render inside ++ lastGap)) := by
  cases piece with
  | nil => exact .inl ⟨rfl, rfl⟩
  | cons p ls =>
    obtain ⟨gap, l⟩ := p
    by_cases hopening : l = .opening
    · subst hopening
      have hgroup : groupToEnd? (phrase (⟨gap, .opening⟩ :: ls)) 0 =
          some (((closeGroup? 0 ls).filter (·.after.isEmpty)).map Group.text) :=
        groupToEnd?_render [] h.tail
      rw [wholeGroup?, if_pos rfl, outerGroup?, hgroup]
      cases hclose : closeGroup? 0 ls with
      | none => exact .inl ⟨rfl, ite_self _⟩
      | some g =>
        obtain ⟨inside, lastGap, after⟩ := g
        obtain ⟨rfl, -⟩ := closeGroup?_eq_some.mp hclose
        cases after with
        | nil =>
          have htext : phrase (⟨gap, .opening⟩ :: (inside ++ [⟨lastGap, .closing⟩])) =
              '(' :: (render inside ++ lastGap ++ [')']) := by
            simp [phrase, Lexeme.text, render_append]
          refine .inr ⟨inside, lastGap, rfl, h.tail.right.head.1, htext, if_pos ⟨rfl, ?_⟩⟩
          rw [htext]
          exact List.getLast?_concat (l := '(' :: (render inside ++ lastGap))
        | cons q after => exact .inl ⟨rfl, ite_self _⟩
    · refine .inl ⟨if_neg hopening, if_neg fun hends => hopening ?_⟩
      refine eq_opening_of_head? h.head.2.1 ?_
      rw [← hends.1, phrase, List.head?_append_of_ne_nil _ (Lexeme.text_ne_nil h.head.2.1)]

end AccessRules
