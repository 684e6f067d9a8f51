import AccessRules.Proofs.Offsets.Groups
import Mathlib.Order.Bounds.Basic

/-! What the scans for parentheses find, by counting.

Parentheses count outside literals only. How those of a text stand is told by the counts in
all that the text begins with; and the close that matches an opening parenthesis is the first
place from there on with as many closes as opens behind it, which ends a group
(`matchingParen?_eq_some`, `isLeast_evenOffsets`). If the whole text is in order there is one
for each opening parenthesis (`Encloses.exists_close`). -/
namespace AccessRules

/-- A text in which something closes too much is cut at the first close that does. -/
theorem not_closesMatch_iff {s : Text} :
    ¬ClosesMatch s ↔ ∃ inside rest, s = inside ++ ')' :: rest ∧ Encloses inside := by
  rw [closesMatch_iff, ← closeGroup?_eq_none, ← ne_eq, Option.ne_none_iff_exists']
  constructor
  · rintro ⟨g, hg⟩
    exact ⟨g.text, closeGroup?_lex.mp (congrArg (Option.map Group.text) hg)⟩
  · rintro ⟨inside, h⟩
    obtain ⟨g, hg, -⟩ := Option.map_eq_some_iff.mp (closeGroup?_lex.mpr h)
    exact ⟨g, hg⟩

theorem outside_opening (t : Text) : outside ('(' :: t) = '(' :: outside t := outside_cons rfl t

/-- **In a text that is in order an opening parenthesis has its close.** -/
theorem Encloses.exists_close {a t : Text} (h : Encloses (a ++ '(' :: t))
    (ha : openQuote a = none) : ∃ inside rest, t = inside ++ ')' :: rest ∧ Encloses inside := by
  refine not_closesMatch_iff.mp fun hmatch => ?_
  have hbefore := h.closesMatch a (List.prefix_append _ _)
  have hafter := hmatch t List.prefix_rfl
  have heven := h.even
  rw [outside_append ha, outside_opening, List.count_append, List.count_append,
    List.count_cons_self, List.count_cons_of_ne (by decide)] at heven
  omega

section Matching
variable {a t : Text}

/-- The scan finds the close of the group that an opening parenthesis begins. -/
theorem matchingParen?_eq_some {k : Nat} :
    matchingParen? (a ++ '(' :: t) a.byteSize = some (some k) ↔
      ∃ inside rest, t = inside ++ ')' :: rest ∧ Encloses inside ∧
        k = (a ++ '(' :: inside).byteSize := by
  have hsize (inside : Text) :
      (a ++ '(' :: inside).byteSize = a.byteSize + 1 + inside.byteSize := by
    rw [Text.byteSize_append, Text.byteSize, show '('.utf8Size = 1 from rfl, Nat.add_assoc]
  rw [matchingParen?_append, Option.some_inj, Option.map_eq_some_iff]
  constructor
  · rintro ⟨g, hg, rfl⟩
    obtain ⟨rest, ht, h⟩ := closeGroup?_lex.mp (congrArg (Option.map Group.text) hg)
    exact ⟨g.text, rest, ht, h, (hsize _).symm⟩
  · rintro ⟨inside, rest, ht, h, rfl⟩
    obtain ⟨g, hg, rfl⟩ := Option.map_eq_some_iff.mp (closeGroup?_lex.mpr ⟨rest, ht, h⟩)
    exact ⟨g, hg, (hsize _).symm⟩

theorem Encloses.exists_matchingParen? (h : Encloses (a ++ '(' :: t)) (ha : openQuote a = none) :
    ∃ k, matchingParen? (a ++ '(' :: t) a.byteSize = some (some k) := by
  obtain ⟨inside, rest, ht, hinside⟩ := h.exists_close ha
  exact ⟨_, matchingParen?_eq_some.mpr ⟨inside, rest, ht, hinside, rfl⟩⟩

/-- The offsets of those characters of `t`, which stands after `a`, up to which as many
parentheses close in `t` as open, outside the literals of the whole. -/
def evenOffsets (a t : Text) : Set Nat :=
  {k | ∃ m c rest, t = m ++ c :: rest ∧ k = (a ++ m).byteSize ∧
    (outsideFrom (openQuote a) (m ++ [c])).count '(' =
      (outsideFrom (openQuote a) (m ++ [c])).count ')'}

variable (ha : openQuote a = none)
include ha

/-- After an opening parenthesis one more has to close. -/
theorem mem_evenOffsets {k : Nat} : k ∈ evenOffsets a ('(' :: t) ↔
    ∃ m c rest, t = m ++ c :: rest ∧ k = (a ++ '(' :: m).byteSize ∧
      (outside (m ++ [c])).count ')' = (outside (m ++ [c])).count '(' + 1 := by
  have hcount (m : Text) :
      (outside ('(' :: m)).count '(' = (outside ('(' :: m)).count ')' ↔
        (outside m).count ')' = (outside m).count '(' + 1 := by
    rw [outside_opening, List.count_cons_self, List.count_cons_of_ne (by decide), eq_comm]
  rw [evenOffsets, ha]
  constructor
  · rintro ⟨m, c, rest, ht, rfl, heven⟩
    cases m with
    | nil =>
      cases ht
      cases heven
    | cons d m =>
      cases ht
      exact ⟨m, c, rest, rfl, rfl, (hcount _).mp heven⟩
  · rintro ⟨m, c, rest, rfl, rfl, heven⟩
    exact ⟨'(' :: m, c, rest, rfl, rfl, (hcount _).mpr heven⟩

/-- Where as many close as open, a group has been closed. -/
theorem exists_close_of_mem_evenOffsets {k : Nat} (hk : k ∈ evenOffsets a ('(' :: t)) :
    ∃ inside rest, t = inside ++ ')' :: rest ∧ Encloses inside := by
  obtain ⟨m, c, rest, rfl, -, heven⟩ := (mem_evenOffsets ha).mp hk
  refine not_closesMatch_iff.mp fun hmatch => ?_
  have hle := hmatch (m ++ [c]) ⟨rest, by simp⟩
  omega

/-- **The close of a group is the first place where as many close as open.** -/
theorem isLeast_evenOffsets {inside : Text} (h : Encloses inside) (rest : Text) :
    IsLeast (evenOffsets a ('(' :: (inside ++ ')' :: rest))) (a ++ '(' :: inside).byteSize := by
  constructor
  · refine (mem_evenOffsets ha).mpr ⟨inside, ')', rest, rfl, rfl, ?_⟩
    have hclose : outside [')'] = [')'] := rfl
    rw [outside_append h.closed, hclose, List.count_append, List.count_append, h.even]
    rfl
  · intro k hk
    obtain ⟨m, c, rest', heq, rfl, heven⟩ := (mem_evenOffsets ha).mp hk
    rcases List.append_eq_append_iff.mp heq with ⟨x, rfl, -⟩ | ⟨x, rfl, hx⟩
    · simp only [Text.byteSize_append, Text.byteSize]
      omega
    · cases x with
      | nil => rw [List.append_nil]
      | cons d x =>
        -- The character is inside the group, where no more close than open.
        cases hx
        have hle := h.closesMatch (m ++ [c]) ⟨x, by simp⟩
        omega

theorem matchingParen?_eq_isLeast {k : Nat} :
    matchingParen? (a ++ '(' :: t) a.byteSize = some (some k) ↔
      IsLeast (evenOffsets a ('(' :: t)) k := by
  rw [matchingParen?_eq_some]
  constructor
  · rintro ⟨inside, rest, rfl, h, rfl⟩
    exact isLeast_evenOffsets ha h rest
  · intro hk
    obtain ⟨inside, rest, rfl, h⟩ := exists_close_of_mem_evenOffsets ha hk.1
    exact ⟨inside, rest, rfl, h, hk.unique (isLeast_evenOffsets ha h rest)⟩

theorem matchingParen?_eq_none :
    matchingParen? (a ++ '(' :: t) a.byteSize = some none ↔ evenOffsets a ('(' :: t) = ∅ := by
  obtain ⟨close, hclose⟩ : ∃ close, matchingParen? (a ++ '(' :: t) a.byteSize = some close :=
    ⟨_, matchingParen?_append a t⟩
  cases close with
  | none =>
    refine iff_of_true hclose (Set.eq_empty_of_forall_notMem fun k hk => ?_)
    obtain ⟨inside, rest, ht, h⟩ := exists_close_of_mem_evenOffsets ha hk
    cases hclose.symm.trans (matchingParen?_eq_some.mpr ⟨inside, rest, ht, h, rfl⟩)
  | some k =>
    have hk := ((matchingParen?_eq_isLeast ha).mp hclose).1
    refine iff_of_false (fun hnone => ?_) (Set.nonempty_of_mem hk).ne_empty
    cases hclose.symm.trans hnone

end Matching

/-- **The scans for parentheses meet their specification.** With those outside literals counted,
a text has a close too much if it begins with some text in which more close than open; else it
ends inside a literal if a quote is open at its end; else it has as many opens too much as the
counts differ by, if they do, and is in order if not. The scan from an opening parenthesis
outside literals ends at the first offset up to which as many close as open, if there is one;
what a group can hold stands between them; and there is one if the text is in order. -/
theorem parentheses_counted (s : Text) :
    (balance (lex s) = .unmatchedClose ↔
      ∃ p, p <+: s ∧ (outside p).count '(' < (outside p).count ')') ∧
    (balance (lex s) = .openLiteral ↔ ClosesMatch s ∧ openQuote s ≠ none) ∧
    (∀ n, balance (lex s) = .unmatchedOpen n ↔ ClosesMatch s ∧ openQuote s = none ∧ 0 < n ∧
      (outside s).count '(' = n + (outside s).count ')') ∧
    (balance (lex s) = .balanced ↔ ClosesMatch s ∧ openQuote s = none ∧
      (outside s).count '(' = (outside s).count ')') ∧
    ∀ a t, s = a ++ '(' :: t → openQuote a = none →
      (∀ k, matchingParen? s a.byteSize = some (some k) ↔
        IsLeast (evenOffsets a ('(' :: t)) k) ∧
      (matchingParen? s a.byteSize = some none ↔ evenOffsets a ('(' :: t) = ∅) ∧
      (∀ k, matchingParen? s a.byteSize = some (some k) ↔ ∃ inside rest,
        t = inside ++ ')' :: rest ∧ Encloses inside ∧ k = (a ++ '(' :: inside).byteSize) ∧
      (balance (lex s) = .balanced → matchingParen? s a.byteSize ≠ some none) := by
  refine ⟨?_, balance_lex_eq_openLiteral, fun n => balance_lex_eq_unmatchedOpen, ?_, ?_⟩
  · simp only [balance_lex_eq_unmatchedClose, ClosesMatch, not_forall, exists_prop, Nat.not_le]
  · rw [balance_lex_eq_balanced]
    exact ⟨fun h => ⟨h.closesMatch, h.closed, h.even⟩, fun ⟨hmatch, hclosed, heven⟩ =>
      ⟨hclosed, hmatch, heven⟩⟩
  · rintro a t rfl ha
    refine ⟨fun k => matchingParen?_eq_isLeast ha, matchingParen?_eq_none ha,
      fun k => matchingParen?_eq_some, fun hbalance hnone => ?_⟩
    obtain ⟨k, hk⟩ := (balance_lex_eq_balanced.mp hbalance).exists_matchingParen? ha
    cases hnone.symm.trans hk

theorem parentheses_counted_nested :
    let a : Text := "é OR (hasRole".toList
    let t : Text := "')', \"(\") AND (x))".toList
    let s := a ++ '(' :: t
    openQuote a = none ∧ balance (lex s) = .balanced ∧
      matchingParen? s a.byteSize = some (some 23) ∧ IsLeast (evenOffsets a ('(' :: t)) 23 ∧
      matchingParen? s a.byteSize ≠ some none := by
  intro a t s
  have hquote : openQuote a = none := by decide
  have hbalance : balance (lex s) = .balanced := by decide
  have hmatch : matchingParen? s a.byteSize = some (some 23) := by decide
  have hscan := (parentheses_counted s).2.2.2.2 a t rfl hquote
  exact ⟨hquote, hbalance, hmatch, (hscan.1 23).mp hmatch, hscan.2.2.2 hbalance⟩

end AccessRules
