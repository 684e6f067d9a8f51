import AccessRules.Lexeme.Tidy
import AccessRules.Proofs.Lexeme.Render

/-! What the tidy layout of a text looks like.

`Tidied` says what later readings rely on: keywords are in their own spelling, and one
space stands on each side of them. `lex_tidyText` shows that the tidy text is read back
as the tidy lexemes, so that the text stands for them. -/
namespace AccessRules

/-! ### One lexeme -/

/-- The operator's keyword in its own spelling. -/
def Op.lexeme (op : Op) : Lexeme := .word op.keyword.toList

theorem Op.op?_lexeme (op : Op) : op.lexeme.op? = some op := by
  cases op <;> decide

theorem Op.op?_lexeme_ne_none (op : Op) : op.lexeme.op? ≠ none := by
  rw [op.op?_lexeme]
  nofun

theorem Op.legible_lexeme (op : Op) : op.lexeme.Legible := by
  cases op <;> exact ⟨by decide, List.all_eq_true.mp (by decide)⟩

/-- A keyword can stand before what has a gap. -/
theorem Legible.keyword (op : Op) {gap : Text} (hg : Blank gap) {p : Placed} {ls : List Placed}
    (hp : p.gap ≠ []) (h : Legible (p :: ls)) : Legible (⟨gap, op.lexeme⟩ :: p :: ls) := by
  refine .cons hg op.legible_lexeme (fun q hq => ?_) h
  cases hq
  exact .of_gap rfl fun _ => hp

/-- A word is the keyword of the operator that it is in upper case. -/
theorem Op.ofWord?_eq_some {letters : Text} {op : Op} :
    Op.ofWord? letters = some op ↔ letters.map Char.toUpper = op.keyword.toList := by
  constructor
  · intro h
    have hfound := List.find?_some h
    exact (of_decide_eq_true hfound).symm
  · intro h
    rw [Op.ofWord?, h]
    cases op <;> rfl

namespace Lexeme

/-- A keyword in its own spelling. -/
theorem tidy_keyword {l : Lexeme} {op : Op} (h : l.op? = some op) :
    l.tidy = op.lexeme := by
  cases l with
  | word letters =>
    have hw : Op.ofWord? letters = some op := h
    simp [tidy, hw, Op.lexeme]
  | _ => cases h

/-- What is no keyword stays as it is. -/
theorem tidy_of_plain {l : Lexeme} (hop : l.op? = none) (hopen : l.isOpenLiteral = false) :
    l.tidy = l := by
  cases l with
  | word letters =>
    have hw : Op.ofWord? letters = none := hop
    simp [tidy, hw]
  | openLiteral quote content => cases hopen
  | _ => rfl

theorem op?_of_not_isWord {l : Lexeme} (h : l.isWord = false) : l.op? = none := by
  cases l with
  | word letters => cases h
  | _ => rfl

@[simp]
theorem op?_tidy (l : Lexeme) : l.tidy.op? = l.op? := by
  cases h : l.op? with
  | some op =>
    rw [tidy_keyword h]
    exact op.op?_lexeme
  | none =>
    cases l with
    | word letters =>
      have hw : Op.ofWord? letters = none := h
      simp [tidy, hw, op?]
    | _ => rfl

@[simp]
theorem isWord_tidy (l : Lexeme) : l.tidy.isWord = l.isWord := by
  cases l <;> rfl

@[simp]
theorem isOpenLiteral_tidy (l : Lexeme) : l.tidy.isOpenLiteral = l.isOpenLiteral := by
  cases l <;> rfl

theorem legible_tidy {l : Lexeme} (h : l.Legible) : l.tidy.Legible := by
  cases hop : l.op? with
  | some op =>
    rw [tidy_keyword hop]
    exact op.legible_lexeme
  | none =>
    cases l with
    | word letters =>
      have hw : Op.ofWord? letters = none := hop
      simpa [tidy, hw] using h
    | openLiteral quote content =>
      refine ⟨h.1, fun hm => h.2 ?_⟩
      have := (List.dropWhile_sublist isBlank).subset (List.mem_reverse.mp hm)
      exact List.mem_reverse.mp this
    | _ => exact h

end Lexeme

/-! ### Tidy lexemes -/

/-- Keywords are in their own spelling, and one space stands between a keyword and its
neighbours. -/
structure Tidied (ls : List Placed) : Prop where
  spelled : ∀ p ∈ ls, ∀ op, p.lexeme.op? = some op → p.lexeme = op.lexeme
  spaced : ls.IsChain fun p q => p.lexeme.op? ≠ none ∨ q.lexeme.op? ≠ none → q.gap = [' ']

namespace Tidied

theorem left {a b : List Placed} (h : Tidied (a ++ b)) : Tidied a :=
  ⟨fun p hp => h.spelled p (List.mem_append_left b hp), h.spaced.left_of_append⟩

theorem right {a b : List Placed} (h : Tidied (a ++ b)) : Tidied b :=
  ⟨fun p hp => h.spelled p (List.mem_append_right a hp), h.spaced.right_of_append⟩

/-- A keyword has a space before it, unless it comes first, and a space after it. -/
theorem keyword_gaps {l r : List Placed} {p : Placed} (h : Tidied (l ++ p :: r))
    (hp : p.lexeme.op? ≠ none) : (l ≠ [] → p.gap = [' ']) ∧ ∀ q ∈ r.head?, q.gap = [' '] := by
  obtain ⟨_, hspaced, hbetween⟩ := List.isChain_append.mp h.spaced
  refine ⟨fun hl => ?_, fun q hq => (List.isChain_cons.mp hspaced).1 q hq (.inl hp)⟩
  obtain ⟨last, hlast⟩ := Option.ne_none_iff_exists'.mp (mt List.getLast?_eq_none_iff.mp hl)
  exact hbetween last hlast p rfl (.inr hp)

end Tidied

theorem blank_tidyGap (before : Option Lexeme) (p : Placed) : Blank (tidyGap before p) := by
  unfold tidyGap
  split
  · exact blank_nil
  · split
    · exact blank_nil
    · exact blank_space

theorem tidyGap_keyword {l : Lexeme} {p : Placed} (h : l.op? ≠ none ∨ p.lexeme.op? ≠ none) :
    tidyGap (some l) p = [' '] := by
  refine if_neg fun hn => ?_
  rcases h with h | h
  · exact h hn.2.1
  · exact h hn.2.2

theorem tidyGap_touching {l : Lexeme} {p : Placed} (hgap : p.gap = []) (hl : l.op? = none)
    (hp : p.lexeme.op? = none) : tidyGap (some l) p = [] := if_pos ⟨hgap, hl, hp⟩

theorem tidyGap_apart {l : Lexeme} {p : Placed} (hgap : p.gap ≠ []) :
    tidyGap (some l) p = [' '] := if_neg fun h => hgap h.1

theorem head?_tidyAfter (before : Option Lexeme) (ls : List Placed) :
    (tidyAfter before ls).head? = ls.head?.map fun p => ⟨tidyGap before p, p.lexeme.tidy⟩ := by
  cases ls <;> rfl

/-- The lexeme before what follows `ls`, when `before` stands before `ls`. -/
def lastLexeme (before : Option Lexeme) : List Placed → Option Lexeme
  | [] => before
  | p :: rest => lastLexeme (some p.lexeme) rest

theorem exists_lastLexeme (before : Option Lexeme) {ls : List Placed} (h : ls ≠ []) :
    ∃ l, lastLexeme before ls = some l := by
  induction ls generalizing before with
  | nil => exact absurd rfl h
  | cons p rest ih =>
    by_cases hrest : rest = []
    · subst hrest
      exact ⟨p.lexeme, rfl⟩
    · exact ih (some p.lexeme) hrest

theorem lastLexeme_append (before : Option Lexeme) (a b : List Placed) :
    lastLexeme before (a ++ b) = lastLexeme (lastLexeme before a) b := by
  induction a generalizing before with
  | nil => rfl
  | cons p rest ih => exact ih (some p.lexeme)

/-- A keyword after another lexeme gets its two spaces. -/
theorem tidyAfter_keyword (l : Lexeme) (op : Op) (gap : Text) (ls : List Placed) :
    tidyAfter (some l) (⟨gap, op.lexeme⟩ :: ls) =
      ⟨[' '], op.lexeme⟩ :: tidyAfter (some op.lexeme) ls := by
  rw [tidyAfter, tidyGap_keyword (.inr op.op?_lexeme_ne_none), Lexeme.tidy_keyword op.op?_lexeme]

theorem tidyAfter_append (before : Option Lexeme) (a b : List Placed) :
    tidyAfter before (a ++ b) = tidyAfter before a ++ tidyAfter (lastLexeme before a) b := by
  induction a generalizing before with
  | nil => rfl
  | cons p rest ih => exact congrArg _ (ih (some p.lexeme))

theorem legible_tidyAfter (before : Option Lexeme) {ls : List Placed} (h : Legible ls) :
    Legible (tidyAfter before ls) := by
  induction ls generalizing before with
  | nil => exact .nil
  | cons p rest ih =>
    obtain ⟨_, hl, ha⟩ := h.head
    refine .cons (blank_tidyGap before p) (Lexeme.legible_tidy hl) ?_ (ih _ h.tail)
    intro q hq
    rw [head?_tidyAfter] at hq
    obtain ⟨r, hr, rfl⟩ := Option.map_eq_some_iff.mp hq
    have hpr := ha r hr
    refine ⟨by rw [Lexeme.isOpenLiteral_tidy]; exact hpr.closed, fun hpw hrw hgap => ?_⟩
    rw [Lexeme.isWord_tidy] at hpw hrw
    have hne := hpr.words hpw hrw
    simp [tidyGap, hne] at hgap

theorem tidied_tidyAfter (before : Option Lexeme) (ls : List Placed) :
    Tidied (tidyAfter before ls) := by
  induction ls generalizing before with
  | nil => exact ⟨(fun _ h => nomatch h), .nil⟩
  | cons p rest ih =>
    obtain ⟨hspelled, hspaced⟩ := ih (some p.lexeme)
    refine ⟨List.forall_mem_cons.mpr ⟨fun op hop => ?_, hspelled⟩, hspaced.cons fun q hq => ?_⟩
    · rw [Lexeme.op?_tidy] at hop
      exact Lexeme.tidy_keyword hop
    · rw [head?_tidyAfter] at hq
      obtain ⟨r, _, rfl⟩ := Option.map_eq_some_iff.mp hq
      simp only [Lexeme.op?_tidy]
      exact tidyGap_keyword

theorem endsInLiteral_tidyAfter (before : Option Lexeme) (ls : List Placed) :
    endsInLiteral (tidyAfter before ls) = endsInLiteral ls := by
  induction ls generalizing before with
  | nil => rfl
  | cons p ls ih => simp only [tidyAfter, endsInLiteral_cons, Lexeme.isOpenLiteral_tidy, ih]

theorem lexemes_tidyAfter (before : Option Lexeme) (ls : List Placed) :
    (tidyAfter before ls).map (·.lexeme) = ls.map (·.lexeme.tidy) := by
  induction ls generalizing before with
  | nil => rfl
  | cons p ls ih => exact congrArg _ (ih (some p.lexeme))

/-! ### The tidy text -/

theorem legible_tidyLex (s : Text) : Legible (tidyLex s) :=
  legible_tidyAfter none (legible_lex s)

theorem tidied_tidyLex (s : Text) : Tidied (tidyLex s) := tidied_tidyAfter none (lex s)

/-- **The tidy text is read back as the tidy lexemes.** -/
theorem lex_tidyText (s : Text) : lex (tidyText s) = tidyLex s := lex_render (legible_tidyLex s)

end AccessRules
