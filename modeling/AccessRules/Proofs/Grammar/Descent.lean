import AccessRules.Proofs.Grammar.Reading

/-! The pieces that a reading comes to, and where it stops.

A piece hands on the inside of a group or the operands of its operator, each with a level
less (`HandsOn`); an operand on the right only when the one on the left has been read. So
the pieces come in the order of the reading (`Comes`, `Reaches`), and the first that cannot be
read ends it: the error of a piece is the one with which a piece it comes to stops by
itself (`readPiece_eq_error`, `parse_eq_error`). Every piece is balanced and in tidy layout,
wherever it was cut out (`Comes.wellCut`). -/
namespace AccessRules

/-! ### Pieces and their parts -/

/-- A part of `piece` that is read with `n` levels when `piece` is read with one more. -/
inductive HandsOn (n : Nat) (piece : List Placed) : List Placed → Prop
  | group {inside : List Placed} (h : wholeGroup? piece = some inside) : HandsOn n piece inside
  | operand {r : List Placed} (h : cut? piece = some (.not, [], r)) (hr : r ≠ []) :
    HandsOn n piece r
  | left {op : Op} {l r : List Placed} (hop : op ≠ .not) (h : cut? piece = some (op, l, r))
    (hl : l ≠ []) (hr : r ≠ []) : HandsOn n piece l
  | right {op : Op} {l r : List Placed} {e : Expr} (hop : op ≠ .not)
    (h : cut? piece = some (op, l, r)) (hl : l ≠ []) (hr : r ≠ []) (hread : readPiece n l = .ok e) :
    HandsOn n piece r

/-- Reading a piece with so many levels comes to read another with so many levels. -/
inductive Comes : Nat → List Placed → Nat → List Placed → Prop
  | here {n : Nat} {piece : List Placed} : Comes n piece n piece
  | on {n m : Nat} {piece part last : List Placed} (h : HandsOn n piece part)
    (rest : Comes n part m last) : Comes (n + 1) piece m last

/-- The operator cannot stand between these sides. -/
def Op.Misplaced (op : Op) (l r : List Placed) : Prop :=
  match op with
  | .not => l ≠ [] ∨ r = []
  | _ => l = [] ∨ r = []

/-- The error with which a piece stops the reading by itself, and not by one of its parts. -/
inductive StopsAt : Nat → List Placed → ParseError → Prop
  | tooDeep (piece : List Placed) : StopsAt 0 piece (.nestingTooDeep maxNesting)
  | emptyGroup {n : Nat} : StopsAt (n + 1) [] .emptyGroup
  | operator {n : Nat} {piece l r : List Placed} {op : Op} (h : cut? piece = some (op, l, r))
    (hop : op.Misplaced l r) : StopsAt (n + 1) piece (.misplacedOperator op)
  | call {n : Nat} {piece : List Placed} {err : ParseError} (hne : piece ≠ [])
    (hw : wholeGroup? piece = none) (hcut : cut? piece = none) (h : readCall piece = .error err) :
    StopsAt (n + 1) piece err

/-! ### Errors -/

/-- A part that cannot be read ends the reading of the piece. -/
theorem HandsOn.error {n : Nat} {piece part : List Placed} {err : ParseError}
    (h : HandsOn n piece part) (herr : readPiece n part = .error err) :
    readPiece (n + 1) piece = .error err := by
  cases h with
  | group h => rw [readPiece_group h, herr]
  | operand h hr =>
    rw [readPiece_not h hr, herr]
    rfl
  | left hop h hl hr =>
    rw [readPiece_op hop h hl hr, herr]
    rfl
  | right hop h hl hr hread =>
    rw [readPiece_op hop h hl hr, hread, herr]
    rfl

theorem readPiece_misplaced {n : Nat} {piece l r : List Placed} {op : Op}
    (h : cut? piece = some (op, l, r)) (hop : op.Misplaced l r) :
    readPiece (n + 1) piece = .error (.misplacedOperator op) := by
  rw [readPiece_cut h]
  cases op with
  | not =>
    refine (if_pos rfl).trans (if_neg fun hlr => ?_)
    rcases hop with hl | hr
    · exact hl hlr.1
    · exact hlr.2 hr
  | and | or => exact (if_neg nofun).trans (if_pos hop)

theorem StopsAt.error {n : Nat} {piece : List Placed} {err : ParseError}
    (h : StopsAt n piece err) : readPiece n piece = .error err := by
  cases h with
  | tooDeep => rfl
  | emptyGroup => rfl
  | operator h hop => exact readPiece_misplaced h hop
  | call hne hw hcut h => rw [readPiece_call hne hw hcut, h]

theorem error_or_ok_of_bind_eq_error {ε α β : Type} {x : Except ε α} {f : α → Except ε β}
    {err : ε} (h : x >>= f = .error err) :
    x = .error err ∨ ∃ a, x = .ok a ∧ f a = .error err := by
  cases x with
  | error e =>
    cases h
    exact .inl rfl
  | ok a => exact .inr ⟨a, rfl, h⟩

/-- What one level does with a piece that cannot be read. -/
theorem stopsAt_or_handsOn {n : Nat} {piece : List Placed} {err : ParseError}
    (h : readPiece (n + 1) piece = .error err) :
    StopsAt (n + 1) piece err ∨ ∃ part, HandsOn n piece part ∧ readPiece n part = .error err := by
  by_cases hne : piece = []
  · subst hne
    cases h
    exact .inl .emptyGroup
  cases hw : wholeGroup? piece with
  | some inside =>
    rw [readPiece_group hw] at h
    exact .inr ⟨inside, .group hw, h⟩
  | none =>
    rcases hcut : cut? piece with _ | ⟨op, l, r⟩
    · rw [readPiece_call hne hw hcut] at h
      exact .inl (.call hne hw hcut h)
    · by_cases hop : op.Misplaced l r
      · rw [readPiece_misplaced hcut hop] at h
        cases h
        exact .inl (.operator hcut hop)
      · right
        cases op with
        | not =>
          obtain ⟨hl, hr⟩ := not_or.mp hop
          rw [not_not.mp hl] at hcut
          rw [readPiece_not hcut hr] at h
          rcases error_or_ok_of_bind_eq_error h with h | ⟨e, _, h⟩
          · exact ⟨r, .operand hcut hr, h⟩
          · cases h
        | and | or =>
          obtain ⟨hl, hr⟩ := not_or.mp hop
          rw [readPiece_op (by decide) hcut hl hr] at h
          rcases error_or_ok_of_bind_eq_error h with h | ⟨el, hel, h⟩
          · exact ⟨l, .left (by decide) hcut hl hr, h⟩
          rcases error_or_ok_of_bind_eq_error h with h | ⟨er, _, h⟩
          · exact ⟨r, .right (by decide) hcut hl hr hel, h⟩
          · cases h

/-- **A piece cannot be read exactly if the reading comes to a piece where it stops.** -/
theorem readPiece_eq_error {n : Nat} {piece : List Placed} {err : ParseError} :
    readPiece n piece = .error err ↔ ∃ m part, Comes n piece m part ∧ StopsAt m part err := by
  constructor
  · intro h
    induction n generalizing piece with
    | zero =>
      cases h
      exact ⟨0, piece, .here, .tooDeep piece⟩
    | succ n ih =>
      rcases stopsAt_or_handsOn h with hstop | ⟨part, hpart, herr⟩
      · exact ⟨n + 1, piece, .here, hstop⟩
      · obtain ⟨m, last, hcomes, hstop⟩ := ih herr
        exact ⟨m, last, .on hpart hcomes, hstop⟩
  · rintro ⟨m, part, hcomes, hstop⟩
    induction hcomes with
    | here => exact hstop.error
    | on h _ ih => exact h.error (ih hstop)

/-! ### What every piece is -/

theorem HandsOn.wellCut {n : Nat} {piece part : List Placed} (h : HandsOn n piece part)
    (hp : WellCut piece) : WellCut part := by
  have sides {op : Op} {l r : List Placed} (h : cut? piece = some (op, l, r)) :
      WellCut l ∧ WellCut r := by
    obtain ⟨-, -, -, -, -, hl, hr⟩ := hp.cut (cut?_eq_some.mp h).1
    exact ⟨hl, hr⟩
  cases h with
  | group h =>
    obtain ⟨before, after, rfl, hnest⟩ := wholeGroup?_eq_some.mp h
    exact hp.inside hnest
  | operand h hr => exact (sides h).2
  | left hop h hl hr => exact (sides h).1
  | right hop h hl hr hread => exact (sides h).2

/-- **Every piece that a reading comes to is balanced and in tidy layout.** -/
theorem Comes.wellCut {n m : Nat} {piece part : List Placed} (h : Comes n piece m part)
    (hp : WellCut piece) : WellCut part := by
  induction h with
  | here => exact hp
  | on h _ ih => exact ih (h.wellCut hp)

/-! ### Texts -/

/-- Reading the text comes to this piece with so many levels. -/
structure Reaches (s : Text) (n : Nat) (piece : List Placed) : Prop where
  ne_nil : tidyLex s ≠ []
  balanced : Balanced (tidyLex s)
  comes : Comes (maxNesting + 1) (tidyLex s) n piece

theorem Reaches.wellCut {s : Text} {n : Nat} {piece : List Placed} (h : Reaches s n piece) :
    WellCut piece :=
  h.comes.wellCut ⟨legible_tidyLex s, tidied_tidyLex s, h.balanced⟩

theorem Reaches.error {s : Text} {n : Nat} {piece : List Placed} {err : ParseError}
    (h : Reaches s n piece) (hstop : StopsAt n piece err) : parse s = .error err := by
  rw [parse_eq_readPiece h.ne_nil h.balanced]
  exact readPiece_eq_error.mpr ⟨n, piece, h.comes, hstop⟩

/-- **Why a text is not read**: it has no lexemes, its parentheses or literals do not close,
or the reading comes to a piece where it stops. -/
theorem parse_eq_error {s : Text} {err : ParseError} (h : parse s = .error err) :
    (tidyLex s = [] ∧ err = .empty) ∨
    (¬ Balanced (tidyLex s) ∧
      (err = .unbalancedParentheses ∨ err = .unterminatedLiteral (tidyText s))) ∨
    ∃ n piece, Reaches s n piece ∧ StopsAt n piece err := by
  by_cases hne : tidyLex s = []
  · left
    simp only [parse, hne] at h
    cases h
    exact ⟨hne, rfl⟩
  right
  by_cases hb : Balanced (tidyLex s)
  · right
    rw [parse_eq_readPiece hne hb] at h
    obtain ⟨n, piece, hcomes, hstop⟩ := readPiece_eq_error.mp h
    exact ⟨n, piece, ⟨hne, hb, hcomes⟩, hstop⟩
  · left
    refine ⟨hb, ?_⟩
    simp only [parse, if_neg hne] at h
    split at h
    · rename_i hbalance
      exact absurd (balance_eq_balanced.mp hbalance) hb
    · cases h
      exact .inr rfl
    · cases h
      exact .inl rfl
    · cases h
      exact .inl rfl

/-- A reading that ends in another error than those of the whole text stops at a piece. -/
theorem exists_stopsAt {s : Text} {err : ParseError} (h : parse s = .error err)
    (hempty : err ≠ .empty) (hgroups : err ≠ .unbalancedParentheses)
    (hliteral : err ≠ .unterminatedLiteral (tidyText s)) :
    ∃ n piece, Reaches s n piece ∧ StopsAt n piece err := by
  rcases parse_eq_error h with ⟨-, herr⟩ | ⟨-, herr | herr⟩ | hstop
  · exact absurd herr hempty
  · exact absurd herr hgroups
  · exact absurd herr hliteral
  · exact hstop

end AccessRules
