import AccessRules.Lexeme.Lex

/-! Parentheses among lexemes: whether they match, and what a group holds.

Parentheses in literals are no lexemes, so nothing here looks at quotes. -/
namespace AccessRules

/-- The number of open groups after the lexeme, when `depth` are open before it; none
if it closes a group that is not open. -/
def Lexeme.nest? : Lexeme → Nat → Option Nat
  | opening, depth => some (depth + 1)
  | closing, 0 => none
  | closing, depth + 1 => some depth
  | _, depth => some depth

/-- How the parentheses of a text stand. -/
inductive Balance
  | balanced
  | unmatchedClose
  | unmatchedOpen (count : Nat)
  | openLiteral
  deriving DecidableEq

/-- How the parentheses stand when `depth` groups are open before `ls`. A close without
an open is found before anything after it; a literal that is never closed hides
what is still open. -/
def balanceFrom : Nat → List Placed → Balance
  | 0, [] => .balanced
  | depth + 1, [] => .unmatchedOpen (depth + 1)
  | depth, p :: rest =>
    if p.lexeme.isOpenLiteral then .openLiteral
    else match p.lexeme.nest? depth with
      | none => .unmatchedClose
      | some depth' => balanceFrom depth' rest

/-- How the parentheses of a text stand. -/
def balance (ls : List Placed) : Balance := balanceFrom 0 ls

/-- A group that is closed: what is in it, the blanks before its close, and what
comes after. -/
structure Group where
  inside : List Placed
  lastGap : Text
  after : List Placed

namespace Group

/-- Puts a lexeme at the front of what is in the group. -/
def add (p : Placed) (g : Group) : Group := ⟨p :: g.inside, g.lastGap, g.after⟩

/-- The text between the group's parentheses. -/
def text (g : Group) : Text := render g.inside ++ g.lastGap

end Group

/-- The group that `ls` begins inside of, when `depth` further groups are open in it;
none if it is never closed. -/
def closeGroup? : Nat → List Placed → Option Group
  | _, [] => none
  | depth, p :: rest =>
    match p.lexeme.nest? depth with
    | none => some ⟨[], p.gap, rest⟩
    | some depth' => (closeGroup? depth' rest).map (·.add p)

/-- What comes after a group is shorter than what was read. -/
theorem length_after_lt {depth : Nat} {ls : List Placed} {g : Group}
    (h : closeGroup? depth ls = some g) : g.after.length < ls.length := by
  induction ls generalizing depth g with
  | nil => simp [closeGroup?] at h
  | cons p rest ih =>
    rw [closeGroup?] at h
    split at h
    · cases h
      exact Nat.lt_succ_self _
    · obtain ⟨g', hg', rfl⟩ := Option.map_eq_some_iff.1 h
      exact Nat.lt_succ_of_lt (ih (g := g') hg')

end AccessRules
