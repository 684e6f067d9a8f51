import AccessRules.Lexeme.Lex

/-! The tidy layout of a text, in which everything after is read.

Keywords are in their own spelling. Two lexemes are one space apart if they were
apart before or one of them is a keyword, and touch otherwise. Nothing stands before
the first lexeme or after the last. Literals are left alone, except that one that is
never closed ends in no blank. -/
namespace AccessRules

/-- The lexeme in its own spelling. -/
def Lexeme.tidy : Lexeme → Lexeme
  | word letters => word (((Op.ofWord? letters).map (·.keyword.toList)).getD letters)
  | openLiteral quote content => openLiteral quote content.trimEnd
  | l => l

/-- The blanks of `p` when it follows `before`. -/
def tidyGap (before : Option Lexeme) (p : Placed) : Text :=
  match before with
  | none => []
  | some l => if p.gap = [] ∧ l.op? = none ∧ p.lexeme.op? = none then [] else [' ']

/-- The tidy layout of lexemes that follow `before`. -/
def tidyAfter (before : Option Lexeme) : List Placed → List Placed
  | [] => []
  | p :: rest => ⟨tidyGap before p, p.lexeme.tidy⟩ :: tidyAfter (some p.lexeme) rest

/-- The tidy layout of a text's lexemes. -/
def tidy (ls : List Placed) : List Placed := tidyAfter none ls

/-- The lexemes of a text in tidy layout. -/
def tidyLex (s : Text) : List Placed := tidy (lex s)

/-- The text in tidy layout. -/
def tidyText (s : Text) : Text := render (tidyLex s)

end AccessRules
