import AccessRules.Expr.Op

/-! Lexemes: the smallest parts of a rule's text that mean something.

Outside literals a text is made of words, parentheses, commas and the blanks between
them. A literal runs from a quote to the next quote of the same kind, and nothing in
it is a word, a parenthesis or a comma. A literal that is never closed runs to the
end of the text. -/
namespace AccessRules

/-- The two characters that delimit a literal. -/
def isQuote (c : Char) : Bool := c == '\'' || c == '"'

/-- A character that words are made of. -/
def isBare (c : Char) : Bool :=
  !(isBlank c || c == '(' || c == ')' || c == ',' || isQuote c)

/-- A part of a text that cannot be cut further. -/
inductive Lexeme
  | word (letters : Text)
  | opening
  | closing
  | comma
  | literal (quote : Char) (content : Text)
  | openLiteral (quote : Char) (content : Text)
  deriving DecidableEq

namespace Lexeme

/-- The lexeme as written. -/
def text : Lexeme → Text
  | word letters => letters
  | opening => ['(']
  | closing => [')']
  | comma => [',']
  | literal quote content => quote :: (content ++ [quote])
  | openLiteral quote content => quote :: content

/-- The operator the lexeme is the keyword of. -/
def op? : Lexeme → Option Op
  | word letters => Op.ofWord? letters
  | _ => none

/-- Whether the lexeme is a literal that is never closed. -/
def isOpenLiteral : Lexeme → Bool
  | openLiteral _ _ => true
  | _ => false

end Lexeme

/-- A lexeme with the blanks before it. -/
structure Placed where
  gap : Text
  lexeme : Lexeme
  deriving DecidableEq

/-- The lexeme as written, after its blanks. -/
def Placed.text (p : Placed) : Text := p.gap ++ p.lexeme.text

/-- The text of placed lexemes, blanks included. -/
def render (ls : List Placed) : Text := ls.flatMap Placed.text

/-- The text of placed lexemes from the first lexeme on, without the blanks before it. -/
def phrase : List Placed → Text
  | [] => []
  | p :: rest => p.lexeme.text ++ render rest

@[simp]
theorem render_nil : render [] = [] := rfl

@[simp]
theorem render_cons (p : Placed) (rest : List Placed) :
    render (p :: rest) = p.gap ++ p.lexeme.text ++ render rest := rfl

theorem render_append (a b : List Placed) : render (a ++ b) = render a ++ render b := by
  simp [render]

end AccessRules
