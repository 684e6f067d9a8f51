import AccessRules.Lexeme.Basic

/-! Cutting a text into lexemes.

`lex` keeps every character but the blanks at the end of the text. It goes from left
to right and only has to know whether it is inside a literal: a blank joins the gap of
what follows, and a letter joins the word that follows at once. -/
namespace AccessRules

/-- Where a reading stands: outside literals, or inside one, with what it has read of
its content, the last character first. -/
inductive Quoting
  | outside
  | inside (quote : Char) (reversed : Text)

/-- Puts a blank before the first lexeme; blanks before nothing are dropped. -/
def addBlank (c : Char) : List Placed → List Placed
  | [] => []
  | p :: rest => ⟨c :: p.gap, p.lexeme⟩ :: rest

/-- Puts a letter in front: it joins a word that follows at once, or is a word. -/
def addLetter (c : Char) : List Placed → List Placed
  | ⟨[], .word letters⟩ :: rest => ⟨[], .word (c :: letters)⟩ :: rest
  | ls => ⟨[], .word [c]⟩ :: ls

/-- The lexemes of a text that begins as `quoting` says. -/
def lexFrom : Quoting → Text → List Placed
  | .outside, [] => []
  | .inside quote reversed, [] => [⟨[], .openLiteral quote reversed.reverse⟩]
  | .inside quote reversed, c :: s =>
    if c = quote then ⟨[], .literal quote reversed.reverse⟩ :: lexFrom .outside s
    else lexFrom (.inside quote (c :: reversed)) s
  | .outside, c :: s =>
    if isBlank c then addBlank c (lexFrom .outside s)
    else if c = '(' then ⟨[], .opening⟩ :: lexFrom .outside s
    else if c = ')' then ⟨[], .closing⟩ :: lexFrom .outside s
    else if c = ',' then ⟨[], .comma⟩ :: lexFrom .outside s
    else if isQuote c then lexFrom (.inside c []) s
    else addLetter c (lexFrom .outside s)

/-- The lexemes of a text, each with the blanks before it. -/
def lex (s : Text) : List Placed := lexFrom .outside s

/-- Whether the text of these lexemes ends inside a literal. -/
def endsInLiteral (ls : List Placed) : Bool := ls.any (·.lexeme.isOpenLiteral)

end AccessRules
