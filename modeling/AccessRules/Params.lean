import AccessRules.Lexeme.Lex
import AccessRules.ParseError

/-! Parameters: how the text between the parentheses of a call is divided.

Commas outside literals divide it. A parameter loses the blanks at its ends and
keeps its quotes. A last parameter that is empty does not count, so that no text is
no parameters and a comma may stand at the end; an empty one elsewhere counts. -/
namespace AccessRules

/-- The lexemes divided at the commas: one part more than there are commas. -/
def fields : List Placed → List (List Placed)
  | [] => [[]]
  | p :: rest =>
    if p.lexeme = .comma then [] :: fields rest
    else match fields rest with
      | [] => [[p]]
      | first :: others => (p :: first) :: others

/-- The texts of the parts, the last one left out if it is empty. -/
def paramTexts : List (List Placed) → List Text
  | [] => []
  | [last] => if last = [] then [] else [phrase last]
  | field :: others => phrase field :: paramTexts others

/-- The parameters that lexemes between parentheses are. -/
def params (ls : List Placed) : List Text := paramTexts (fields ls)

/-- The parameters of a text between parentheses. -/
def paramsIn (args : Text) : Except ParseError (List Text) :=
  let ls := lex args
  if endsInLiteral ls then .error (.unterminatedLiteral args.trim) else .ok (params ls)

/-- The content of a parameter: without the blanks at its ends and then without one
pair of equal quotes around it, if there is one. -/
def unquote (param : Text) : Text :=
  match param.trim with
  | [] => []
  | [c] => [c]
  | c :: d :: s =>
    let inner := d :: s
    if isQuote c ∧ inner.getLast? = some c then inner.dropLast else c :: inner

end AccessRules
