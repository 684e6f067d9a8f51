import AccessRules.Lexeme.Group

/-! Calls in a text: every `name(args)` in it, well formed or not.

A name is the end of a word: a longest run of ASCII letters, digits and `_` that
starts with no digit and is no keyword. What a call holds between its parentheses is
not looked through for further calls. -/
namespace AccessRules

/-- A character that names are made of. -/
def isNameChar (c : Char) : Bool := c.isAlphanum || c == '_'

/-- Whether a text is a name: name characters only, and no digit first. -/
def isName : Text → Bool
  | [] => false
  | c :: s => (c.isAlpha || c == '_') && s.all isNameChar

/-- The longest run of name characters at the end of a word. -/
def nameEnd (word : Text) : Text := (word.reverse.takeWhile isNameChar).reverse

/-- What comes before that run. -/
def beforeNameEnd (word : Text) : Text := (word.reverse.dropWhile isNameChar).reverse

/-- A call in a text: its name, the text between its parentheses unless they never
close, and the offset of the name in UTF-8 bytes. -/
structure Call where
  name : Text
  args : Option Text
  start : Nat
  deriving DecidableEq

/-- The name at the end of the lexeme that an opening parenthesis makes a call of, and
what is before it in the lexeme. -/
def Lexeme.callee? : Lexeme → Option (Text × Text)
  | word letters =>
    if isName (nameEnd letters) ∧ Op.ofWord? (nameEnd letters) = none then
      some (beforeNameEnd letters, nameEnd letters)
    else none
  | _ => none

/-- The calls among lexemes that begin `offset` bytes into the text. -/
def callsFrom (offset : Nat) : List Placed → List Call
  | [] => []
  | [_] => []
  | p :: q :: rest =>
    match q.lexeme, p.lexeme.callee? with
    | .opening, some (before, name) =>
      let start := offset + p.gap.byteSize + before.byteSize
      match h : closeGroup? 0 rest with
      | none => [⟨name, none, start⟩]
      | some g =>
        have := length_after_lt h
        let used := p.text.byteSize + q.text.byteSize + g.text.byteSize + 1
        ⟨name, some g.text, start⟩ :: callsFrom (offset + used) g.after
    | _, _ => callsFrom (offset + p.text.byteSize) (q :: rest)
termination_by ls => ls.length
decreasing_by
  all_goals simp only [List.length_cons]
  all_goals omega

/-- The calls of a text, from left to right. -/
def callsIn (s : Text) : List Call := callsFrom 0 (lex s)

end AccessRules
