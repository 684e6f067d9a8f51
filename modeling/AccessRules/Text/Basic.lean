import AccessRules.Text.Blank

/-! Texts and what every part of the library does with them: trimming and measuring.

Rules are short and every reading of them goes from left to right, so a text is the
list of its characters and a scan is a recursion on that list. Offsets are reported
in UTF-8 bytes but never used to cut: a text is always cut by naming the pieces. -/
namespace AccessRules

/-- A text: its characters in order. -/
abbrev Text := List Char

namespace Text

/-- Drops the blanks at the front. -/
def trimStart (s : Text) : Text := s.dropWhile isBlank

/-- Drops the blanks at the end. -/
def trimEnd (s : Text) : Text := (s.reverse.dropWhile isBlank).reverse

/-- Drops the blanks at both ends. -/
def trim (s : Text) : Text := trimEnd (trimStart s)

/-- The number of bytes the text takes in UTF-8. -/
def byteSize : Text → Nat
  | [] => 0
  | c :: s => c.utf8Size + byteSize s

/-- The text as it stands in a message. -/
def shown (s : Text) : String := String.ofList s

end Text
end AccessRules
