import AccessRules.Grants
import AccessRules.Text.WordChar

/-! Auditing: which permissions and roles a text names, whether or not it is a rule.

The text is searched as it stands, from left to right, for the name of a check where
no word character comes before it, an opening parenthesis after blanks or none, and
the next closing parenthesis. Which characters are word characters is a parameter. The
search does not know literals, so names written in a literal are found too, and a literal
with a closing parenthesis is cut there. -/
namespace AccessRules

/-- The check whose name a text begins with, and what comes after the name. -/
def namedCheck? (s : Text) : Option (Check × Text) :=
  (Check.all.find? (·.name.toList.isPrefixOf s)).map fun check =>
    (check, s.drop check.name.length)

/-- A mention of a check: the text up to the next closing parenthesis, and what comes
after that. -/
structure Mention where
  check : Check
  args : Text
  after : Text

/-- The mention that a text begins with. -/
def mention? (s : Text) : Option Mention :=
  match namedCheck? s with
  | none => none
  | some (check, s) =>
    match s.dropWhile isBlank with
    | '(' :: s =>
      match s.dropWhile (· != ')') with
      | [] => none
      | _ :: after => some ⟨check, s.takeWhile (· != ')'), after⟩
    | _ => none

theorem length_le_of_namedCheck? {s rest : Text} {check : Check}
    (h : namedCheck? s = some (check, rest)) : rest.length ≤ s.length := by
  obtain ⟨c, _, hc⟩ := Option.map_eq_some_iff.1 h
  cases hc
  exact (List.drop_sublist _ s).length_le

theorem Mention.length_after_lt {s : Text} {m : Mention} (h : mention? s = some m) :
    m.after.length < s.length := by
  unfold mention? at h
  split at h
  · cases h
  · rename_i check rest hn
    have h₁ := length_le_of_namedCheck? hn
    have h₂ := (List.dropWhile_sublist (l := rest) isBlank).length_le
    split at h
    · rename_i t ht
      have h₃ := (List.dropWhile_sublist (l := t) (· != ')')).length_le
      split at h
      · cases h
      · rename_i a ha
        cases h
        simp only [ht, ha, List.length_cons] at h₂ h₃ ⊢
        omega
    · cases h

/-- The mentions in a text, left to right and apart, when the character before it is a
word character or not. -/
def mentionsFrom (words : WordChars) (afterWord : Bool) (s : Text) : List (Check × Text) :=
  match s with
  | [] => []
  | c :: s =>
    if afterWord then mentionsFrom words (words.has c) s
    else
      match h : mention? (c :: s) with
      | none => mentionsFrom words (words.has c) s
      | some m =>
        have := Mention.length_after_lt h
        (m.check, m.args) :: mentionsFrom words false m.after
termination_by s.length
decreasing_by
  · exact Nat.lt_succ_self _
  · exact Nat.lt_succ_self _
  · exact this

/-- The mentions in a text. -/
def mentions (words : WordChars) (s : Text) : List (Check × Text) := mentionsFrom words false s

/-- The text without the quotes at its ends, however many. -/
def stripQuotes (s : Text) : Text :=
  ((s.dropWhile isQuote).reverse.dropWhile isQuote).reverse

/-- The name a mention is about: its first parameter, without blanks and quotes. If a
literal was cut, the first parameter ends at the first comma of any kind. -/
def mentionedName (args : Text) : Text :=
  let first := match paramsIn args with
    | .ok params => params.head?.getD []
    | .error _ => args.takeWhile (· != ',')
  stripQuotes first.trim

/-- The names that a text mentions in one of these checks. -/
def namesIn (words : WordChars) (checks : List Check) (s : Text) : NameSet :=
  .ofList (((mentions words s).filter (checks.contains ·.1)).map (mentionedName ·.2)
    |>.filter (· ≠ []))

/-- The permissions and resources that a text names. -/
def permissionsIn (words : WordChars) (s : Text) : NameSet :=
  namesIn words [.permission, .resource] s

/-- The roles that a text names. -/
def rolesIn (words : WordChars) (s : Text) : NameSet := namesIn words [.role] s

end AccessRules
