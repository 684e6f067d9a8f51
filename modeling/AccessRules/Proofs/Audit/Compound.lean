import AccessRules.Proofs.Audit.Names
import AccessRules.Proofs.Grammar.Alternatives

/-! Auditing rules that are put together.

A rule that is read is spelled as calls, with keywords and parentheses around them. So is
what operators and parentheses make of such rules (`spelled_joined`, `spelled_enclosed`,
`spelled_negated`), even if it nests too deep to be read itself. As the search finds one call
after the other, whatever their literals hold, it finds in the whole what it finds in each of
the parts, in order and nothing else. `audit_compound` says what this comes to for the names. -/
namespace AccessRules

/-! ### Spelling -/

section Texts
variable {s s' : Text} {os os' : List Occurrence} (hs : Spelled (lex s) os)
include hs

theorem spelled_enclosed : Spelled (lex ('(' :: (s ++ [')']))) os := by
  have hlex := lex_render (legible_enclosed blank_nil hs.closed)
  rw [render_enclosed, List.nil_append] at hlex
  rw [hlex]
  exact .mark (.inl rfl) (hs.close (lastBlanks s))

theorem spelled_negated :
    Spelled (lex (Op.not.keyword.toList ++ ' ' :: '(' :: (s ++ [')']))) os := by
  have hlex := lex_render (legible_negated hs.closed)
  rw [render_cons, render_enclosed] at hlex
  show Spelled (lex ([] ++ Op.not.lexeme.text ++ ([' '] ++ '(' :: (s ++ [')'])))) os
  rw [hlex]
  exact .mark Op.not.mark_lexeme (.mark (.inl rfl) (hs.close (lastBlanks s)))

theorem spelled_joined (hs' : Spelled (lex s') os') (hne : lex s' ≠ []) (op : Op) :
    Spelled (lex (s ++ ' ' :: (op.keyword.toList ++ ' ' :: s'))) (os ++ os') := by
  rw [lex_joined op hs.closed hne]
  exact hs.append (.mark op.mark_lexeme (hs'.addBlank ' '))

end Texts

/-! ### Mentions -/

section Mentions
variable (words : WordChars) {s s' : Text} {os os' : List Occurrence} (hs : Spelled (lex s) os)
include hs

theorem mentions_enclosed : mentions words ('(' :: (s ++ [')'])) = mentions words s := by
  rw [mentions_of_spelled (spelled_enclosed hs), mentions_of_spelled hs]

theorem mentions_negated :
    mentions words (Op.not.keyword.toList ++ ' ' :: '(' :: (s ++ [')'])) = mentions words s := by
  rw [mentions_of_spelled (spelled_negated hs), mentions_of_spelled hs]

/-- **No mention crosses the operator between two rules**, nor does one of the first rule hide
one of the second. -/
theorem mentions_joined (hs' : Spelled (lex s') os') (hne : lex s' ≠ []) (op : Op) :
    mentions words (s ++ ' ' :: (op.keyword.toList ++ ' ' :: s')) =
      mentions words s ++ mentions words s' := by
  rw [mentions_of_spelled (spelled_joined hs hs' hne op), mentions_of_spelled hs,
    mentions_of_spelled hs', List.flatMap_append]

end Mentions

/-! ### Names -/

section Names
variable {words : WordChars} {s s' t : Text}

theorem namesIn_congr (h : mentions words t = mentions words s) (checks : List Check) :
    namesIn words checks t = namesIn words checks s := by
  rw [namesIn, namesIn, h]

theorem namesIn_union (h : mentions words t = mentions words s ++ mentions words s')
    (checks : List Check) :
    (namesIn words checks t).Equiv (namesIn words checks s ∪ namesIn words checks s') := by
  apply Std.TreeSet.Equiv.of_forall_mem_iff
  intro x
  rw [Std.TreeSet.mem_union_iff, mem_namesIn, mem_namesIn, mem_namesIn, h, ← and_or_left]
  simp only [List.mem_append, or_and_right, exists_or]

end Names

/-- **The audit of a compound rule is the union of the audits of its parts.** When two texts
are read, whatever their literals hold, the roles and permissions found in their conjunction,
their disjunction, or the conjunction of the two in parentheses are those found in one or the
other; and parentheses and a negation change nothing of what is found. -/
theorem audit_compound (words : WordChars) {s s' : Text} {e e' : Expr} (h : parse s = .ok e)
    (h' : parse s' = .ok e') : ∀ names ∈ [rolesIn words, permissionsIn words],
      (names (s ++ " AND ".toList ++ s')).Equiv (names s ∪ names s') ∧
      (names (s ++ " OR ".toList ++ s')).Equiv (names s ∪ names s') ∧
      (names ("(".toList ++ s ++ ") AND (".toList ++ s' ++ ")".toList)).Equiv
        (names s ∪ names s') ∧
      names ("(".toList ++ s ++ ")".toList) = names s ∧
      names ("NOT (".toList ++ s ++ ")".toList) = names s := by
  obtain ⟨os, hos, -⟩ := spelled_of_parse h
  obtain ⟨os', hos', -⟩ := spelled_of_parse h'
  have hne : lex s' ≠ [] := lex_ne_nil_of_parse h'
  intro names hnames
  obtain ⟨checks, rfl⟩ : ∃ checks, names = namesIn words checks := by
    rcases List.mem_pair.mp hnames with rfl | rfl
    · exact ⟨[.role], rfl⟩
    · exact ⟨[.permission, .resource], rfl⟩
  refine ⟨?_, ?_, ?_, ?_, ?_⟩
  · have hand := namesIn_union (mentions_joined words hos hos' hne .and) checks
    simpa [Op.keyword] using hand
  · have hor := namesIn_union (mentions_joined words hos hos' hne .or) checks
    simpa [Op.keyword] using hor
  · have hne' : lex ('(' :: (s' ++ [')'])) ≠ [] := by
      rw [lex_opening]
      exact List.cons_ne_nil _ _
    have hmentions :=
      mentions_joined words (spelled_enclosed hos) (spelled_enclosed hos') hne' .and
    rw [mentions_enclosed words hos, mentions_enclosed words hos'] at hmentions
    have hand := namesIn_union hmentions checks
    simpa [Op.keyword] using hand
  · have henclosed := namesIn_congr (mentions_enclosed words hos) checks
    simpa using henclosed
  · have hnegated := namesIn_congr (mentions_negated words hos) checks
    simpa [Op.keyword] using hnegated

theorem audit_compound_stray :
    let s := "hasPermission('a', ') hasRole(B)')".toList
    let s' := "not hasRole(')hasRole(') or hasResourcePermission( d , read)".toList
    let e := Expr.call .permission ["'a'".toList, "') hasRole(B)'".toList]
    let e' := Expr.or (.not (.call .role ["')hasRole('".toList]))
      (.call .resource ["d".toList, "read".toList])
    let compound (names : Text → NameSet) :=
      (names (s ++ " AND ".toList ++ s')).Equiv (names s ∪ names s') ∧
      (names (s ++ " OR ".toList ++ s')).Equiv (names s ∪ names s') ∧
      (names ("(".toList ++ s ++ ") AND (".toList ++ s' ++ ")".toList)).Equiv
        (names s ∪ names s') ∧
      names ("(".toList ++ s ++ ")".toList) = names s ∧
      names ("NOT (".toList ++ s ++ ")".toList) = names s
    parse s = .ok e ∧ parse s' = .ok e' ∧ "B".toList ∈ rolesIn .unicode16 s ∧
      "d".toList ∈ permissionsIn .unicode16 s' ∧
      compound (rolesIn .unicode16) ∧ compound (permissionsIn .unicode16) := by
  intro s s' e e' compound
  have h : parse s = .ok e := by decide +kernel
  have h' : parse s' = .ok e' := by decide +kernel
  have hcompound := audit_compound .unicode16 h h'
  exact ⟨h, h', by decide +kernel, by decide +kernel, hcompound (rolesIn .unicode16) (by simp),
    hcompound (permissionsIn .unicode16) (by simp)⟩

end AccessRules
