import AccessRules.Proofs.Offsets.Boundaries
import AccessRules.Proofs.Offsets.Depth
import AccessRules.Proofs.Offsets.Parentheses
import AccessRules.Proofs.Offsets.Reading

/-! The pieces that a text is read in.

Parentheses and quotes are checked once, in the whole text. What is read after that are pieces
of it: the inside of a group, or what stands on a side of a keyword, with the blanks around it
trimmed off. `PieceOf` names all the texts that reading can come to (`readLevel?_congr`). Each
step from a piece to a part of it keeps what the check has found and the tidy layout, and does
not cut a word (`PartOf.step`), and so each piece is in order as the whole text is
(`pieces_in_order`). -/
namespace AccessRules

/-- `v` is what the group `u` holds, or stands on a side of the keyword that `u` is cut at. -/
inductive PartOf (u : Text) : (v : Text) → Prop
  | inside {v : Text} (h : outerGroup? u.trim = some (some v)) : PartOf u v
  | left {op : Op} {i : Nat} {l r : Text} (hsplit : findSplit? u.trim = some (some (op, i)))
    (hsides : sides? u.trim op i = some (l, r)) (hl : l ≠ []) : PartOf u l
  | right {op : Op} {i : Nat} {l r : Text} (hsplit : findSplit? u.trim = some (some (op, i)))
    (hsides : sides? u.trim op i = some (l, r)) (hr : r ≠ []) : PartOf u r

/-- `u` is a piece of `s`: its tidy text, if the parentheses and the quotes of that match, or part
of a piece. -/
inductive PieceOf (s : Text) : (u : Text) → Prop
  | whole (hne : tidyText s ≠ []) (hbalance : balance (lex (tidyText s)) = .balanced) :
    PieceOf s (tidyText s)
  | part {u v : Text} (hu : PieceOf s u) (hv : PartOf u v) : PieceOf s v

/-! ### What is read -/

/-- One level of reading, with `read` for the levels below. -/
def readLevel? (read : Text → ExceptT ParseError Option Expr) (s : Text) :
    ExceptT ParseError Option Expr :=
  if s.trim = [] then throw .emptyGroup
  else do
    match ← outerGroup? s.trim with
    | some inside => read inside
    | none =>
      match ← findSplit? s.trim with
      | none => ExceptT.mk (readCallAt? s.trim)
      | some (op, i) =>
        let (left, right) ← sides? s.trim op i
        if op = .not then
          if left = [] ∧ right ≠ [] then return .not (← read right)
          else throw (.misplacedOperator .not)
        else if left = [] ∨ right = [] then throw (.misplacedOperator op)
        else return .op op (← read left) (← read right)

theorem readAt?_succ (n : Nat) (u : Text) : readAt? (n + 1) u = readLevel? (readAt? n) u := rfl

/-- Only the parts of a text are read on. -/
theorem readLevel?_congr {u : Text} {read read' : Text → ExceptT ParseError Option Expr}
    (h : ∀ v, PartOf u v → read v = read' v) : readLevel? read u = readLevel? read' u := by
  rw [readLevel?, readLevel?]
  split
  · rfl
  · cases hgroup : outerGroup? u.trim with
    | none => rfl
    | some group =>
      rw [lift_bind, lift_bind]
      cases group with
      | some inside => exact h inside (.inside hgroup)
      | none =>
        cases hsplit : findSplit? u.trim with
        | none => rfl
        | some split =>
          simp only [lift_bind]
          cases split with
          | none => rfl
          | some cut =>
            obtain ⟨op, i⟩ := cut
            dsimp only
            cases hsides : sides? u.trim op i with
            | none => rfl
            | some sides =>
              obtain ⟨l, r⟩ := sides
              simp only [lift_bind]
              split
              · split
                · rename_i hlr
                  rw [h r (.right hsplit hsides hlr.2)]
                · rfl
              · split
                · rfl
                · rename_i hlr
                  obtain ⟨hl, hr⟩ := not_or.mp hlr
                  rw [h l (.left hsplit hsides hl), h r (.right hsplit hsides hr)]

/-! ### What every piece is -/

theorem phrase_append {a : List Placed} (ha : a ≠ []) (b : List Placed) :
    phrase (a ++ b) = phrase a ++ render b := by
  obtain ⟨p, a, rfl⟩ := List.exists_cons_of_ne_nil ha
  simp [phrase, render_append]

section Cut
variable {piece : List Placed} (h : WellCut piece)
include h

theorem lex_phrase : lex (phrase piece) = flush piece := by
  rw [← render_flush, lex_render h.flush.legible]

theorem wellCut_phrase : WellCut (lex (phrase piece)) := by
  rw [lex_phrase h]
  exact h.flush

theorem closed_phrase : openQuote (phrase piece) = none :=
  endsInLiteral_lex_eq_false.mp (wellCut_phrase h).balanced.literals

variable {op : Op} {l r : List Placed} (hcut : cutAt? op 0 piece = some (l, r))
include hcut

theorem standsIn_left (hne : l ≠ []) : ∃ after, StandsIn (phrase piece) [] (phrase l) after := by
  obtain ⟨gap, hpiece, -, hgap, -⟩ := h.cut hcut
  refine ⟨_, by rw [hpiece, phrase_append hne]; rfl, rfl, nofun, fun c hc => ?_⟩
  rw [render_cons, hgap hne] at hc
  cases hc
  rfl

theorem standsIn_right (hne : r ≠ []) : ∃ before, StandsIn (phrase piece) before (phrase r) [] := by
  obtain ⟨gap, hpiece, -, -, hnext, hl, -⟩ := h.cut hcut
  obtain ⟨p, r, rfl⟩ := List.exists_cons_of_ne_nil hne
  have hkeyword : piece = l ++ [⟨gap, op.lexeme⟩] ++ p :: r := by
    rw [hpiece, List.append_assoc, List.singleton_append]
  have hbalanced : Balanced (l ++ [⟨gap, op.lexeme⟩]) :=
    hl.balanced.append (.flat (Lexeme.flat_of_op? op.op?_lexeme_ne_none) rfl)
  have hbefore := ((hkeyword ▸ h).of_append hbalanced.groups).1
  refine ⟨phrase (l ++ [⟨gap, op.lexeme⟩]) ++ [' '], ?_, ?_, ?_, nofun⟩
  · rw [hkeyword, phrase_append (by simp), render_cons, hnext p rfl]
    simp [phrase]
  · rw [openQuote_append (closed_phrase hbefore)]
    rfl
  · intro c hc
    rw [List.getLast?_concat] at hc
    cases hc
    rfl

end Cut

section Piece
variable {u : Text} (h : WellCut (lex u))
include h

/-- **A part of a piece stands in it, and is in order as the piece is.** -/
theorem PartOf.step {v : Text} (hv : PartOf u v) :
    WellCut (lex v) ∧ ∃ before after, StandsIn u.trim before v after := by
  have htrim : u.trim = phrase (lex u) := trim_of_lex rfl h.balanced.literals
  -- A side of the cut is the text of one of the two parts of the lexemes.
  have hside {op : Op} {i : Nat} {l r : Text}
      (hsplit : findSplit? u.trim = some (some (op, i)))
      (hsides : sides? u.trim op i = some (l, r)) : ∃ ll lr, cutAt? op 0 (lex u) = some (ll, lr) ∧
        WellCut ll ∧ WellCut lr ∧ l = phrase ll ∧ r = phrase lr := by
    rw [htrim] at hsplit hsides
    rcases findSplit?_phrase h with ⟨-, hnone⟩ | ⟨op', ll, lr, gap, hcut, hl, hr, hgap, htext, hfind⟩
    · cases hsplit.symm.trans hnone
    · cases hsplit.symm.trans hfind
      rw [htext, sides?_phrase hl hr hgap] at hsides
      cases hsides
      exact ⟨ll, lr, (cut?_eq_some.mp hcut).1, hl, hr, rfl, rfl⟩
  cases hv with
  | inside hv =>
    rw [htrim] at hv ⊢
    rcases outerGroup?_phrase h.legible with ⟨-, hnone⟩ |
      ⟨inside, lastGap, hwhole, hgap, htext, hgroup⟩
    · cases hv.symm.trans hnone
    · cases hv.symm.trans hgroup
      obtain ⟨before, after, hpiece, hnest⟩ := wholeGroup?_eq_some.mp hwhole
      rw [hpiece] at h
      have hinside := h.inside hnest
      rw [lex_render_blanks hinside.legible hinside.balanced.literals hgap]
      refine ⟨hinside, ['('], [')'], htext, rfl, ?_, ?_⟩ <;> rintro c ⟨⟩ <;> rfl
  | left hsplit hsides hne =>
    obtain ⟨ll, lr, hcut, hl, -, rfl, -⟩ := hside hsplit hsides
    rw [htrim]
    exact ⟨wellCut_phrase hl, [], standsIn_left h hcut (mt (phrase_eq_nil hl.legible).mpr hne)⟩
  | right hsplit hsides hne =>
    obtain ⟨ll, lr, hcut, -, hr, -, rfl⟩ := hside hsplit hsides
    rw [htrim]
    obtain ⟨before, hstands⟩ := standsIn_right h hcut (mt (phrase_eq_nil hr.legible).mpr hne)
    exact ⟨wellCut_phrase hr, before, [], hstands⟩

end Piece

namespace PieceOf
variable {s u : Text} (h : PieceOf s u)
include h

/-- A piece of a text can be read. -/
theorem wellCut : WellCut (lex u) := by
  induction h with
  | whole hne hbalance =>
    rw [lex_tidyText] at hbalance ⊢
    exact ⟨legible_tidyLex s, tidied_tidyLex s, balance_eq_balanced.mp hbalance⟩
  | part hu hv ih => exact (hv.step ih).1

/-- A piece of a text stands in its tidy text. -/
theorem standsIn : ∃ before after, StandsIn (tidyText s) before u.trim after := by
  induction h with
  | whole hne hbalance =>
    rw [trim_tidyText]
    exact ⟨[], [], .refl _⟩
  | @part u v hu hv ih =>
    obtain ⟨x, y, hwhole⟩ := ih
    obtain ⟨-, a, b, hpart⟩ := hv.step hu.wellCut
    obtain ⟨a', b', htrim⟩ := StandsIn.trim v
    exact ⟨_, _, hwhole.trans_iff.mpr (hpart.trans_iff.mpr htrim)⟩

end PieceOf

/-- What holds of a piece `u` of `s`. -/
structure InOrder (s u : Text) : Prop where
  /-- Its literals are closed and its parentheses match. -/
  encloses : Encloses u
  /-- The same with the blanks around it trimmed off, as it is cut and as a call is read. -/
  trimmed : Encloses u.trim
  /-- Each opening parenthesis outside literals has its close. -/
  matched : ∀ a t, u.trim = a ++ '(' :: t → openQuote a = none →
    ∃ k, matchingParen? u.trim a.byteSize = some (some k)
  /-- The scan for a cut counts the groups that are open, and takes one off only if there is one. -/
  counted : ∀ i quote depth found rest, ScanAt u.trim i quote depth found rest →
    scanSplit? u.trim 0 none 0 (fun _ => none) u.trim =
      scanSplit? u.trim i quote depth found rest ∧
    (∃ before, Counted u.trim i quote depth rest before) ∧
    (quote = none → rest.head? = some ')' → depth ≠ 0)
  /-- The scan comes to every place, if it does not end before, at an `OR`. -/
  scanned : ∀ a b, u.trim = a ++ b →
    (∃ depth found, ScanAt u.trim a.byteSize (openQuote a) depth found b) ∨
    ∃ found i, scanSplit? u.trim 0 none 0 (fun _ => none) u.trim = some found ∧
      found .or = some i ∧ i < a.byteSize
  /-- It stands in the tidy text, and no word is cut at its ends. -/
  stands : ∃ x y, StandsIn (tidyText s) x u.trim y
  /-- Wherever it stands, the test for a keyword finds those words of the whole text. -/
  keywords : ∀ x y, StandsIn (tidyText s) x u.trim y → ∀ a t op, u.trim = a ++ t →
    openQuote a = none →
    ((edgeAt? u.trim a.byteSize = some true ∧ keywordAt? u.trim a.byteSize op = some true) ↔
      ∃ w b, t = w ++ b ∧ Op.ofWord? w = some op ∧ StandsIn (tidyText s) (x ++ a) w (b ++ y))

theorem PieceOf.inOrder {s u : Text} (h : PieceOf s u) : InOrder s u := by
  have hpiece := h.wellCut
  have htext : u.trim = phrase (lex u) := trim_of_lex rfl hpiece.balanced.literals
  have htrim : WellCut (lex u.trim) := by
    rw [htext]
    exact wellCut_phrase hpiece
  have hself : u.trim.trim = u.trim := by
    rw [htext, trim_phrase hpiece.legible hpiece.balanced.literals]
  have hencloses : Encloses u.trim := encloses_iff.mpr htrim.balanced
  refine ⟨encloses_iff.mpr hpiece.balanced, hencloses, fun a t hu ha => ?_, ?_,
    fun a b hu => hu ▸ exists_scanAt a b, h.standsIn, fun x y hstands a t op hu ha => ?_⟩
  · rw [hu] at hencloses ⊢
    exact hencloses.exists_matchingParen? ha
  · intro i quote depth found rest hscan
    refine ⟨hscan.scan_eq, hscan.counted hencloses.closesMatch, fun hquote hclose => ?_⟩
    obtain ⟨rest, rfl⟩ := List.head?_eq_some_iff.mp hclose
    subst hquote
    exact hscan.depth_ne_zero hencloses.closesMatch
  · simp only [hstands.trans_iff]
    rw [hu] at htrim hself ⊢
    exact keywordAt?_iff ha htrim.tidied hself op

/-- **Every piece that is read is in order**, if the parentheses and the quotes of the whole text
match; and a piece is read by reading other pieces only. -/
theorem pieces_in_order {s u : Text} (h : PieceOf s u) :
    InOrder s u ∧ ∀ n read, (∀ v, PieceOf s v → readAt? n v = read v) →
      readAt? (n + 1) u = readLevel? read u := by
  refine ⟨h.inOrder, fun n read hread => ?_⟩
  rw [readAt?_succ]
  exact readLevel?_congr fun v hv => hread v (.part h hv)

theorem pieces_in_order_nested :
    let s : Text := "not(hasRole('(')and isé( ) )or x()".toList
    let u : Text := "hasRole('(') AND isé( ) ".toList
    PieceOf s u ∧ Encloses u.trim ∧ (∃ k, matchingParen? u.trim 7 = some (some k)) ∧
      ∃ x y w, StandsIn (tidyText s) (x ++ "hasRole('(') ".toList) w y ∧
        Op.ofWord? w = some .and := by
  intro s u
  have htidy : tidyText s = "NOT (hasRole('(') AND isé( ) ) OR x()".toList := by decide
  have hwhole : PieceOf s (tidyText s) := .whole (by decide) (by decide)
  have hleft : PieceOf s "NOT (hasRole('(') AND isé( ) )".toList := by
    have hsplit : findSplit? (tidyText s).trim = some (some (.or, 32)) := by
      rw [htidy]
      decide
    refine .part hwhole (.left (r := "x()".toList) hsplit ?_ (by decide))
    rw [htidy]
    decide
  have hgroup : PieceOf s "(hasRole('(') AND isé( ) )".toList := by
    have hsplit : findSplit? (Text.trim "NOT (hasRole('(') AND isé( ) )".toList) =
        some (some (.not, 0)) := by decide
    exact .part hleft (.right (l := []) hsplit (by decide) (by decide))
  have hinside : PieceOf s u := .part hgroup (.inside (by decide))
  have horder := (pieces_in_order hinside).1
  refine ⟨hinside, horder.trimmed, horder.matched "hasRole".toList _ rfl rfl, ?_⟩
  obtain ⟨x, y, hstands⟩ := horder.stands
  obtain ⟨w, b, -, hop, hword⟩ := (horder.keywords x y hstands "hasRole('(') ".toList
    "AND isé( )".toList .and (by decide) (by decide)).mp ⟨by decide, by decide⟩
  exact ⟨x, b ++ y, w, hword, hop⟩

end AccessRules
