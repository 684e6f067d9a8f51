import AccessRules.Proofs.Grammar.TidyText
import AccessRules.Proofs.Lexeme.Joining
import AccessRules.Proofs.Offsets.Calls
import AccessRules.Proofs.Offsets.Split

/-! Reading a text by offsets in bytes.

One level slices out the inside of a group or the two sides of an operator, and reads on; a
piece that is neither has to be a call, whose arguments go from the end of its head to the
last byte. Where an offset is not valid the answer is nothing at all, which is something else
than the error of a text that does not read. On the pieces of a text with matching
parentheses it is what the levels of the library answer (`readAt?_eq`), and so for every text
(`parseByOffset?_eq`). -/
namespace AccessRules

/-! ### One call -/

/-- The name that a text begins with and the end of the opening parenthesis that makes a call of
it, if there is one with only blanks before it. -/
def callHead? (s : Text) : Option (Text × Nat) :=
  let name := s.takeWhile isNameChar
  let rest := s.dropWhile isNameChar
  if isName name ∧ (rest.dropWhile isBlank).head? = some '(' then
    some (name, Text.byteSize (name ++ rest.takeWhile isBlank ++ ['(']))
  else none

/-- The name of a text that is one call, and what stands between its parentheses; nothing if an
offset is not valid. -/
def callParts? (s : Text) : Option (Option (Text × Text)) :=
  match callHead? s with
  | none => some none
  | some (name, stop) => do
    let opening ← pred? stop
    return (← groupToEnd? s opening).map (name, ·)

/-- Reads a text that has to be one call of a known function; nothing if an offset is not
valid. -/
def readCallAt? (s : Text) : Option (Except ParseError Expr) :=
  (callParts? s).map fun
    | none => .error (.invalidCall s)
    | some (name, args) =>
      match Check.ofName? name with
      | none => .error (.unknownFunction name)
      | some check => do
        let params ← paramsIn args
        match (lex args).findSome? (·.lexeme.op?) with
        | some op => .error (.misplacedOperator op)
        | none => return .call check params

theorem callHead?_eq_some {s name : Text} {stop : Nat} : callHead? s = some (name, stop) ↔
    ∃ gap t, s = name ++ (gap ++ '(' :: t) ∧ isName name = true ∧ Blank gap ∧
      stop = (name ++ gap).byteSize + 1 := by
  constructor
  · intro h
    rw [callHead?] at h
    split at h
    · rename_i hhead
      cases h
      obtain ⟨t, ht⟩ := List.head?_eq_some_iff.mp hhead.2
      refine ⟨(s.dropWhile isNameChar).takeWhile isBlank, t, ?_, hhead.1,
        fun c hc => List.mem_takeWhile_imp hc, byteSize_concat ..⟩
      rw [← ht, List.takeWhile_append_dropWhile, List.takeWhile_append_dropWhile]
    · cases h
  · rintro ⟨gap, t, rfl, hname, hgap, rfl⟩
    have hnext : (gap ++ '(' :: t).takeWhile isNameChar = [] ∧
        (gap ++ '(' :: t).dropWhile isNameChar = gap ++ '(' :: t := by
      cases gap with
      | nil => exact ⟨rfl, rfl⟩
      | cons c gap =>
        have hc : isNameChar c = false :=
          isNameChar_of_not_isBare (isBare_of_isBlank (hgap c (List.mem_cons_self ..)))
        simp [hc]
    have hchars := isNameChar_of_isName hname
    have hblank : (gap ++ '(' :: t).dropWhile isBlank = '(' :: t :=
      List.dropWhile_append_of_pos hgap
    have hgap' : (gap ++ '(' :: t).takeWhile isBlank = gap := by
      rw [List.takeWhile_append_of_pos hgap]
      exact List.append_nil gap
    rw [callHead?, List.takeWhile_append_of_pos hchars, List.dropWhile_append_of_pos hchars,
      hnext.1, hnext.2, hblank, hgap', List.append_nil, if_pos ⟨hname, rfl⟩, byteSize_concat]
    rfl

theorem ne_nil_of_isName {name : Text} (h : isName name = true) : name ≠ [] := by
  rintro rfl
  cases h

/-- A piece that begins like a call. -/
theorem exists_rest_of_callHead? {piece : List Placed} (h : Legible piece) {name : Text}
    {stop : Nat} (hhead : callHead? (phrase piece) = some (name, stop)) :
    ∃ before gap rest, piece = ⟨before, .word name⟩ :: ⟨gap, .opening⟩ :: rest ∧
      isName name = true ∧ stop = (name ++ gap).byteSize + 1 := by
  obtain ⟨gap, t, htext, hname, hgap, hstop⟩ := callHead?_eq_some.mp hhead
  cases piece with
  | nil =>
    cases name with
    | nil => cases hname
    | cons c name => cases htext
  | cons p ls =>
    have hlex := lex_render (h.regap blank_nil)
    have hphrase : render (⟨[], p.lexeme⟩ :: ls) = phrase (p :: ls) := rfl
    rw [hphrase, htext, lex_callHead (ne_nil_of_isName hname) (isNameChar_of_isName hname) hgap]
      at hlex
    obtain ⟨hp, rfl⟩ := List.cons.inj hlex
    obtain ⟨before, l⟩ := p
    obtain rfl : .word name = l := congrArg Placed.lexeme hp
    exact ⟨before, gap, lex t, rfl, hname, hstop⟩

/-- The parts of a call are those of its lexemes. -/
theorem callParts?_phrase {piece : List Placed} (h : Legible piece) :
    (callParts? (phrase piece) = some none ∧
      readCall piece = .error (.invalidCall (phrase piece))) ∨
    ∃ before name gap rest g, piece = ⟨before, .word name⟩ :: ⟨gap, .opening⟩ :: rest ∧
      isName name = true ∧ closeGroup? 0 rest = some g ∧ g.after = [] ∧
      callParts? (phrase piece) = some (some (name, g.text)) := by
  cases hhead : callHead? (phrase piece) with
  | none =>
    refine .inl ⟨by rw [callParts?, hhead], ?_⟩
    unfold readCall
    split
    · rename_i before name gap rest
      split
      · rename_i hname _
        have hsome := callHead?_eq_some.mpr ⟨gap, render rest, rfl, hname, h.tail.head.1, rfl⟩
        have hphrase : phrase (⟨before, .word name⟩ :: ⟨gap, .opening⟩ :: rest) =
            name ++ (gap ++ '(' :: render rest) := by simp [phrase, Lexeme.text]
        rw [hphrase, hsome] at hhead
        cases hhead
      · rfl
    · rfl
  | some head =>
    obtain ⟨name, stop⟩ := head
    obtain ⟨before, gap, rest, rfl, hname, rfl⟩ := exists_rest_of_callHead? h hhead
    have hphrase : phrase (⟨before, .word name⟩ :: ⟨gap, .opening⟩ :: rest) =
        name ++ gap ++ '(' :: render rest := by simp [phrase, Lexeme.text]
    have hgroup := groupToEnd?_render (name ++ gap) h.tail.tail
    rw [← hphrase] at hgroup
    have hparts : callParts? (phrase (⟨before, .word name⟩ :: ⟨gap, .opening⟩ :: rest)) =
        some (((closeGroup? 0 rest).filter (·.after.isEmpty)).map fun g => (name, g.text)) := by
      rw [callParts?, hhead]
      simp only [pred?, hgroup, Option.bind_eq_bind, Option.bind_some, Option.map_map]
      rfl
    rw [hparts]
    cases hclose : closeGroup? 0 rest with
    | none =>
      refine .inl ⟨rfl, ?_⟩
      simp only [readCall, hname, hclose]
    | some g =>
      obtain ⟨inside, lastGap, after⟩ := g
      cases after with
      | nil => exact .inr ⟨before, name, gap, rest, _, rfl, hname, hclose, rfl, rfl⟩
      | cons q after =>
        refine .inl ⟨rfl, ?_⟩
        simp only [readCall, hname, hclose]

/-- **A piece is read as one call in the same way**, with offsets that are all valid. -/
theorem readCallAt?_phrase {piece : List Placed} (h : Legible piece) :
    readCallAt? (phrase piece) = some (readCall piece) := by
  rcases callParts?_phrase h with ⟨hparts, hinvalid⟩ |
    ⟨before, name, gap, rest, g, rfl, hname, hclose, hafter, hparts⟩
  · rw [readCallAt?, hparts, hinvalid]
    rfl
  · obtain ⟨inside, lastGap, after⟩ := g
    cases hafter
    have hrest : closeGroup? 0 (lex (render rest)) = some ⟨inside, lastGap, []⟩ := by
      rw [lex_render h.tail.tail, hclose]
    obtain ⟨hlex, hclosed⟩ := lex_text_of_closeGroup? hrest
    have hparams := paramsIn_eq_ok.mpr ⟨hlex ▸ hclosed, rfl⟩
    rw [readCallAt?, hparts, Option.map_some, Option.some_inj]
    simp only [readCall, hname, hclose, hclosed, hparams, hlex, Bool.false_eq_true, if_false]
    cases Check.ofName? name with
    | none => rfl
    | some check =>
      cases inside.findSome? (·.lexeme.op?) <;> rfl

/-! ### Every level -/

/-- What stands before and after the keyword of `op` at offset `i`; nothing if an offset is not
valid. -/
def sides? (s : Text) (op : Op) (i : Nat) : Option (Text × Text) := do
  let (before, _) ← s.splitAt? i
  let (_, after) ← s.splitAt? (i + Text.byteSize op.keyword.toList)
  return (before.trim, after.trim)

/-- Reads a text in which `levels - 1` groups and operators may still stand around a call;
nothing if an offset is not valid. -/
def readAt? : (levels : Nat) → Text → ExceptT ParseError Option Expr
  | 0, _ => throw (.nestingTooDeep maxNesting)
  | levels + 1, s =>
    if s.trim = [] then throw .emptyGroup
    else do
      match ← outerGroup? s.trim with
      | some inside => readAt? levels inside
      | none =>
        match ← findSplit? s.trim with
        | none => ExceptT.mk (readCallAt? s.trim)
        | some (op, i) =>
          let (left, right) ← sides? s.trim op i
          if op = .not then
            if left = [] ∧ right ≠ [] then return .not (← readAt? levels right)
            else throw (.misplacedOperator .not)
          else if left = [] ∨ right = [] then throw (.misplacedOperator op)
          else return .op op (← readAt? levels left) (← readAt? levels right)

/-- The blanks at the ends of a text are those around its lexemes. -/
theorem trim_of_lex {u : Text} {ls : List Placed} (h : lex u = ls)
    (hclosed : endsInLiteral ls = false) : u.trim = phrase ls := by
  subst h
  exact (phrase_lex (endsInLiteral_lex_eq_false.mp hclosed)).symm

theorem WellCut.trim_render {piece : List Placed} (h : WellCut piece) {g : Text} (hg : Blank g) :
    (render piece ++ g).trim = phrase piece :=
  trim_of_lex (lex_render_blanks h.legible h.balanced.literals hg) h.balanced.literals

theorem WellCut.trim_phrase {piece : List Placed} (h : WellCut piece) {g : Text} (hg : Blank g) :
    (phrase piece ++ g).trim = phrase piece := by
  have htrim := h.flush.trim_render hg
  rw [render_flush] at htrim
  cases piece <;> exact htrim

theorem lift_bind {ε α β : Type} (x : α) (f : α → ExceptT ε Option β) :
    (liftM (some x) : ExceptT ε Option α) >>= f = f x := rfl

/-- The sides of the keyword that a piece is cut at are the phrases of its two parts. -/
theorem sides?_phrase {l r : List Placed} (hl : WellCut l) (hr : WellCut r) {gap : Text}
    (hgap : Blank gap) (op : Op) :
    sides? (phrase l ++ gap ++ (op.keyword.toList ++ render r)) op (phrase l ++ gap).byteSize =
      some (phrase l, phrase r) := by
  have hafter := Text.splitAt?_append (phrase l ++ gap ++ op.keyword.toList) (render r)
  rw [Text.byteSize_append, List.append_assoc _ op.keyword.toList] at hafter
  have hright := hr.trim_render blank_nil
  rw [List.append_nil] at hright
  rw [sides?, Text.splitAt?_append]
  simp only [Option.bind_eq_bind, Option.bind_some, hafter, hl.trim_phrase hgap, hright]
  rfl

/-- **Every level reads a piece in the same way**, with offsets that are all valid. -/
theorem readAt?_eq {n : Nat} {u : Text} {piece : List Placed} (h : WellCut piece)
    (hu : u.trim = phrase piece) : readAt? n u = ExceptT.mk (some (readPiece n piece)) := by
  induction n generalizing u piece with
  | zero => rfl
  | succ n ih =>
    by_cases hne : piece = []
    · subst hne
      rw [readAt?, hu]
      rfl
    have hphrase : phrase piece ≠ [] := mt (phrase_eq_nil h.legible).mp hne
    rw [readAt?, hu, if_neg hphrase]
    rcases outerGroup?_phrase h.legible with ⟨hwhole, hgroup⟩ |
      ⟨inside, lastGap, hwhole, hgap, -, hgroup⟩
    · rw [hgroup, lift_bind]
      rcases findSplit?_phrase h with ⟨hcut, hsplit⟩ |
        ⟨op, l, r, gap, hcut, hl, hr, hgap, htext, hsplit⟩
      · rw [readPiece_call hne hwhole hcut, ← readCallAt?_phrase h.legible]
        simp only [hsplit, lift_bind]
      · have hsides := sides?_phrase hl hr hgap op
        rw [← htext] at hsides
        simp only [hsplit, lift_bind, hsides]
        have hreadl := ih hl (trim_phrase hl.legible hl.balanced.literals)
        have hreadr := ih hr (trim_phrase hr.legible hr.balanced.literals)
        rw [readPiece_cut hcut]
        simp only [phrase_eq_nil hl.legible, phrase_eq_nil hr.legible, hreadl, hreadr, ne_eq]
        split
        · split
          · cases readPiece n r <;> rfl
          · rfl
        · split
          · rfl
          · cases readPiece n l <;> cases readPiece n r <;> rfl
    · rw [readPiece_group hwhole, hgroup]
      obtain ⟨before, after, rfl, hnest⟩ := wholeGroup?_eq_some.mp hwhole
      exact ih (h.inside hnest) ((h.inside hnest).trim_render hgap)

/-! ### Texts -/

/-- Reads a text as an expression; nothing if an offset is not valid. -/
def parseByOffset? (s : Text) : ExceptT ParseError Option Expr :=
  let s := tidyText s
  if s = [] then throw .empty
  else match balance (lex s) with
    | .balanced => readAt? (maxNesting + 1) s
    | .openLiteral => throw (.unterminatedLiteral s)
    | .unmatchedClose | .unmatchedOpen _ => throw .unbalancedParentheses

/-- **Reading by offsets is reading**, and every offset on the way is valid. -/
theorem parseByOffset?_eq (s : Text) : parseByOffset? s = ExceptT.mk (some (parse s)) := by
  have hnil : tidyText s = [] ↔ tidyLex s = [] := by
    rw [tidyText_eq_phrase, phrase_eq_nil (legible_tidyLex s)]
  simp only [parseByOffset?, parse, hnil, lex_tidyText]
  split
  · rfl
  · cases hbalance : balance (tidyLex s) with
    | balanced =>
      refine readAt?_eq ⟨legible_tidyLex s, tidied_tidyLex s, balance_eq_balanced.mp hbalance⟩ ?_
      rw [trim_tidyText, tidyText_eq_phrase]
    | _ => rfl

end AccessRules
