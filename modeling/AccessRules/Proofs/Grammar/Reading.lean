import AccessRules.Proofs.Grammar.Phrase

/-! Reading finds the derivation of a text.

`readPiece_placed` reads the lexemes of a phrase as its tree, if there are levels
enough; `exists_phrase` finds a phrase behind every piece that is read. Both go one
level at a time, by what a level does with a whole group, a cut or a call.
`parse_eq_ok_iff` puts them together for a text: reading accepts exactly what the
grammar derives, and the derivation is unique. -/
namespace AccessRules

/-! ### One level -/

/-- What one level does with a piece that is cut. -/
theorem readPiece_cut {n : Nat} {piece l r : List Placed} {op : Op}
    (hcut : cut? piece = some (op, l, r)) : readPiece (n + 1) piece =
      if op = .not then
        if l = [] ∧ r ≠ [] then do return .not (← readPiece n r)
        else .error (.misplacedOperator .not)
      else if l = [] ∨ r = [] then .error (.misplacedOperator op)
      else do return .op op (← readPiece n l) (← readPiece n r) := by
  have hwhole := wholeGroup?_of_cutAt? (cut?_eq_some.mp hcut).1
  cases piece with
  | nil => cases hcut
  | cons p rest => cases op <;> simp [readPiece, hwhole, hcut]

theorem readPiece_not {n : Nat} {piece r : List Placed}
    (hcut : cut? piece = some (.not, [], r)) (hr : r ≠ []) :
    readPiece (n + 1) piece = (do return .not (← readPiece n r)) := by
  rw [readPiece_cut hcut, if_pos rfl, if_pos ⟨rfl, hr⟩]

theorem readPiece_op {n : Nat} {piece l r : List Placed} {op : Op}
    (hop : op ≠ .not) (hcut : cut? piece = some (op, l, r)) (hl : l ≠ []) (hr : r ≠ []) :
    readPiece (n + 1) piece = (do return .op op (← readPiece n l) (← readPiece n r)) := by
  rw [readPiece_cut hcut, if_neg hop, if_neg (not_or.mpr ⟨hl, hr⟩)]

theorem ok_of_bind_eq_ok {ε α β : Type} {x : Except ε α} {f : α → Except ε β} {b : β}
    (h : x >>= f = .ok b) : ∃ a, x = .ok a ∧ f a = .ok b := by
  cases x with
  | error e => cases h
  | ok a => exact ⟨a, rfl, h⟩

/-- What one level does with a piece that is read. -/
theorem readPiece_eq_ok {n : Nat} {piece : List Placed} {e : Expr}
    (h : readPiece (n + 1) piece = .ok e) :
    (∃ inside, wholeGroup? piece = some inside ∧ readPiece n inside = .ok e) ∨
    (∃ r er, cut? piece = some (.not, [], r) ∧ readPiece n r = .ok er ∧ e = .not er) ∨
    (∃ op l r el er, op ≠ .not ∧ cut? piece = some (op, l, r) ∧ readPiece n l = .ok el ∧
      readPiece n r = .ok er ∧ e = .op op el er) ∨
    readCall piece = .ok e := by
  cases piece with
  | nil => cases h
  | cons p rest =>
    simp only [readPiece] at h
    split at h
    · exact .inl ⟨_, ‹_›, h⟩
    · split at h
      · exact .inr (.inr (.inr h))
      · rename_i l r hcut
        split at h
        · rename_i hlr
          obtain ⟨er, her, he⟩ := ok_of_bind_eq_ok h
          cases he
          rw [hlr.1] at hcut
          exact .inr (.inl ⟨r, er, hcut, her, rfl⟩)
        · cases h
      · rename_i op l r hop hcut
        split at h
        · cases h
        · obtain ⟨el, hel, h⟩ := ok_of_bind_eq_ok h
          obtain ⟨er, her, he⟩ := ok_of_bind_eq_ok h
          cases he
          exact .inr (.inr (.inl ⟨op, l, r, el, er, hop, hcut, hel, her, rfl⟩))

/-! ### From a phrase to its tree -/

theorem readCall_placed (check : Check) (between : Gap) (args : Args) (gap : Text) :
    readCall ((Phrase.call check between args).placed gap) = .ok (.call check args.parameters) := by
  have hclose : closeGroup? 0 args.placed = some ⟨lex args.text, lastBlanks args.text, []⟩ :=
    closeGroup?_eq_some.mpr ⟨rfl, args.closed.groups⟩
  have hplain : (lex args.text).findSome? (·.lexeme.op?) = none :=
    List.findSome?_eq_none_iff.mpr args.plain
  simp [Phrase.placed, Check.lexeme, readCall, check.isName_name, hclose, check.ofName?_name,
    args.closed.literals, hplain, args.params_eq]

namespace Phrase
variable (n : Nat) (gap : Text)

/-! What one level does with the lexemes of a phrase. -/

theorem read_call (check : Check) (between : Gap) (args : Args) :
    readPiece (n + 1) ((call check between args).placed gap) =
      .ok (.call check args.parameters) := by
  have hcut : cut? ((call check between args).placed gap) = none :=
    cut?_eq_none.mpr fun op => cutAt?_placed _ gap (by simp [Rank.ops])
  rw [readPiece_call (placed_ne_nil _ gap) rfl hcut, readCall_placed]

theorem read_group (before : Gap) (inside : Phrase .disjunction) (after : Gap) :
    readPiece (n + 1) ((group before inside after).placed gap) =
      readPiece n (inside.placed before.val) :=
  readPiece_group (wholeGroup?_eq_some.mpr ⟨gap, after.val, rfl, inside.nestAll?_placed before.val⟩)

theorem read_not (p : Phrase .negation) : readPiece (n + 1) ((not p).placed gap) =
    (do return .not (← readPiece n (p.placed [' ']))) :=
  readPiece_not (cut?_not p gap) (p.placed_ne_nil [' '])

theorem read_and (l : Phrase .negation) (r : Phrase .conjunction) :
    readPiece (n + 1) ((and l r).placed gap) =
      (do return .and (← readPiece n (l.placed gap)) (← readPiece n (r.placed [' ']))) :=
  readPiece_op (by decide) (cut?_and l r gap) (l.placed_ne_nil gap) (r.placed_ne_nil [' '])

theorem read_or (l : Phrase .conjunction) (r : Phrase .disjunction) :
    readPiece (n + 1) ((or l r).placed gap) =
      (do return .or (← readPiece n (l.placed gap)) (← readPiece n (r.placed [' ']))) :=
  readPiece_op (by decide) (cut?_or l r gap) (l.placed_ne_nil gap) (r.placed_ne_nil [' '])

end Phrase

/-- **A phrase is read as its tree**, if there are levels enough. -/
theorem readPiece_placed {r : Rank} (d : Phrase r) (gap : Text) {n : Nat} (hn : d.levels < n) :
    readPiece n (d.placed gap) = .ok d.tree := by
  induction d generalizing gap n with
  | unit p ih | negation p ih | conjunction p ih => exact ih gap hn
  | call check between args =>
    obtain ⟨n, rfl⟩ := Nat.exists_eq_succ_of_ne_zero (Nat.ne_zero_of_lt hn)
    exact Phrase.read_call n gap check between args
  | group before inside after ih =>
    obtain ⟨n, rfl⟩ := Nat.exists_eq_succ_of_ne_zero (Nat.ne_zero_of_lt hn)
    rw [Phrase.read_group]
    exact ih before.val (Nat.lt_of_succ_lt_succ hn)
  | not p ih =>
    obtain ⟨n, rfl⟩ := Nat.exists_eq_succ_of_ne_zero (Nat.ne_zero_of_lt hn)
    rw [Phrase.read_not, ih [' '] (Nat.lt_of_succ_lt_succ hn)]
    rfl
  | and l r ihl ihr | or l r ihl ihr =>
    obtain ⟨n, rfl⟩ := Nat.exists_eq_succ_of_ne_zero (Nat.ne_zero_of_lt hn)
    obtain ⟨hl, hr⟩ := Nat.max_lt.mp (Nat.lt_of_succ_lt_succ hn)
    simp only [Phrase.read_and, Phrase.read_or, ihl gap hl, ihr [' '] hr]
    rfl

/-- **A phrase with too few levels is not read**, and nothing else is found wrong with it. -/
theorem readPiece_placed_deep {r : Rank} (d : Phrase r) (gap : Text) {n : Nat}
    (hn : n ≤ d.levels) : readPiece n (d.placed gap) = .error (.nestingTooDeep maxNesting) := by
  -- Of two operands the first one that is too deep is the one that stops the reading.
  induction d generalizing gap n with
  | unit p ih | negation p ih | conjunction p ih => exact ih gap hn
  | call check between args =>
    obtain rfl := Nat.le_zero.mp hn
    rfl
  | group before inside after ih =>
    cases n with
    | zero => rfl
    | succ n =>
      rw [Phrase.read_group]
      exact ih before.val (Nat.le_of_succ_le_succ hn)
  | not p ih =>
    cases n with
    | zero => rfl
    | succ n =>
      rw [Phrase.read_not, ih [' '] (Nat.le_of_succ_le_succ hn)]
      rfl
  | and l r ihl ihr | or l r ihl ihr =>
    cases n with
    | zero => rfl
    | succ n =>
      rw [Phrase.levels] at hn
      simp only [Phrase.read_and, Phrase.read_or]
      by_cases hl : n ≤ l.levels
      · rw [ihl gap hl]
        rfl
      · have hr : n ≤ r.levels := by omega
        rw [readPiece_placed l gap (Nat.lt_of_not_le hl), ihr [' '] hr]
        rfl

/-! ### From a piece to its phrase -/

/-- Balanced lexemes without keywords are the arguments of a call. -/
theorem exists_args {ls : List Placed} {gap : Text} (hls : Legible ls) (hgap : Blank gap)
    (hb : Balanced ls) (hplain : ∀ p ∈ ls, p.lexeme.op? = none) :
    ∃ args : Args, args.placed = ls ++ [⟨gap, .closing⟩] ∧ args.parameters = params ls := by
  have hlex := lex_render_blanks hls hb.literals hgap
  have hlast := lastBlanks_render hlex
  refine ⟨⟨render ls ++ gap, params ls, ?_, ?_, ?_⟩, ?_, rfl⟩
  · rw [hlex]
    exact balance_eq_balanced.mpr hb
  · rw [hlex]
    exact hplain
  · simp [paramsIn, hlex, hb.literals]
  · simp [Args.placed, hlex, hlast]

/-- A call that is read is a phrase. -/
theorem readCall_eq_ok {piece : List Placed} {e : Expr} (hp : Legible piece)
    (h : readCall piece = .ok e) :
    ∃ (d : Phrase .unit) (gap : Text), piece = d.placed gap ∧ d.tree = e ∧ d.levels = 0 := by
  unfold readCall at h
  split at h
  · rename_i gap name between rest
    split at h
    · rename_i args lastGap hname hclose
      obtain ⟨rfl, hnest⟩ := closeGroup?_eq_some.mp hclose
      split at h
      · cases h
      · rename_i check hcheck
        split at h
        · cases h
        · rename_i hopen
          split at h
          · cases h
          · rename_i hplain
            cases h
            obtain rfl := Check.eq_name_of_ofName? hcheck
            have hrest := hp.tail.tail
            obtain ⟨a, ha, hparams⟩ := exists_args hrest.left (hrest.right.head).1
              ⟨hnest, by simpa using hopen⟩ (List.findSome?_eq_none_iff.mp hplain)
            refine ⟨.call check ⟨between, hp.tail.head.1⟩ a, gap, ?_, ?_, rfl⟩
            · rw [Phrase.placed, ha]
              rfl
            · rw [Phrase.tree, hparams]
    · cases h
  · cases h

/-- What holds of every piece that is read: it can have been read from a text, it is in
tidy layout, and what it opens it closes. -/
structure WellCut (piece : List Placed) : Prop where
  legible : Legible piece
  tidied : Tidied piece
  balanced : Balanced piece

namespace WellCut

theorem of_append {a b : List Placed} (h : WellCut (a ++ b)) (ha : nestAll? 0 a = some 0) :
    WellCut a ∧ WellCut b := by
  have hgroups := h.balanced.groups
  rw [nestAll?_append, ha] at hgroups
  obtain ⟨hleft, hright⟩ := endsInLiteral_append_eq_false.mp h.balanced.literals
  exact ⟨⟨h.legible.left, h.tidied.left, ha, hleft⟩,
    ⟨h.legible.right, h.tidied.right, hgroups, hright⟩⟩

/-- The inside of a group. -/
theorem inside {before after : Text} {ls : List Placed}
    (h : WellCut (⟨before, .opening⟩ :: (ls ++ [⟨after, .closing⟩])))
    (hls : nestAll? 0 ls = some 0) : WellCut ls := by
  have hclosed : endsInLiteral (ls ++ [⟨after, .closing⟩]) = false := h.balanced.literals
  exact ⟨h.legible.tail.left, (Tidied.right (a := [_]) h.tidied).left, hls,
    (endsInLiteral_append_eq_false.mp hclosed).1⟩

/-- The two sides of a cut, with the keyword between them. -/
theorem cut {op : Op} {piece l r : List Placed} (h : WellCut piece)
    (hcut : cutAt? op 0 piece = some (l, r)) :
    ∃ gap, piece = l ++ ⟨gap, op.lexeme⟩ :: r ∧ cutAt? op 0 l = none ∧
      (l ≠ [] → gap = [' ']) ∧ (∀ q ∈ r.head?, q.gap = [' ']) ∧ WellCut l ∧ WellCut r := by
  obtain ⟨⟨gap, k⟩, rfl, hop, hnest, hfirst⟩ := cutAt?_eq_some h.balanced.groups hcut
  obtain ⟨hl, hkr⟩ := h.of_append hnest
  have hkeyword : k = op.lexeme := hkr.tidied.spelled _ (List.mem_cons_self ..) op hop
  subst hkeyword
  have hr := (WellCut.of_append (a := [_]) hkr (nestAll?_flat
    (List.forall_mem_singleton.mpr (Lexeme.flat_of_op? op.op?_lexeme_ne_none)) 0)).2
  obtain ⟨hbefore, hafter⟩ := h.tidied.keyword_gaps op.op?_lexeme_ne_none
  exact ⟨gap, rfl, hfirst, hbefore, hafter, hl, hr⟩

end WellCut

namespace Phrase

theorem gap_eq {r : Rank} {d : Phrase r} {gap gap' : Text}
    (h : ∀ q ∈ (d.placed gap).head?, q.gap = gap') : gap = gap' := by
  obtain ⟨l, rest, hd⟩ := d.placed_head
  rw [hd] at h
  exact h _ rfl

theorem blank_gap {r : Rank} {d : Phrase r} {gap : Text} (h : Legible (d.placed gap)) :
    Blank gap := by
  obtain ⟨l, rest, hd⟩ := d.placed_head
  rw [hd] at h
  exact h.head.1

theorem gap_after_keyword {op : Op} {ls : List Placed} {r : Rank} {d : Phrase r} {gap : Gap}
    (h : tidyAfter (some op.lexeme) ls = d.placed gap) : gap.val = [' '] := by
  refine gap_eq (d := d) fun q hq => ?_
  rw [← h, head?_tidyAfter] at hq
  obtain ⟨p, _, rfl⟩ := Option.map_eq_some_iff.mp hq
  exact tidyGap_keyword (.inl op.op?_lexeme_ne_none)

theorem exists_conjunction {d : Phrase .disjunction} {gap : Text}
    (h : cutAt? .or 0 (d.placed gap) = none) : ∃ p, d = conjunction p := by
  cases d with
  | conjunction p => exact ⟨p, rfl⟩
  | or l r =>
    rw [cutAt?_or] at h
    cases h

theorem exists_negation {d : Phrase .disjunction} {gap : Text}
    (hor : cutAt? .or 0 (d.placed gap) = none) (hand : cutAt? .and 0 (d.placed gap) = none) :
    ∃ p, d = conjunction (negation p) := by
  obtain ⟨p, rfl⟩ := exists_conjunction hor
  cases p with
  | negation p => exact ⟨p, rfl⟩
  | and l r =>
    rw [placed, cutAt?_and] at hand
    cases hand

end Phrase

/-- **Behind every piece that is read there is a phrase.** -/
theorem exists_phrase {n : Nat} {piece : List Placed} {e : Expr} (hp : WellCut piece)
    (h : readPiece n piece = .ok e) :
    ∃ (d : Phrase .disjunction) (gap : Text),
      piece = d.placed gap ∧ d.tree = e ∧ d.levels < n := by
  -- Both sides of a cut are read as disjunctions; that nothing looser was cut before
  -- makes them phrases of the rank the operator takes.
  induction n generalizing piece e with
  | zero => cases h
  | succ n ih =>
    rcases readPiece_eq_ok h with ⟨inside, hw, hread⟩ | ⟨r, er, hcut, hread, rfl⟩ |
      ⟨op, l, r, el, er, hop, hcut, hel, her, rfl⟩ | hcall
    · obtain ⟨before, after, rfl, hnest⟩ := wholeGroup?_eq_some.mp hw
      have hinside := hp.inside hnest
      obtain ⟨d, gap, rfl, htree, hlevels⟩ := ih hinside hread
      have hgap := Phrase.blank_gap hinside.legible
      have hafter : Blank after := hp.legible.gaps ⟨after, .closing⟩ (by simp)
      exact ⟨.conjunction (.negation (.unit (.group ⟨gap, hgap⟩ d ⟨after, hafter⟩))), before, rfl,
        htree, Nat.succ_lt_succ hlevels⟩
    · obtain ⟨hnot, hfirst⟩ := cut?_eq_some.mp hcut
      obtain ⟨gap, rfl, -, -, hspace, -, hr⟩ := hp.cut hnot
      obtain ⟨d, gap', rfl, htree, hlevels⟩ := ih hr hread
      obtain rfl := Phrase.gap_eq hspace
      have hafter (op : Op) (hop : op ∉ Op.not.scope) : cutAt? op 0 (d.placed [' ']) = none :=
        ((cutAt?_append_eq_none (a := [⟨gap, Op.not.lexeme⟩]) rfl _).mp (hfirst op hop)).2
      obtain ⟨p, rfl⟩ := Phrase.exists_negation (hafter .or (by decide)) (hafter .and (by decide))
      exact ⟨.conjunction (.negation (.not p)), gap, rfl, by rw [← htree]; rfl,
        Nat.succ_lt_succ hlevels⟩
    · obtain ⟨hc, hfirst⟩ := cut?_eq_some.mp hcut
      obtain ⟨gap, rfl, hleft, hbefore, hspace, hl, hr⟩ := hp.cut hc
      obtain ⟨dl, gapl, rfl, htreel, hlevelsl⟩ := ih hl hel
      obtain ⟨dr, gapr, rfl, htreer, hlevelsr⟩ := ih hr her
      obtain rfl := Phrase.gap_eq hspace
      obtain rfl := hbefore (dl.placed_ne_nil gapl)
      have hlevels : max dl.levels dr.levels + 1 < n + 1 :=
        Nat.succ_lt_succ (Nat.max_lt.mpr ⟨hlevelsl, hlevelsr⟩)
      cases op with
      | not => exact absurd rfl hop
      | or =>
        obtain ⟨pl, rfl⟩ := Phrase.exists_conjunction hleft
        exact ⟨.or pl dr, gapl, rfl, by rw [← htreel, ← htreer]; rfl, hlevels⟩
      | and =>
        obtain ⟨horl, horr⟩ := (cutAt?_append_eq_none (dl.nestAll?_placed gapl) _).mp
          (hfirst .or (by decide))
        have hor := ((cutAt?_append_eq_none (a := [⟨[' '], Op.and.lexeme⟩]) rfl _).mp horr).2
        obtain ⟨pl, rfl⟩ := Phrase.exists_negation horl hleft
        obtain ⟨pr, rfl⟩ := Phrase.exists_conjunction hor
        exact ⟨.conjunction (.and pl pr), gapl, rfl, by rw [← htreel, ← htreer]; rfl, hlevels⟩
    · obtain ⟨d, gap, rfl, htree, hlevels⟩ := readCall_eq_ok hp.legible hcall
      exact ⟨.conjunction (.negation (.unit d)), gap, rfl, htree, by
        show d.levels < n + 1
        rw [hlevels]
        exact Nat.succ_pos n⟩

/-! ### Texts -/

theorem head?_tidyLex (s : Text) : ∀ p ∈ (tidyLex s).head?, p.gap = [] := by
  intro p hp
  rw [tidyLex, tidy, head?_tidyAfter] at hp
  obtain ⟨q, _, rfl⟩ := Option.map_eq_some_iff.mp hp
  rfl

theorem tidyLex_eq_placed {r : Rank} {d : Phrase r} {s : Text} (h : d.text = tidyText s) :
    tidyLex s = d.placed [] := by
  rw [← lex_tidyText, ← h]
  exact d.lex_text blank_nil

theorem text_eq_tidyText {r : Rank} {d : Phrase r} {s : Text} (h : tidyLex s = d.placed []) :
    d.text = tidyText s := by
  rw [tidyText, h, d.render_placed, List.nil_append]

theorem parse_eq_readPiece {s : Text} (hne : tidyLex s ≠ []) (hb : Balanced (tidyLex s)) :
    parse s = readPiece (maxNesting + 1) (tidyLex s) := by
  simp only [parse, if_neg hne, balance_eq_balanced.mpr hb]

theorem readPiece_of_parse {s : Text} {e : Expr} (h : parse s = .ok e) :
    Balanced (tidyLex s) ∧ readPiece (maxNesting + 1) (tidyLex s) = .ok e := by
  simp only [parse] at h
  split at h
  · cases h
  · split at h
    · rename_i hb
      exact ⟨balance_eq_balanced.mp hb, h⟩
    all_goals cases h

/-- The literals of a text that is read are closed. -/
theorem closed_of_parse {s : Text} {e : Expr} (h : parse s = .ok e) :
    endsInLiteral (lex s) = false := by
  rw [← endsInLiteral_tidyAfter none]
  exact (readPiece_of_parse h).1.literals

/-- The derivation of a text whose lexemes are read with so many levels. -/
theorem phrase_of_readPiece {s : Text} {n : Nat} {e : Expr} (hb : Balanced (tidyLex s))
    (h : readPiece n (tidyLex s) = .ok e) :
    ∃ d : Phrase .disjunction, tidyLex s = d.placed [] ∧ d.tree = e ∧ d.levels < n := by
  obtain ⟨d, gap, hd, htree, hlevels⟩ :=
    exists_phrase ⟨legible_tidyLex s, tidied_tidyLex s, hb⟩ h
  have hgap := head?_tidyLex s
  rw [hd] at hgap
  obtain rfl := Phrase.gap_eq hgap
  exact ⟨d, hd, htree, hlevels⟩

/-- The derivation of a text that is read. -/
theorem phrase_of_parse {s : Text} {e : Expr} (h : parse s = .ok e) :
    ∃ d : Phrase .disjunction, tidyLex s = d.placed [] ∧ d.tree = e ∧ d.levels ≤ maxNesting := by
  obtain ⟨hb, hread⟩ := readPiece_of_parse h
  obtain ⟨d, hd, htree, hlevels⟩ := phrase_of_readPiece hb hread
  exact ⟨d, hd, htree, Nat.le_of_lt_succ hlevels⟩

/-- What reading answers for a tree that takes this many levels. -/
def within (levels : Nat) (e : Expr) : Except ParseError Expr :=
  if levels ≤ maxNesting then .ok e else .error (.nestingTooDeep maxNesting)

theorem within_eq_ok {levels : Nat} {e e' : Expr} :
    within levels e = .ok e' ↔ e = e' ∧ levels ≤ maxNesting := by
  unfold within
  split
  · rename_i h
    simp [h]
  · rename_i h
    simp [h]

/-- A text whose tidy layout is a phrase is read as its tree, or nests too deep. -/
theorem parse_eq_within {s : Text} {d : Phrase .disjunction} (h : tidyLex s = d.placed []) :
    parse s = within d.levels d.tree := by
  rw [parse_eq_readPiece (h ▸ d.placed_ne_nil []) (h ▸ d.balanced_placed []), h, within]
  split
  · rename_i hn
    exact readPiece_placed d [] (Nat.lt_succ_of_le hn)
  · rename_i hn
    exact readPiece_placed_deep d [] (Nat.lt_of_not_le hn)

theorem parse_of_phrase {s : Text} {d : Phrase .disjunction} (h : tidyLex s = d.placed [])
    (hn : d.levels ≤ maxNesting) : parse s = .ok d.tree :=
  (parse_eq_within h).trans (if_pos hn)

/-- Lexemes whose tidy layout is a phrase are those of a text that is read as its tree,
or nests too deep. -/
theorem parse_render {ls : List Placed} (hls : Legible ls) {d : Phrase .disjunction} {gap : Text}
    (h : tidyAfter none ls = d.placed gap) : parse (render ls) = within d.levels d.tree := by
  have hlex : tidyLex (render ls) = d.placed gap := by
    rw [tidyLex, lex_render hls]
    exact h
  have hgap := head?_tidyLex (render ls)
  rw [hlex] at hgap
  rw [Phrase.gap_eq hgap] at hlex
  exact parse_eq_within hlex

/-- **Reading accepts exactly what the grammar derives**, as the tree of the only
derivation: a text is read as `e` when its tidy layout has a derivation of `e` with at
most `maxNesting` operators and groups around a call, and no text has two derivations. -/
theorem parse_eq_ok_iff :
    (∀ s e, parse s = .ok e ↔
      ∃ d : Phrase .disjunction, d.text = tidyText s ∧ d.tree = e ∧ d.levels ≤ maxNesting) ∧
    ∀ d d' : Phrase .disjunction, d.text = d'.text → d = d' := by
  refine ⟨fun s e => ⟨fun h => ?_, ?_⟩, fun d d' => Phrase.text_injective⟩
  · obtain ⟨d, hd, htree, hlevels⟩ := phrase_of_parse h
    exact ⟨d, text_eq_tidyText hd, htree, hlevels⟩
  · rintro ⟨d, htext, rfl, hlevels⟩
    exact parse_of_phrase (tidyLex_eq_placed htext) hlevels

end AccessRules
