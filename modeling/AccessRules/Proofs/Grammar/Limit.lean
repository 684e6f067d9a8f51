import AccessRules.Proofs.Grammar.Chain
import AccessRules.Proofs.Grammar.Descent

/-! What the limit to the levels changes.

`readUnlimited` is the reading of a piece with no count of the levels; it ends because every
part of a piece is shorter than the piece. A reading with a limit either runs into it or
answers the same (`readPiece_eq_readUnlimited`), and with more levels than there are lexemes
it never runs into it. What the limit is about are the operators and groups around each call
(`Phrase.nestings`), of which `Phrase.levels` is the largest number; no tree can be deeper
than that (`Phrase.depth_tree_le`). `parse_limit` puts this together, for every text and for
chains of calls without groups. -/
namespace AccessRules

/-! ### Reading without a limit -/

theorem length_wholeGroup? {piece inside : List Placed} (h : wholeGroup? piece = some inside) :
    inside.length < piece.length := by
  obtain ⟨before, after, rfl, -⟩ := wholeGroup?_eq_some.mp h
  simp only [List.length_cons, List.length_append, List.length_nil]
  omega

theorem length_cutAt? {op : Op} {depth : Nat} {piece l r : List Placed}
    (h : cutAt? op depth piece = some (l, r)) : l.length + r.length + 1 = piece.length := by
  induction piece generalizing depth l with
  | nil => cases h
  | cons p piece ih =>
    rw [cutAt?] at h
    split at h
    · cases h
      simp
    · obtain ⟨⟨l', r'⟩, hrest, hlr⟩ := Option.map_eq_some_iff.mp h
      cases hlr
      have hlength := ih hrest
      simp only [List.length_cons]
      omega

/-- The sides of a cut are shorter than the piece. -/
theorem length_cut? {op : Op} {piece l r : List Placed} (h : cut? piece = some (op, l, r)) :
    l.length < piece.length ∧ r.length < piece.length := by
  have hlength := length_cutAt? (cut?_eq_some.mp h).1
  omega

/-- Reads a piece as `readPiece` does, but with no limit to the levels. -/
def readUnlimited (piece : List Placed) : Except ParseError Expr :=
  if piece = [] then .error .emptyGroup
  else
    match _ : wholeGroup? piece with
    | some inside => readUnlimited inside
    | none =>
      match _ : cut? piece with
      | none => readCall piece
      | some (.not, left, right) =>
        if left = [] ∧ right ≠ [] then return .not (← readUnlimited right)
        else .error (.misplacedOperator .not)
      | some (op, left, right) =>
        if left = [] ∨ right = [] then .error (.misplacedOperator op)
        else return .op op (← readUnlimited left) (← readUnlimited right)
termination_by piece.length
decreasing_by
  · exact length_wholeGroup? ‹_›
  · exact (length_cut? ‹_›).2
  · exact (length_cut? ‹_›).1
  · exact (length_cut? ‹_›).2

/-- Reads a text as `parse` does, but with no limit to the levels. -/
def parseUnlimited (s : Text) : Except ParseError Expr :=
  let ls := tidyLex s
  if ls = [] then .error .empty
  else match balance ls with
    | .balanced => readUnlimited ls
    | .openLiteral => .error (.unterminatedLiteral (render ls))
    | .unmatchedClose | .unmatchedOpen _ => .error .unbalancedParentheses

/-- What goes on after `x` runs into the limit where `x` does or the rest does. An error of
`x` that is not the limit is the answer, whatever the rest says. -/
theorem limited_bind {α β : Type} {P : Prop} {err : ParseError} {x y : Except ParseError α}
    {f g : α → Except ParseError β} (hx : (P ∧ x = .error err) ∨ x = y)
    (hf : ∀ a, (P ∧ f a = .error err) ∨ f a = g a) :
    (P ∧ x >>= f = .error err) ∨ x >>= f = y >>= g := by
  rcases hx with ⟨hP, rfl⟩ | rfl
  · exact .inl ⟨hP, rfl⟩
  · cases x with
    | error e => exact .inr rfl
    | ok a => exact hf a

/-- **A reading with a limit runs into it, or answers as the one without**; and it only runs
into it with no more levels than there are lexemes. -/
theorem readPiece_eq_readUnlimited (n : Nat) (piece : List Placed) :
    (n ≤ piece.length ∧ readPiece n piece = .error (.nestingTooDeep maxNesting)) ∨
      readPiece n piece = readUnlimited piece := by
  induction n generalizing piece with
  | zero => exact .inl ⟨Nat.zero_le _, rfl⟩
  | succ n ih =>
    -- What one level hands on is shorter, and has one level less.
    have hless (part : List Placed) (h : part.length < piece.length) :
        (n + 1 ≤ piece.length ∧ readPiece n part = .error (.nestingTooDeep maxNesting)) ∨
          readPiece n part = readUnlimited part :=
      (ih part).imp_left fun hdeep => ⟨Nat.lt_of_le_of_lt hdeep.1 h, hdeep.2⟩
    fun_cases readUnlimited piece with
    | case1 hnil =>
      subst hnil
      exact .inr rfl
    | case2 hne inside hw =>
      rw [readPiece_group hw]
      exact hless inside (length_wholeGroup? hw)
    | case3 hne hw hcut => exact .inr (readPiece_call hne hw hcut)
    | case4 hne hw left right hcut hsides =>
      obtain ⟨rfl, hright⟩ := hsides
      have hshorter := (length_cut? hcut).2
      rw [readPiece_not hcut hright]
      exact limited_bind (hless right hshorter) fun _ => .inr rfl
    | case5 hne hw left right hcut hsides =>
      exact .inr (readPiece_misplaced hcut (not_and_or.mp hsides |>.imp_right not_not.mp))
    | case6 hne hw op left right hop hcut hsides =>
      refine .inr (readPiece_misplaced hcut ?_)
      cases op with
      | not => exact absurd rfl hop
      | and | or => exact hsides
    | case7 hne hw op left right hop hcut hsides =>
      obtain ⟨hleft, hright⟩ := not_or.mp hsides
      obtain ⟨hshorterl, hshorterr⟩ := length_cut? hcut
      rw [readPiece_op hop hcut hleft hright]
      exact limited_bind (hless left hshorterl) fun _ =>
        limited_bind (hless right hshorterr) fun _ => .inr rfl

theorem readCall_ne_tooDeep (piece : List Placed) (limit : Nat) :
    readCall piece ≠ .error (.nestingTooDeep limit) := by
  intro h
  unfold readCall at h
  repeat' split at h
  all_goals cases h

/-- Without a limit nothing is too deep. -/
theorem readUnlimited_ne_tooDeep (piece : List Placed) (limit : Nat) :
    readUnlimited piece ≠ .error (.nestingTooDeep limit) := by
  fun_induction readUnlimited piece with
  | case1 | case5 | case6 => nofun
  | case2 piece hne inside hw ih => exact ih
  | case3 piece => exact readCall_ne_tooDeep piece limit
  | case4 piece hne hw left right hcut hsides ih =>
    intro h
    rcases error_or_ok_of_bind_eq_error h with h | ⟨e, -, h⟩
    · exact ih h
    · cases h
  | case7 piece hne hw op left right hop hcut hsides ihl ihr =>
    intro h
    rcases error_or_ok_of_bind_eq_error h with h | ⟨el, -, h⟩
    · exact ihl h
    rcases error_or_ok_of_bind_eq_error h with h | ⟨er, -, h⟩
    · exact ihr h
    · cases h

/-- With more levels than lexemes the limit is not felt. -/
theorem readPiece_length (piece : List Placed) :
    readPiece (piece.length + 1) piece = readUnlimited piece := by
  rcases readPiece_eq_readUnlimited (piece.length + 1) piece with ⟨hn, -⟩ | heq
  · exact absurd hn (Nat.not_succ_le_self _)
  · exact heq

/-! ### Levels -/

namespace Phrase

/-- The number of operators and groups around each call, from left to right. -/
def nestings : {r : Rank} → Phrase r → List Nat
  | _, call _ _ _ => [0]
  | _, group _ p _ | _, not p => p.nestings.map (· + 1)
  | _, and l r => (l.nestings ++ r.nestings).map (· + 1)
  | _, or l r => (l.nestings ++ r.nestings).map (· + 1)
  | _, unit p | _, negation p | _, conjunction p => p.nestings

theorem levels_mem_nestings {r : Rank} (d : Phrase r) : d.levels ∈ d.nestings := by
  induction d with
  | call => exact List.mem_singleton_self 0
  | group _ p _ ih | not p ih => exact List.mem_map_of_mem ih
  | and l r ihl ihr | or l r ihl ihr =>
    refine List.mem_map_of_mem (f := (· + 1)) (List.mem_append.mpr ?_)
    rcases Nat.le_total l.levels r.levels with h | h
    · rw [Nat.max_eq_right h]
      exact .inr ihr
    · rw [Nat.max_eq_left h]
      exact .inl ihl
  | unit p ih | negation p ih | conjunction p ih => exact ih

theorem le_levels_of_mem {r : Rank} (d : Phrase r) : ∀ k ∈ d.nestings, k ≤ d.levels := by
  induction d with
  | call => exact fun k hk => Nat.le_of_eq (List.mem_singleton.mp hk)
  | group _ p _ ih | not p ih =>
    intro k hk
    obtain ⟨j, hj, rfl⟩ := List.mem_map.mp hk
    exact Nat.succ_le_succ (ih j hj)
  | and l r ihl ihr | or l r ihl ihr =>
    intro k hk
    obtain ⟨j, hj, rfl⟩ := List.mem_map.mp hk
    refine Nat.succ_le_succ ?_
    rcases List.mem_append.mp hj with hj | hj
    · exact Nat.le_trans (ihl j hj) (Nat.le_max_left ..)
    · exact Nat.le_trans (ihr j hj) (Nat.le_max_right ..)
  | unit p ih | negation p ih | conjunction p ih => exact ih

/-- The levels are those of the call with most operators and groups around it. -/
theorem levels_le_iff {r : Rank} (d : Phrase r) {n : Nat} :
    d.levels ≤ n ↔ ∀ k ∈ d.nestings, k ≤ n :=
  ⟨fun h k hk => Nat.le_trans (d.le_levels_of_mem k hk) h, fun h => h _ d.levels_mem_nestings⟩

/-- A tree is at most one node deeper than the levels around its deepest call. -/
theorem depth_tree_le {r : Rank} (d : Phrase r) : d.tree.depth ≤ d.levels + 1 := by
  induction d with
  | call => exact Nat.le_refl 1
  | group _ p _ ih => exact Nat.le_succ_of_le ih
  | not p ih =>
    simp only [tree, Expr.not, Expr.depth, levels]
    omega
  | and l r ihl ihr | or l r ihl ihr =>
    simp only [tree, Expr.and, Expr.or, Expr.depth, levels]
    omega
  | unit p ih | negation p ih | conjunction p ih => exact ih

end Phrase

/-! ### Texts -/

theorem parse_eq_parseUnlimited (s : Text) :
    parse s = .error (.nestingTooDeep maxNesting) ∨ parse s = parseUnlimited s := by
  simp only [parse, parseUnlimited]
  split
  · exact .inr rfl
  · cases balance (tidyLex s) with
    | balanced =>
      exact (readPiece_eq_readUnlimited (maxNesting + 1) (tidyLex s)).imp_left And.right
    | _ => exact .inr rfl

theorem parseUnlimited_ne_tooDeep (s : Text) (limit : Nat) :
    parseUnlimited s ≠ .error (.nestingTooDeep limit) := by
  simp only [parseUnlimited]
  split
  · nofun
  · cases balance (tidyLex s) with
    | balanced => exact readUnlimited_ne_tooDeep (tidyLex s) limit
    | _ => nofun

/-- The derivation of a text that is read without a limit. -/
theorem phrase_of_parseUnlimited {s : Text} {e : Expr} (h : parseUnlimited s = .ok e) :
    ∃ d : Phrase .disjunction, tidyLex s = d.placed [] ∧ d.tree = e := by
  simp only [parseUnlimited] at h
  split at h
  · cases h
  · split at h
    · rename_i hb
      rw [← readPiece_length] at h
      obtain ⟨d, hd, htree, -⟩ := phrase_of_readPiece (balance_eq_balanced.mp hb) h
      exact ⟨d, hd, htree⟩
    all_goals cases h

/-- **The limit to the levels changes nothing but the limit.** A text is found too deep, or it
is read as it would be without a limit, with the same tree or the same error. If it can be
read without a limit, the limit lets it pass exactly when no call of its only derivation has
more than 256 operators and groups around it, and its tree is then no deeper than 257. So a
chain of calls with one operator between them and no groups is read, nested to the right, up
to 257 calls, and a longer one is too deep. -/
theorem parse_limit :
    (∀ s, (parse s = .error (.nestingTooDeep 256) ∨ parse s = parseUnlimited s) ∧
      ∀ limit, parseUnlimited s ≠ .error (.nestingTooDeep limit)) ∧
    (∀ s e, parseUnlimited s = .ok e →
      ∃ d : Phrase .disjunction, d.text = tidyText s ∧ d.tree = e ∧
        (parse s = .ok e ↔ ∀ k ∈ d.nestings, k ≤ 256) ∧ (parse s = .ok e → e.depth ≤ 257)) ∧
    ∀ (op : Op) (calls : List (Text × Expr)) (s : Text), op ≠ .not → calls ≠ [] →
      (∀ c ∈ calls, readCall (tidyLex c.1) = .ok c.2) →
      tidyText s = tidyText (joined op (calls.map (·.1))) →
      parse s = if calls.length ≤ 257 then .ok (chain op (calls.map (·.2)))
        else .error (.nestingTooDeep 256) := by
  refine ⟨fun s => ⟨parse_eq_parseUnlimited s, parseUnlimited_ne_tooDeep s⟩, fun s e h => ?_,
    fun op calls s hop hne hcalls hs => ?_⟩
  · obtain ⟨d, hd, rfl⟩ := phrase_of_parseUnlimited h
    have hparse : parse s = .ok d.tree ↔ d.levels ≤ 256 := by
      rw [parse_eq_within hd, within_eq_ok]
      exact and_iff_right rfl
    refine ⟨d, text_eq_tidyText hd, rfl, hparse.trans d.levels_le_iff, fun hok => ?_⟩
    exact Nat.le_trans d.depth_tree_le (Nat.succ_le_succ (hparse.mp hok))
  · have hlength := List.length_pos_of_ne_nil hne
    have hlimit : calls.length - 1 ≤ maxNesting ↔ calls.length ≤ 257 := by
      rw [maxNesting]
      omega
    rw [parse_joined_calls hop hne hcalls hs, within]
    simp only [hlimit]
    rfl

theorem parse_limit_boundary :
    let call := ("hasRole('a')".toList, Expr.call .role ["'a'".toList])
    let text (n : Nat) := joined .or ((List.replicate n call).map (·.1))
    let tree (n : Nat) := chain .or ((List.replicate n call).map (·.2))
    parse (text 257) = .ok (tree 257) ∧ parse (text 258) = .error (.nestingTooDeep 256) ∧
      parseUnlimited (text 257) = .ok (tree 257) ∧
      ∃ d : Phrase .disjunction, d.text = tidyText (text 257) ∧ d.tree = tree 257 ∧
        (parse (text 257) = .ok (tree 257) ↔ ∀ k ∈ d.nestings, k ≤ 256) ∧
        (parse (text 257) = .ok (tree 257) → (tree 257).depth ≤ 257) := by
  intro call text tree
  have hcall : readCall (tidyLex call.1) = .ok call.2 := by decide +kernel
  have hread (n : Nat) (hn : n ≠ 0) : parse (text n) =
      if n ≤ 257 then .ok (tree n) else .error (.nestingTooDeep 256) := by
    have hchain := parse_limit.2.2 .or (List.replicate n call) (text n) (by decide) (by simpa)
      (fun c hc => List.eq_of_mem_replicate hc ▸ hcall) rfl
    rwa [List.length_replicate] at hchain
  have hok : parse (text 257) = .ok (tree 257) := hread 257 (by decide)
  have hunlimited : parseUnlimited (text 257) = .ok (tree 257) := by
    have hsame := (parse_limit.1 (text 257)).1
    rw [hok] at hsame
    exact (hsame.resolve_left nofun).symm
  exact ⟨hok, hread 258 (by decide), hunlimited, parse_limit.2.1 _ _ hunlimited⟩

end AccessRules
