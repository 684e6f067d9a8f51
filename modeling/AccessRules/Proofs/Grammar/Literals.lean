import AccessRules.Proofs.Grammar.Reading
import AccessRules.Proofs.Lexeme.Params

/-! What is written in a literal does not change the structure of a rule.

A literal of a text is one lexeme, whatever it holds, and the tidy layout around it
does not look inside (`tidyLex_literal`). In a phrase it can only stand in the arguments
of a call, so that with another content the lexemes are still those of a phrase
(`Phrase.framed`). `parse_literal` follows: the tree of the text is a `Frame`
around the literal, and the same frame holds any other content. -/
namespace AccessRules

/-! ### Trees with a hole -/

/-- A tree with a hole in one parameter of one call: `front` and `back` are the rest of
that parameter, `before` and `after` the other parameters. -/
inductive Frame
  | call (check : Check) (before : List Text) (front back : Text) (after : List Text)
  | left (op : Op) (f : Frame) (right : Expr)
  | right (op : Op) (left : Expr) (f : Frame)

namespace Frame

/-- The tree with a text in the hole. -/
def fill : Frame → Text → Expr
  | call check before front back after, s => .call check (before ++ (front ++ s ++ back) :: after)
  | left op f r, s => .op op (f.fill s) r
  | right op l f, s => .op op l (f.fill s)

/-- What stands before the hole in its parameter. -/
def front : Frame → Text
  | call _ _ front _ _ => front
  | left _ f _ | right _ _ f => f.front

end Frame

/-! ### Lexemes around a literal -/

theorem lex_literal {a : Text} (ha : endsInLiteral (lex a) = false) {q : Char}
    (hq : isQuote q = true) {x : Text} (hx : q ∉ x) (b : Text) :
    lex (a ++ (Lexeme.literal q x).text ++ b) =
      lex a ++ ⟨lastBlanks a, .literal q x⟩ :: lex b := by
  obtain ⟨hg, hrender⟩ := render_lex a
  have hb : lex ((Placed.mk (lastBlanks a) (.literal q x)).text ++ b) =
      ⟨lastBlanks a, .literal q x⟩ :: lex b :=
    lex_text_append (p := ⟨_, .literal q x⟩) hg ⟨hq, hx⟩ (fun r _ => .of_mark rfl rfl r) rfl
  have happend : Legible (lex a ++ ⟨lastBlanks a, .literal q x⟩ :: lex b) :=
    (legible_lex a).append_cons ha nofun (.mark hg ⟨hq, hx⟩ rfl rfl (legible_lex b))
  rw [← hb] at happend ⊢
  rw [← lex_render_append ha happend, Placed.text, List.append_assoc (lastBlanks a),
    ← List.append_assoc (render (lex a)), hrender, List.append_assoc]

/-- The tidy layout around a literal does not depend on its content. -/
theorem tidyLex_literal {a : Text} (ha : endsInLiteral (lex a) = false) {q : Char}
    (hq : isQuote q = true) (b : Text) :
    ∃ before gap after, ∀ x, q ∉ x →
      tidyLex (a ++ (Lexeme.literal q x).text ++ b) = before ++ ⟨gap, .literal q x⟩ :: after := by
  refine ⟨tidy (lex a), tidyGap (lastLexeme none (lex a)) ⟨lastBlanks a, .literal q []⟩,
    tidyAfter (some (.literal q [])) (lex b), fun x hx => ?_⟩
  have hafter : tidyAfter (some (.literal q x)) (lex b) =
      tidyAfter (some (.literal q [])) (lex b) := by cases lex b <;> rfl
  rw [tidyLex, lex_literal ha hq hx, tidy, tidyAfter_append, tidyAfter, hafter]
  rfl

section Content
variable {a b : List Placed} {gap : Text} {q : Char} {x y : Text}

theorem Balanced.content (h : Balanced (a ++ ⟨gap, .literal q y⟩ :: b)) :
    Balanced (a ++ ⟨gap, .literal q x⟩ :: b) := by
  obtain ⟨hgroups, hliterals⟩ := h
  constructor
  · rw [nestAll?_append] at hgroups ⊢
    exact hgroups
  · rw [endsInLiteral_append] at hliterals ⊢
    exact hliterals

theorem Legible.content (hopen : endsInLiteral a = false)
    (h : Legible (a ++ ⟨gap, .literal q y⟩ :: b)) (hx : q ∉ x) :
    Legible (a ++ ⟨gap, .literal q x⟩ :: b) := by
  obtain ⟨hg, hl, _⟩ := h.right.head
  exact h.left.append_cons hopen nofun (.mark hg ⟨hl.1, hx⟩ rfl rfl h.right.tail)

theorem eq_cons_of_cons_eq {p r : Placed} {rest : List Placed} (h : r :: rest = a ++ p :: b)
    (hne : r ≠ p) : ∃ a', a = r :: a' ∧ rest = a' ++ p :: b := by
  cases a with
  | nil =>
    cases h
    exact absurd rfl hne
  | cons r' a' =>
    cases h
    exact ⟨a', rfl, rfl⟩

theorem eq_append_of_append_eq {l r : List Placed} {p : Placed} (h : l ++ r = a ++ p :: b) :
    (∃ b', l = a ++ p :: b' ∧ b = b' ++ r) ∨ ∃ a', a = l ++ a' ∧ r = a' ++ p :: b := by
  rcases List.append_eq_append_iff.mp h with ⟨c, ha, hr⟩ | ⟨c, hl, hb⟩
  · exact .inr ⟨c, ha, hr⟩
  · cases c with
    | nil => exact .inr ⟨[], by rw [hl, List.append_nil, List.append_nil], hb.symm⟩
    | cons p' b' =>
      cases hb
      exact .inl ⟨b', hl, rfl⟩

end Content

/-! ### The literals of a phrase -/

/-- Arguments with another content in one of their literals: one parameter changes. -/
theorem Args.exists_content {args : Args} {a b : List Placed} {gap : Text} {q : Char} {y : Text}
    (h : args.placed = a ++ ⟨gap, .literal q y⟩ :: b) :
    ∃ before front back after, endsInLiteral (lex front) = false ∧ ∀ x, q ∉ x →
      ∃ args' : Args, args'.placed = a ++ ⟨gap, .literal q x⟩ :: b ∧
        args'.parameters = before ++ (front ++ (Lexeme.literal q x).text ++ back) :: after := by
  obtain ⟨b, hlex, rfl⟩ : ∃ b', lex args.text = a ++ ⟨gap, .literal q y⟩ :: b' ∧
      b = b' ++ [⟨lastBlanks args.text, .closing⟩] := by
    rcases eq_append_of_append_eq h with hin | ⟨a', _, hlast⟩
    · exact hin
    · obtain ⟨a', _, hnil⟩ := eq_cons_of_cons_eq hlast (by simp)
      exact absurd hnil.symm (by simp)
  have hlegible := legible_lex args.text
  have hbalanced := args.closed
  have hplain := args.plain
  rw [hlex] at hlegible hbalanced hplain
  have hopen := (endsInLiteral_append_eq_false.mp hbalanced.literals).1
  obtain ⟨before, front, back, after, hfront, hparams⟩ :=
    params_around hlegible.left hopen hlegible.right.head.1 b
  refine ⟨before, front, back, after, hfront, fun x hx => ?_⟩
  have hplain' : ∀ p ∈ a ++ ⟨gap, .literal q x⟩ :: b, p.lexeme.op? = none := by
    intro p hp
    rcases List.mem_append.mp hp with hp | hp
    · exact hplain p (List.mem_append_left _ hp)
    · rcases List.mem_cons.mp hp with rfl | hp
      · rfl
      · exact hplain p (List.mem_append_right a (List.mem_cons_of_mem _ hp))
  obtain ⟨args', hplaced, hparameters⟩ := exists_args (hlegible.content hopen hx)
    (render_lex args.text).1 hbalanced.content hplain'
  refine ⟨args', ?_, hparameters.trans (hparams _ nofun)⟩
  rw [hplaced, List.append_assoc, List.cons_append]

namespace Phrase

/-- The literal between `a` and `b` is in a frame, which is the tree's also when the
literal holds something else. -/
def Framed {r : Rank} (d : Phrase r) (before : Text) (a : List Placed) (gap : Text) (q : Char)
    (b : List Placed) : Prop :=
  ∃ f : Frame, endsInLiteral (lex f.front) = false ∧ ∀ x, q ∉ x →
    ∃ d' : Phrase r, d'.placed before = a ++ ⟨gap, .literal q x⟩ :: b ∧
      d'.tree = f.fill (Lexeme.literal q x).text ∧ d'.levels = d.levels

/-- A frame for a part of a phrase is one for the phrase. -/
theorem Framed.lift {r r' : Rank} {d : Phrase r} {before before' gap : Text} {q : Char}
    {a a' b b' : List Placed} (h : d.Framed before a gap q b)
    (c : Phrase r → Phrase r') (frame : Frame → Frame)
    (hfront : ∀ f, (frame f).front = f.front)
    (hplaced : ∀ d' p, d'.placed before = a ++ p :: b → (c d').placed before' = a' ++ p :: b')
    (htree : ∀ d' f s, d'.tree = f.fill s → (c d').tree = (frame f).fill s)
    (hlevels : ∀ d', d'.levels = d.levels → (c d').levels = (c d).levels) :
    (c d).Framed before' a' gap q b' := by
  obtain ⟨f, hf, hfill⟩ := h
  refine ⟨frame f, by rw [hfront]; exact hf, fun x hx => ?_⟩
  obtain ⟨d', hd, ht, hl⟩ := hfill x hx
  exact ⟨c d', hplaced d' _ hd, htree d' f _ ht, hlevels d' hl⟩

/-- **A literal of a phrase stands in one parameter of one call**, and with another
content the lexemes are those of a phrase that differs in this parameter only. -/
theorem framed {r : Rank} (d : Phrase r) {before : Text} {a b : List Placed} {gap : Text}
    {q : Char} {y : Text} (h : d.placed before = a ++ ⟨gap, .literal q y⟩ :: b) :
    d.Framed before a gap q b := by
  -- Keywords, names and parentheses are no literals, so the literal is in one of the parts.
  induction d generalizing before a b with
  | unit p ih | negation p ih | conjunction p ih =>
    exact (ih h).lift _ id (fun _ => rfl) (fun _ _ h => h) (fun _ _ _ h => h) (fun _ h => h)
  | call check between args =>
    obtain ⟨a, rfl, hrest⟩ := eq_cons_of_cons_eq h (by simp [Check.lexeme])
    obtain ⟨a, rfl, hargs⟩ := eq_cons_of_cons_eq hrest (by simp)
    obtain ⟨before, front, back, after, hfront, hcontent⟩ := Args.exists_content hargs
    refine ⟨.call check before front back after, hfront, fun x hx => ?_⟩
    obtain ⟨args', hplaced, hparams⟩ := hcontent x hx
    exact ⟨call check between args', by rw [placed, hplaced]; rfl, by rw [tree, hparams]; rfl, rfl⟩
  | group open' inside after ih =>
    obtain ⟨a, rfl, hrest⟩ := eq_cons_of_cons_eq h (by simp)
    rcases eq_append_of_append_eq hrest with ⟨b, hinside, rfl⟩ | ⟨a', _, hlast⟩
    · refine (ih hinside).lift (group open' · after) id (fun _ => rfl) (fun p x hp => ?_)
        (fun _ _ _ h => h) (fun _ h => congrArg (· + 1) h)
      rw [placed, hp, List.append_assoc]
      rfl
    · obtain ⟨a', _, hnil⟩ := eq_cons_of_cons_eq hlast (by simp)
      exact absurd hnil.symm (by simp)
  | not p ih =>
    obtain ⟨a, rfl, hrest⟩ := eq_cons_of_cons_eq h (by simp [Op.lexeme])
    exact (ih hrest).lift not (.right .not .missing) (fun _ => rfl)
      (fun _ _ h => congrArg (_ :: ·) h) (fun _ _ _ h => congrArg Expr.not h)
      (fun _ h => congrArg (· + 1) h)
  | and l r ihl ihr =>
    rcases eq_append_of_append_eq h with ⟨b, hl, rfl⟩ | ⟨a, rfl, hrest⟩
    · refine (ihl hl).lift (and · r) (.left .and · r.tree) (fun _ => rfl) (fun p x hp => ?_)
        (fun _ _ _ h => congrArg (Expr.and · r.tree) h)
        (fun _ h => congrArg (max · r.levels + 1) h)
      rw [placed, hp, List.append_assoc]
      rfl
    · obtain ⟨a, rfl, hr⟩ := eq_cons_of_cons_eq hrest (by simp [Op.lexeme])
      refine (ihr hr).lift (and l) (.right .and l.tree) (fun _ => rfl) (fun p x hp => ?_)
        (fun _ _ _ h => congrArg (Expr.and l.tree ·) h)
        (fun _ h => congrArg (max l.levels · + 1) h)
      rw [placed, hp, List.append_assoc]
      rfl
  | or l r ihl ihr =>
    rcases eq_append_of_append_eq h with ⟨b, hl, rfl⟩ | ⟨a, rfl, hrest⟩
    · refine (ihl hl).lift (or · r) (.left .or · r.tree) (fun _ => rfl) (fun p x hp => ?_)
        (fun _ _ _ h => congrArg (Expr.or · r.tree) h)
        (fun _ h => congrArg (max · r.levels + 1) h)
      rw [placed, hp, List.append_assoc]
      rfl
    · obtain ⟨a, rfl, hr⟩ := eq_cons_of_cons_eq hrest (by simp [Op.lexeme])
      refine (ihr hr).lift (or l) (.right .or l.tree) (fun _ => rfl) (fun p x hp => ?_)
        (fun _ _ _ h => congrArg (Expr.or l.tree ·) h)
        (fun _ h => congrArg (max l.levels · + 1) h)
      rw [placed, hp, List.append_assoc]
      rfl

end Phrase

/-! ### The literals of a rule -/

/-- **What is written in a literal does not change the structure of a rule.** When a text
is read and holds a closed literal, one whose quote stands outside the literals before
it, then its tree is a frame around that literal. With any other content that does not
hold the quote the text is read as the same frame around the new literal, character for
character. -/
theorem parse_literal {a b y : Text} {q : Char} {e : Expr}
    (ha : endsInLiteral (lex a) = false) (hq : isQuote q = true) (hy : q ∉ y)
    (h : parse (a ++ (Lexeme.literal q y).text ++ b) = .ok e) :
    ∃ f : Frame, endsInLiteral (lex f.front) = false ∧ e = f.fill (Lexeme.literal q y).text ∧
      ∀ x, q ∉ x →
        parse (a ++ (Lexeme.literal q x).text ++ b) = .ok (f.fill (Lexeme.literal q x).text) := by
  obtain ⟨before, gap, after, htidy⟩ := tidyLex_literal ha hq b
  obtain ⟨d, hd, htree, hlevels⟩ := phrase_of_parse h
  rw [htidy y hy] at hd
  obtain ⟨f, hfront, hfill⟩ := d.framed hd.symm
  refine ⟨f, hfront, ?_, fun x hx => ?_⟩
  · obtain ⟨d', hd', htree', _⟩ := hfill y hy
    obtain ⟨rfl, _⟩ := d'.placed_injective d (hd'.trans hd)
    rw [← htree, htree']
  · obtain ⟨d', hd', htree', hlevels'⟩ := hfill x hx
    rw [← htree']
    exact parse_of_phrase ((htidy x hx).trans hd'.symm) (by rw [hlevels']; exact hlevels)

theorem parse_literal_among_others :
    let a := "hasRole('(') and hasRole(x, ".toList
    let e := Expr.and (.call .role ["'('".toList]) (.call .role ["x".toList, "'A'".toList])
    endsInLiteral (lex a) = false ∧
      parse (a ++ (Lexeme.literal '\'' "A".toList).text ++ ")".toList) = .ok e ∧
      ∃ f : Frame, endsInLiteral (lex f.front) = false ∧
        e = f.fill (Lexeme.literal '\'' "A".toList).text ∧
        ∀ x, '\'' ∉ x → parse (a ++ (Lexeme.literal '\'' x).text ++ ")".toList) =
          .ok (f.fill (Lexeme.literal '\'' x).text) := by
  have ha : endsInLiteral (lex "hasRole('(') and hasRole(x, ".toList) = false := by decide +kernel
  have hparse : parse ("hasRole('(') and hasRole(x, ".toList ++
      (Lexeme.literal '\'' "A".toList).text ++ ")".toList) =
      .ok (.and (.call .role ["'('".toList]) (.call .role ["x".toList, "'A'".toList])) := by
    decide +kernel
  exact ⟨ha, hparse, parse_literal ha (by decide) (by decide) hparse⟩

end AccessRules
