import AccessRules.Proofs.Grammar.Reading
import AccessRules.Proofs.Lexeme.Params

/-! Writing a tree as a rule, and reading it back.

`Expr.write` writes a call with its parameters as they are, and an operator between its
operands, each of which is in parentheses unless it is a call. What it writes is the text
of a phrase, and so is the tidy layout of that text, with the same tree and levels
(`Phrase.exists_tidy`): only the arguments have to be in tidy layout already. An operand
that is an operator costs two levels, its parentheses and itself, so `parse_write` holds
up to a depth of 129 and no further. -/
namespace AccessRules

/-! ### Written trees -/

/-- A parameter that is one closed literal or one word that is no keyword. -/
def SimpleParam (p : Text) : Prop :=
  (∃ q content, isQuote q = true ∧ q ∉ content ∧ p = q :: (content ++ [q])) ∨
  (p ≠ [] ∧ (∀ c ∈ p, isBare c = true) ∧ Op.ofWord? p = none)

namespace Expr

/-- Every operator has the operands it takes, `not` only a right one, and every parameter
is simple. -/
def WellFormed : Expr → Prop
  | missing => False
  | call _ params => ∀ p ∈ params, SimpleParam p
  | op .not l r => l = .missing ∧ r.WellFormed
  | op _ l r => l.WellFormed ∧ r.WellFormed

/-- An operand that is written `s`: in parentheses, unless it is a call. -/
def enclose (e : Expr) (s : Text) : Text :=
  if e.isCall then s else '(' :: (s ++ [')'])

/-- The tree as a rule. -/
def write : Expr → Text
  | missing => []
  | call check params => check.name.toList ++ '(' :: (List.intercalate [',', ' '] params ++ [')'])
  | op .not _ r => Op.not.keyword.toList ++ ' ' :: r.enclose r.write
  | op o l r => l.enclose l.write ++ ' ' :: (o.keyword.toList ++ ' ' :: r.enclose r.write)

end Expr

/-! ### The tidy layout of a phrase -/

namespace Phrase

/-- The arguments of every call are in tidy layout. -/
def Tidy : {r : Rank} → Phrase r → Prop
  | _, call _ _ args => tidyAfter (some .opening) args.placed = args.placed
  | _, group _ inside _ => inside.Tidy
  | _, not p => p.Tidy
  | _, and l r => l.Tidy ∧ r.Tidy
  | _, or l r => l.Tidy ∧ r.Tidy
  | _, unit p | _, negation p | _, conjunction p => p.Tidy

/-- **The tidy layout of a phrase is a phrase**, with the same tree and levels. -/
theorem exists_tidy {r : Rank} (d : Phrase r) (h : d.Tidy) (before : Option Lexeme) (gap : Text) :
    ∃ (d' : Phrase r) (gap' : Gap), tidyAfter before (d.placed gap) = d'.placed gap' ∧
      d'.tree = d.tree ∧ d'.levels = d.levels := by
  induction d generalizing before gap with
  | unit p ih =>
    obtain ⟨p', gap', hp, htree, hlevels⟩ := ih h before gap
    exact ⟨unit p', gap', hp, htree, hlevels⟩
  | negation p ih =>
    obtain ⟨p', gap', hp, htree, hlevels⟩ := ih h before gap
    exact ⟨negation p', gap', hp, htree, hlevels⟩
  | conjunction p ih =>
    obtain ⟨p', gap', hp, htree, hlevels⟩ := ih h before gap
    exact ⟨conjunction p', gap', hp, htree, hlevels⟩
  | call check between args =>
    have hname : check.lexeme.tidy = check.lexeme := by cases check <;> rfl
    have hbetween := blank_tidyGap (some check.lexeme) ⟨between, .opening⟩
    have hgap := blank_tidyGap before ⟨gap, check.lexeme⟩
    refine ⟨call check ⟨_, hbetween⟩ args, ⟨_, hgap⟩, ?_, rfl, rfl⟩
    rw [placed, tidyAfter, tidyAfter, h, hname]
    rfl
  | group open' inside after ih =>
    obtain ⟨inside', open'', hinside, htree, hlevels⟩ := ih h (some .opening) open'
    have hafter := blank_tidyGap (lastLexeme (some .opening) (inside.placed open'))
      ⟨after, .closing⟩
    have hgap := blank_tidyGap before ⟨gap, .opening⟩
    refine ⟨group open'' inside' ⟨_, hafter⟩, ⟨_, hgap⟩, ?_, htree, congrArg (· + 1) hlevels⟩
    rw [placed, tidyAfter, tidyAfter_append, hinside]
    rfl
  | not p ih =>
    obtain ⟨p', gap', hp, htree, hlevels⟩ := ih h (some Op.not.lexeme) [' ']
    have hgap := blank_tidyGap before ⟨gap, Op.not.lexeme⟩
    refine ⟨not p', ⟨_, hgap⟩, ?_, congrArg Expr.not htree, congrArg (· + 1) hlevels⟩
    rw [placed, tidyAfter, hp, gap_after_keyword hp, Lexeme.tidy_keyword Op.not.op?_lexeme]
    rfl
  | and l r ihl ihr =>
    obtain ⟨l', gapl, hl, htreel, hlevelsl⟩ := ihl h.1 before gap
    obtain ⟨r', gapr, hr, htreer, hlevelsr⟩ := ihr h.2 (some Op.and.lexeme) [' ']
    obtain ⟨last, hlast⟩ := exists_lastLexeme before (l.placed_ne_nil gap)
    refine ⟨and l' r', gapl, ?_, congrArg₂ Expr.and htreel htreer, ?_⟩
    · rw [placed, tidyAfter_append, hlast, tidyAfter_keyword, hl, hr, gap_after_keyword hr]
      rfl
    · rw [levels, levels, hlevelsl, hlevelsr]
  | or l r ihl ihr =>
    obtain ⟨l', gapl, hl, htreel, hlevelsl⟩ := ihl h.1 before gap
    obtain ⟨r', gapr, hr, htreer, hlevelsr⟩ := ihr h.2 (some Op.or.lexeme) [' ']
    obtain ⟨last, hlast⟩ := exists_lastLexeme before (l.placed_ne_nil gap)
    refine ⟨or l' r', gapl, ?_, congrArg₂ Expr.or htreel htreer, ?_⟩
    · rw [placed, tidyAfter_append, hlast, tidyAfter_keyword, hl, hr, gap_after_keyword hr]
      rfl
    · rw [levels, levels, hlevelsl, hlevelsr]

/-- A phrase with tidy arguments is read as its tree, whatever blanks stand elsewhere in
it, if and only if its levels are no more than there may be. -/
theorem parse_text {d : Phrase .disjunction} (h : d.Tidy) {e : Expr} :
    parse d.text = .ok e ↔ d.tree = e ∧ d.levels ≤ maxNesting := by
  obtain ⟨d', gap, htidy, htree, hlevels⟩ := d.exists_tidy h none []
  have hparse := parse_render (d.legible_placed blank_nil) htidy
  rw [d.render_placed, List.nil_append] at hparse
  rw [hparse, within_eq_ok, htree, hlevels]

end Phrase

/-! ### Written arguments -/

/-- A lexeme that can be a parameter by itself. -/
structure Lexeme.Simple (l : Lexeme) : Prop where
  legible : l.Legible
  flat : l.Flat
  closed : l.isOpenLiteral = false
  plain : l.op? = none
  noComma : l ≠ .comma
  tidy : l.tidy = l

theorem exists_simple {p : Text} (h : SimpleParam p) : ∃ l : Lexeme, l.text = p ∧ l.Simple := by
  rcases h with ⟨q, content, hq, hcontent, rfl⟩ | ⟨hne, hbare, hop⟩
  · exact ⟨.literal q content, rfl, ⟨hq, hcontent⟩, ⟨nofun, nofun⟩, rfl, rfl, nofun, rfl⟩
  · refine ⟨.word p, rfl, ⟨hne, hbare⟩, ⟨nofun, nofun⟩, rfl, hop, nofun, ?_⟩
    rw [Lexeme.tidy, hop]
    rfl

theorem exists_simples {ps : List Text} (h : ∀ p ∈ ps, SimpleParam p) :
    ∃ ls : List Lexeme, ls.map Lexeme.text = ps ∧ ∀ l ∈ ls, l.Simple := by
  induction ps with
  | nil => exact ⟨[], rfl, fun _ h => absurd h List.not_mem_nil⟩
  | cons p ps ih =>
    obtain ⟨hp, hps⟩ := List.forall_mem_cons.mp h
    obtain ⟨l, htext, hl⟩ := exists_simple hp
    obtain ⟨ls, htexts, hls⟩ := ih hps
    exact ⟨l :: ls, by rw [List.map_cons, htext, htexts], List.forall_mem_cons.mpr ⟨hl, hls⟩⟩

/-- Further parameters, each after a comma and a space. -/
def further : List Lexeme → List Placed
  | [] => []
  | l :: ls => ⟨[], .comma⟩ :: ⟨[' '], l⟩ :: further ls

/-- Parameters with a comma and a space between them. -/
def listed : List Lexeme → List Placed
  | [] => []
  | l :: ls => ⟨[], l⟩ :: further ls

theorem render_listed (ls : List Lexeme) :
    render (listed ls) = List.intercalate [',', ' '] (ls.map Lexeme.text) := by
  cases ls with
  | nil => rfl
  | cons l ls =>
    rw [listed, render_cons, List.nil_append]
    induction ls generalizing l with
    | nil => simp [further]
    | cons l' ls ih =>
      rw [List.map_cons, List.map_cons, List.intercalate_cons_cons, ← List.map_cons, ← ih l']
      simp [further, Lexeme.text]

section Simple
variable {l : Lexeme} (hl : l.Simple) {ls : List Lexeme} (hls : ∀ l ∈ ls, l.Simple)
include hl hls

theorem balanced_further (gap : Text) : Balanced (⟨gap, l⟩ :: further ls) := by
  have hfirst (gap : Text) {l : Lexeme} (hl : l.Simple) : Balanced [⟨gap, l⟩] :=
    .flat hl.flat hl.closed
  induction ls generalizing l gap with
  | nil => exact hfirst gap hl
  | cons l' ls ih =>
    obtain ⟨hl', hls⟩ := List.forall_mem_cons.mp hls
    have hcomma : Balanced [⟨[], .comma⟩] := .flat ⟨nofun, nofun⟩ rfl
    exact (hfirst gap hl).append (hcomma.append (ih hl' hls [' ']))

theorem legible_further {gap : Text} (hg : Blank gap) : Legible (⟨gap, l⟩ :: further ls) := by
  induction ls generalizing l gap with
  | nil => exact .cons hg hl.legible nofun .nil
  | cons l' ls ih =>
    obtain ⟨hl', hls⟩ := List.forall_mem_cons.mp hls
    have hrest : Legible (⟨[], .comma⟩ :: ⟨[' '], l'⟩ :: further ls) :=
      .mark blank_nil trivial rfl rfl (ih hl' hls blank_space)
    refine .cons hg hl.legible (fun q hq => ?_) hrest
    cases hq
    exact .of_gap hl.closed nofun

theorem plain_further (gap : Text) : ∀ p ∈ ⟨gap, l⟩ :: further ls, p.lexeme.op? = none := by
  induction ls generalizing l gap with
  | nil => exact List.forall_mem_singleton.mpr hl.plain
  | cons l' ls ih =>
    obtain ⟨hl', hls⟩ := List.forall_mem_cons.mp hls
    exact List.forall_mem_cons.mpr ⟨hl.plain, List.forall_mem_cons.mpr ⟨rfl, ih hl' hls [' ']⟩⟩

theorem fields_further (gap : Text) :
    fields (⟨gap, l⟩ :: further ls) = [⟨gap, l⟩] :: ls.map fun l => [⟨[' '], l⟩] := by
  have hfirst (gap : Text) {l : Lexeme} (hl : l.Simple) : fields [⟨gap, l⟩] = [[⟨gap, l⟩]] :=
    fields_plain (a := [⟨gap, l⟩]) (List.forall_mem_singleton.mpr hl.noComma) rfl
  induction ls generalizing l gap with
  | nil => exact hfirst gap hl
  | cons l' ls ih =>
    obtain ⟨hl', hls⟩ := List.forall_mem_cons.mp hls
    calc fields ([⟨gap, l⟩] ++ ⟨[], .comma⟩ :: ⟨[' '], l'⟩ :: further ls)
      _ = fields [⟨gap, l⟩] ++ fields (⟨[' '], l'⟩ :: further ls) := fields_comma _ rfl _
      _ = [[⟨gap, l⟩]] ++ [⟨[' '], l'⟩] :: ls.map fun l => [⟨[' '], l⟩] := by
        rw [hfirst gap hl, ih hl' hls [' ']]

/-- The layout of listed parameters is tidy, up to the close of their call. -/
theorem tidyAfter_further {before : Option Lexeme} {gap : Text}
    (hgap : tidyGap before ⟨gap, l⟩ = gap) :
    tidyAfter before (⟨gap, l⟩ :: further ls ++ [⟨[], .closing⟩]) =
      ⟨gap, l⟩ :: further ls ++ [⟨[], .closing⟩] := by
  induction ls generalizing before l gap with
  | nil =>
    show tidyAfter before [⟨gap, l⟩, ⟨[], .closing⟩] = [⟨gap, l⟩, ⟨[], .closing⟩]
    rw [tidyAfter, tidyAfter, hgap, tidyGap_touching rfl hl.plain rfl, hl.tidy]
    rfl
  | cons l' ls ih =>
    obtain ⟨hl', hls⟩ := List.forall_mem_cons.mp hls
    have hspace : tidyGap (some .comma) ⟨[' '], l'⟩ = [' '] := tidyGap_apart (by simp)
    have hrest := ih hl' hls hspace
    rw [List.cons_append] at hrest
    rw [further, List.cons_append, List.cons_append, List.cons_append, tidyAfter, tidyAfter, hrest,
      hgap, tidyGap_touching rfl hl.plain rfl, hl.tidy]
    rfl

end Simple

theorem paramTexts_of_ne_nil {fs : List (List Placed)} (h : ∀ f ∈ fs, f ≠ []) :
    paramTexts fs = fs.map phrase := by
  induction fs with
  | nil => rfl
  | cons f fs ih =>
    obtain ⟨hf, hfs⟩ := List.forall_mem_cons.mp h
    rw [paramTexts_cons (.inl hf), ih hfs]
    rfl

/-- Simple parameters are the parameters of the text that lists them. -/
theorem params_listed {ls : List Lexeme} (h : ∀ l ∈ ls, l.Simple) :
    params (listed ls) = ls.map Lexeme.text := by
  cases ls with
  | nil => rfl
  | cons l ls =>
    obtain ⟨hl, hls⟩ := List.forall_mem_cons.mp h
    rw [params, listed, fields_further hl hls, paramTexts_of_ne_nil (by simp)]
    simp [phrase]

/-- The call's arguments that list simple parameters. -/
theorem exists_listed_args {ls : List Lexeme} (h : ∀ l ∈ ls, l.Simple) :
    ∃ args : Args, args.placed = listed ls ++ [⟨[], .closing⟩] ∧
      args.parameters = params (listed ls) ∧
      tidyAfter (some .opening) args.placed = args.placed := by
  cases ls with
  | nil =>
    have hplain : ∀ p ∈ ([] : List Placed), p.lexeme.op? = none := by simp
    obtain ⟨args, hplaced, hparams⟩ := exists_args .nil blank_nil ⟨rfl, rfl⟩ hplain
    exact ⟨args, hplaced, hparams, by rw [hplaced]; rfl⟩
  | cons l ls =>
    obtain ⟨hl, hls⟩ := List.forall_mem_cons.mp h
    obtain ⟨args, hplaced, hparams⟩ := exists_args (legible_further hl hls blank_nil) blank_nil
      (balanced_further hl hls []) (plain_further hl hls [])
    refine ⟨args, hplaced, hparams, ?_⟩
    rw [hplaced]
    exact tidyAfter_further hl hls (tidyGap_touching rfl rfl hl.plain)

/-- Simple parameters have arguments, in tidy layout. -/
theorem exists_simple_args {ps : List Text} (h : ∀ p ∈ ps, SimpleParam p) :
    ∃ args : Args, args.text = List.intercalate [',', ' '] ps ∧ args.parameters = ps ∧
      tidyAfter (some .opening) args.placed = args.placed := by
  obtain ⟨ls, rfl, hls⟩ := exists_simples h
  obtain ⟨args, hplaced, hparams, htidy⟩ := exists_listed_args hls
  refine ⟨args, ?_, hparams.trans (params_listed hls), htidy⟩
  have htext := args.render_placed
  rw [hplaced, render_append, render_listed ls] at htext
  exact (List.append_cancel_right htext).symm

/-! ### The phrase of a tree -/

namespace Phrase

/-- The phrase derives the tree `e` from the text `s`, with so many levels. -/
structure Writes {r : Rank} (d : Phrase r) (s : Text) (e : Expr) (levels : Nat) : Prop where
  text : d.text = s
  tree : d.tree = e
  levels : d.levels = levels
  tidy : d.Tidy

/-- Parentheses around a phrase cost one level. -/
theorem Writes.group {d : Phrase .disjunction} {s : Text} {e : Expr} {levels : Nat}
    (h : d.Writes s e levels) (he : e.isCall = false) :
    (group ⟨[], blank_nil⟩ d ⟨[], blank_nil⟩).Writes (e.enclose s) e (levels + 1) := by
  refine ⟨?_, h.tree, congrArg (· + 1) h.levels, h.tidy⟩
  rw [Expr.enclose, he, Phrase.text, h.text]
  simp

theorem Writes.negate {p : Phrase .unit} {s : Text} {e : Expr} {levels : Nat}
    (h : p.Writes s e levels) : ∃ d : Phrase .disjunction,
      d.Writes (Op.not.keyword.toList ++ ' ' :: s) (.not e) (levels + 1) := by
  obtain ⟨rfl, rfl, rfl, htidy⟩ := h
  exact ⟨conjunction (negation (not (unit p))), rfl, rfl, rfl, htidy⟩

theorem Writes.join {l r : Phrase .unit} {s t : Text} {el er : Expr} {nl nr : Nat}
    (hl : l.Writes s el nl) (hr : r.Writes t er nr) {op : Op} (hop : op ≠ .not) :
    ∃ d : Phrase .disjunction, d.Writes (s ++ ' ' :: (op.keyword.toList ++ ' ' :: t))
      (.op op el er) (max nl nr + 1) := by
  obtain ⟨rfl, rfl, rfl, htidyl⟩ := hl
  obtain ⟨rfl, rfl, rfl, htidyr⟩ := hr
  cases op with
  | not => exact absurd rfl hop
  | and =>
    exact ⟨conjunction (and (unit l) (negation (unit r))), rfl, rfl, rfl, htidyl, htidyr⟩
  | or =>
    exact ⟨or (negation (unit l)) (conjunction (negation (unit r))), rfl, rfl, rfl, htidyl, htidyr⟩

end Phrase

theorem Expr.depth_pos {e : Expr} (h : e.WellFormed) : 0 < e.depth := by
  cases e with
  | missing => exact h.elim
  | call check params => exact Nat.one_pos
  | op o l r => exact Nat.lt_of_lt_of_le Nat.one_pos (Nat.le_add_right 1 _)

/-- **A well-formed tree is written as a phrase**, and as an operand it is written as a unit. -/
theorem exists_written {e : Expr} (h : e.WellFormed) :
    (∃ d : Phrase .disjunction, d.Writes e.write e (2 * e.depth - 3)) ∧
    ∃ d : Phrase .unit, d.Writes (e.enclose e.write) e (2 * e.depth - 2) := by
  induction e with
  | missing => exact h.elim
  | call check params =>
    obtain ⟨args, htext, hparams, htidy⟩ := exists_simple_args h
    obtain ⟨u, hu⟩ : ∃ u : Phrase .unit,
        u.Writes (Expr.call check params).write (.call check params) 0 := by
      refine ⟨.call check ⟨[], blank_nil⟩ args, ?_, congrArg (Expr.call check) hparams, rfl, htidy⟩
      rw [Phrase.text, htext, List.append_nil]
      rfl
    exact ⟨⟨.conjunction (.negation (.unit u)), hu.text, hu.tree, hu.levels, hu.tidy⟩, u, hu⟩
  | op o l r ihl ihr =>
    obtain ⟨d, n, hd, hn⟩ : ∃ (d : Phrase .disjunction) (n : Nat),
        d.Writes (Expr.op o l r).write (.op o l r) n ∧ n + 3 = 2 * (Expr.op o l r).depth := by
      cases o with
      | not =>
        obtain ⟨rfl, hr⟩ := h
        obtain ⟨_, u, hu⟩ := ihr hr
        obtain ⟨d, hd⟩ := hu.negate
        have hdepth := Expr.depth_pos hr
        refine ⟨d, _, hd, ?_⟩
        rw [Expr.depth, Expr.depth]
        omega
      | and | or =>
        obtain ⟨hl, hr⟩ := h
        obtain ⟨_, ul, hul⟩ := ihl hl
        obtain ⟨_, ur, hur⟩ := ihr hr
        have hdepthl := Expr.depth_pos hl
        have hdepthr := Expr.depth_pos hr
        refine (hul.join hur (by decide)).imp fun d hd => ⟨_, hd, ?_⟩
        rw [Expr.depth]
        omega
    -- A tree with an operator has depth two at least, so nothing is cut off at zero.
    have hwritten : n = 2 * (Expr.op o l r).depth - 3 := by omega
    have henclosed : n + 1 = 2 * (Expr.op o l r).depth - 2 := by omega
    exact ⟨⟨d, hwritten ▸ hd⟩, _, henclosed ▸ hd.group rfl⟩

/-- **A well-formed tree is the reading of its written form**, with the very same
parameters, if and only if its depth is at most 129: each operator below the root stands
in parentheses and so takes two of the levels there may be. -/
theorem parse_write {e : Expr} (h : e.WellFormed) : parse e.write = .ok e ↔ e.depth ≤ 129 := by
  obtain ⟨⟨d, hd⟩, _⟩ := exists_written h
  rw [← hd.text, Phrase.parse_text hd.tidy, hd.levels, maxNesting]
  constructor
  · intro ⟨_, hn⟩
    omega
  · intro hn
    exact ⟨hd.tree, by omega⟩

theorem parse_write_nested :
    let e := Expr.and (.not (.call .role ["'A'".toList]))
      (.call .resource ["doc".toList, "','".toList])
    e.write = "(NOT hasRole('A')) AND hasResourcePermission(doc, ',')".toList ∧
      parse e.write = .ok e := by
  have hwell : (Expr.and (.not (.call .role ["'A'".toList]))
      (.call .resource ["doc".toList, "','".toList])).WellFormed := by
    refine ⟨⟨rfl, List.forall_mem_singleton.mpr ?_⟩,
      List.forall_mem_cons.mpr ⟨?_, List.forall_mem_singleton.mpr ?_⟩⟩
    · exact .inl ⟨'\'', "A".toList, rfl, by decide, rfl⟩
    · exact .inr ⟨by decide, List.all_eq_true.mp (by decide), by decide⟩
    · exact .inl ⟨'\'', ",".toList, rfl, by decide, rfl⟩
  exact ⟨by decide, (parse_write hwell).mpr (by decide)⟩

end AccessRules
