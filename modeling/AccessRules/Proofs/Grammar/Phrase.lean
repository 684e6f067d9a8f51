import AccessRules.Proofs.Lexeme.Nesting
import AccessRules.Proofs.Lexeme.Tidy

/-! The grammar of rules in tidy layout.

    disjunction := conjunction | conjunction OR disjunction
    conjunction := negation | negation AND conjunction
    negation    := unit | NOT negation
    unit        := '(' disjunction ')' | name '(' arguments ')'

A `Phrase` is a derivation: it has a text, the tree it stands for, and the number of
levels around its deepest call. What follows says which lexemes it is made of
(`placed`, with `lex_text`), that they are balanced, and that the only keywords outside
groups are those its rank allows. `text_injective` is the unambiguity of the grammar: a
text has at most one derivation. -/
namespace AccessRules

/-! ### Names -/

namespace Check

theorem ofName?_name (check : Check) : ofName? check.name.toList = some check := by
  cases check <;> decide

theorem eq_name_of_ofName? {name : Text} {check : Check} (h : ofName? name = some check) :
    name = check.name.toList := by
  have hname := List.find?_some h
  exact (of_decide_eq_true hname).symm

theorem name_injective {a b : Check} (h : a.name.toList = b.name.toList) : a = b := by
  have ha := ofName?_name a
  rw [h, ofName?_name] at ha
  exact (Option.some.inj ha).symm

theorem isName_name (check : Check) : isName check.name.toList = true := by
  cases check <;> decide

/-- The name as a lexeme. -/
def lexeme (check : Check) : Lexeme := .word check.name.toList

theorem legible_lexeme (check : Check) : check.lexeme.Legible := by
  cases check <;> exact ⟨by decide, List.all_eq_true.mp (by decide)⟩

theorem op?_lexeme (check : Check) : check.lexeme.op? = none := by
  cases check <;> decide

end Check

/-! ### Derivations -/

/-- What may stand between the parentheses of a call: balanced groups, closed literals
and no keyword outside literals. `parameters` is how the text divides. -/
structure Args where
  text : Text
  parameters : List Text
  balanced : balance (lex text) = .balanced
  plain : ∀ p ∈ lex text, p.lexeme.op? = none
  divided : paramsIn text = .ok parameters

/-- Blanks that may stand between two parts of a phrase. -/
abbrev Gap := {g : Text // Blank g}

/-- The four kinds of phrase, the tightest first. -/
inductive Rank
  | unit
  | negation
  | conjunction
  | disjunction

/-- A derivation of a phrase. -/
inductive Phrase : Rank → Type
  | call (check : Check) (gap : Gap) (args : Args) : Phrase .unit
  | group (before : Gap) (inside : Phrase .disjunction) (after : Gap) : Phrase .unit
  | unit (p : Phrase .unit) : Phrase .negation
  | not (p : Phrase .negation) : Phrase .negation
  | negation (p : Phrase .negation) : Phrase .conjunction
  | and (l : Phrase .negation) (r : Phrase .conjunction) : Phrase .conjunction
  | conjunction (p : Phrase .conjunction) : Phrase .disjunction
  | or (l : Phrase .conjunction) (r : Phrase .disjunction) : Phrase .disjunction

namespace Phrase

/-- The text derived. -/
def text : {r : Rank} → Phrase r → Text
  | _, call check gap args => check.name.toList ++ gap.val ++ '(' :: (args.text ++ [')'])
  | _, group before inside after => '(' :: (before.val ++ inside.text ++ after.val ++ [')'])
  | _, not p => Op.not.keyword.toList ++ ' ' :: p.text
  | _, and l r => l.text ++ ' ' :: (Op.and.keyword.toList ++ ' ' :: r.text)
  | _, or l r => l.text ++ ' ' :: (Op.or.keyword.toList ++ ' ' :: r.text)
  | _, unit p | _, negation p | _, conjunction p => p.text

/-- The tree that the phrase stands for. -/
def tree : {r : Rank} → Phrase r → Expr
  | _, call check _ args => .call check args.parameters
  | _, group _ inside _ => inside.tree
  | _, not p => .not p.tree
  | _, and l r => .and l.tree r.tree
  | _, or l r => .or l.tree r.tree
  | _, unit p | _, negation p | _, conjunction p => p.tree

/-- The largest number of operators and groups that stand around a call. -/
def levels : {r : Rank} → Phrase r → Nat
  | _, call _ _ _ => 0
  | _, group _ inside _ => inside.levels + 1
  | _, not p => p.levels + 1
  | _, and l r => max l.levels r.levels + 1
  | _, or l r => max l.levels r.levels + 1
  | _, unit p | _, negation p | _, conjunction p => p.levels

end Phrase

/-! ### The lexemes of a phrase -/

namespace Args

theorem closed (args : Args) : Balanced (lex args.text) := balance_eq_balanced.mp args.balanced

theorem params_eq (args : Args) : params (lex args.text) = args.parameters := by
  have h := args.divided
  simp only [paramsIn, args.closed.literals, Bool.false_eq_true, if_false] at h
  exact Except.ok.inj h

/-- The arguments, followed by the close of the call. -/
def placed (args : Args) : List Placed :=
  lex args.text ++ [⟨lastBlanks args.text, .closing⟩]

theorem render_placed (args : Args) : render args.placed = args.text ++ [')'] :=
  render_lex_close args.text

theorem legible_placed (args : Args) : Legible args.placed :=
  legible_lex_close args.closed.literals

end Args

namespace Phrase

/-- The lexemes of a phrase with `gap` before it. -/
def placed : {r : Rank} → Phrase r → (gap : Text) → List Placed
  | _, call check between args, gap =>
    ⟨gap, check.lexeme⟩ :: ⟨between, .opening⟩ :: args.placed
  | _, group before inside after, gap =>
    ⟨gap, .opening⟩ :: (inside.placed before ++ [⟨after, .closing⟩])
  | _, not p, gap => ⟨gap, Op.not.lexeme⟩ :: p.placed [' ']
  | _, and l r, gap => l.placed gap ++ ⟨[' '], Op.and.lexeme⟩ :: r.placed [' ']
  | _, or l r, gap => l.placed gap ++ ⟨[' '], Op.or.lexeme⟩ :: r.placed [' ']
  | _, unit p, gap | _, negation p, gap | _, conjunction p, gap => p.placed gap

theorem render_placed {r : Rank} (d : Phrase r) (gap : Text) :
    render (d.placed gap) = gap ++ d.text := by
  induction d generalizing gap with
  | call check between args =>
    simp only [placed, render_cons, args.render_placed]
    simp [text, Check.lexeme, Lexeme.text]
  | group before inside after ih =>
    simp only [placed, render_cons, render_append, ih]
    simp [text, Lexeme.text]
  | not p ih =>
    simp only [placed, render_cons, ih]
    simp [text, Lexeme.text, Op.lexeme]
  | and l r ihl ihr | or l r ihl ihr =>
    simp only [placed, render_cons, render_append, ihl, ihr]
    simp [text, Lexeme.text, Op.lexeme]
  | unit p ih | negation p ih | conjunction p ih => exact ih gap

/-- The gap before a phrase is that of its first lexeme, and nothing else depends on it. -/
theorem placed_head {r : Rank} (d : Phrase r) :
    ∃ l rest, ∀ gap, d.placed gap = ⟨gap, l⟩ :: rest := by
  induction d with
  | and l r ihl _ | or l r ihl _ =>
    obtain ⟨l', rest, h⟩ := ihl
    exact ⟨l', rest ++ _, fun gap => by rw [placed, h]; rfl⟩
  | unit p ih | negation p ih | conjunction p ih => exact ih
  | _ => exact ⟨_, _, fun _ => rfl⟩

theorem placed_ne_nil {r : Rank} (d : Phrase r) (gap : Text) : d.placed gap ≠ [] := by
  obtain ⟨l, rest, h⟩ := d.placed_head
  rw [h]
  exact List.cons_ne_nil _ _

theorem balanced_placed {r : Rank} (d : Phrase r) (gap : Text) : Balanced (d.placed gap) := by
  have word (gap letters : Text) : Balanced [⟨gap, .word letters⟩] := .flat ⟨nofun, nofun⟩ rfl
  induction d generalizing gap with
  | call check between args =>
    exact (word gap _).append (args.closed.group between.val (lastBlanks args.text))
  | group before inside after ih => exact (ih before.val).group gap after.val
  | not p ih => exact (word gap _).append (ih [' '])
  | and l r ihl ihr | or l r ihl ihr => exact (ihl gap).append ((word [' '] _).append (ihr [' ']))
  | unit p ih | negation p ih | conjunction p ih => exact ih gap

theorem legible_keyword (op : Op) {gap : Text} (hg : Blank gap) {r : Rank} {p : Phrase r}
    (h : Legible (p.placed [' '])) : Legible (⟨gap, op.lexeme⟩ :: p.placed [' ']) := by
  obtain ⟨l, rest, hp⟩ := p.placed_head
  rw [hp] at h ⊢
  exact .keyword op hg nofun h

theorem legible_placed {r : Rank} (d : Phrase r) {gap : Text} (hg : Blank gap) :
    Legible (d.placed gap) := by
  induction d generalizing gap with
  | call check between args =>
    refine .cons hg check.legible_lexeme (fun q hq => ?_)
      (.mark between.2 trivial rfl rfl args.legible_placed)
    cases hq
    exact .of_gap rfl nofun
  | group before inside after ih =>
    exact .mark hg trivial rfl rfl
      ((ih before.2).close (inside.balanced_placed before.val).literals after.2)
  | not p ih => exact legible_keyword .not hg (ih blank_space)
  | and l r ihl ihr | or l r ihl ihr =>
    exact (ihl hg).append_cons (l.balanced_placed gap).literals (by simp)
      (legible_keyword _ blank_space (ihr blank_space))
  | unit p ih | negation p ih | conjunction p ih => exact ih hg

/-- **The text of a phrase is read as its lexemes.** -/
theorem lex_text {r : Rank} (d : Phrase r) {gap : Text} (hg : Blank gap) :
    lex (gap ++ d.text) = d.placed gap := by
  rw [← render_placed, lex_render (d.legible_placed hg)]

end Phrase

/-! ### Keywords outside groups -/

/-- The operators whose keywords can stand outside the groups of a phrase. -/
def Rank.ops : Rank → List Op
  | .unit => []
  | .negation => Op.not.scope
  | .conjunction => Op.and.scope
  | .disjunction => Op.or.scope

namespace Phrase

theorem nestAll?_placed {r : Rank} (d : Phrase r) (gap : Text) :
    nestAll? 0 (d.placed gap) = some 0 := (d.balanced_placed gap).groups

theorem cutAt?_placed {r : Rank} (d : Phrase r) (gap : Text) {op : Op} (h : op ∉ r.ops) :
    cutAt? op 0 (d.placed gap) = none := by
  -- A word that is no keyword of `op` can be passed over.
  have pass {gap letters : Text} {ls : List Placed} (hop : Op.ofWord? letters ≠ some op)
      (hls : cutAt? op 0 ls = none) : cutAt? op 0 (⟨gap, .word letters⟩ :: ls) = none := by
    rw [cutAt?, if_neg fun hn => hop hn.2]
    exact Option.map_eq_none_iff.mpr hls
  induction d generalizing gap with
  | call check between args =>
    refine pass (fun hop => ?_)
      (cutAt?_group op args.closed.groups between.val (lastBlanks args.text))
    cases check.op?_lexeme.symm.trans hop
  | group before inside after _ =>
    exact cutAt?_group op (inside.nestAll?_placed before.val) gap after.val
  | not p ih =>
    refine pass (fun hop => ?_) (ih [' '] h)
    cases hop
    exact h (by decide)
  | and l r ihl ihr =>
    obtain rfl : op = .or := by cases op <;> first | rfl | exact absurd (by decide) h
    rw [placed, cutAt?_append_eq_none (l.nestAll?_placed gap)]
    exact ⟨ihl gap (by decide), pass (by decide) (ihr [' '] (by decide))⟩
  | unit p ih => exact ih gap (by simp [Rank.ops])
  | negation p ih => exact ih gap fun hop => h (List.mem_append_left [Op.and] hop)
  | or l r _ _ | conjunction p _ => cases op <;> exact absurd (by decide) h

theorem cutAt?_not (p : Phrase .negation) (gap : Text) :
    cutAt? .not 0 ((not p).placed gap) = some ([], p.placed [' ']) :=
  cutAt?_split (l := []) rfl rfl Op.not.op?_lexeme _

theorem cutAt?_and (l : Phrase .negation) (r : Phrase .conjunction) (gap : Text) :
    cutAt? .and 0 ((and l r).placed gap) = some (l.placed gap, r.placed [' ']) :=
  cutAt?_split (l.nestAll?_placed gap) (l.cutAt?_placed gap (by decide)) Op.and.op?_lexeme _

theorem cutAt?_or (l : Phrase .conjunction) (r : Phrase .disjunction) (gap : Text) :
    cutAt? .or 0 ((or l r).placed gap) = some (l.placed gap, r.placed [' ']) :=
  cutAt?_split (l.nestAll?_placed gap) (l.cutAt?_placed gap (by decide)) Op.or.op?_lexeme _

theorem cut?_not (p : Phrase .negation) (gap : Text) :
    cut? ((not p).placed gap) = some (.not, [], p.placed [' ']) :=
  cut?_eq_some.mpr ⟨cutAt?_not p gap, fun _ h => (not p).cutAt?_placed gap h⟩

theorem cut?_and (l : Phrase .negation) (r : Phrase .conjunction) (gap : Text) :
    cut? ((and l r).placed gap) = some (.and, l.placed gap, r.placed [' ']) :=
  cut?_eq_some.mpr ⟨cutAt?_and l r gap, fun _ h => (and l r).cutAt?_placed gap h⟩

theorem cut?_or (l : Phrase .conjunction) (r : Phrase .disjunction) (gap : Text) :
    cut? ((or l r).placed gap) = some (.or, l.placed gap, r.placed [' ']) :=
  cut?_eq_some.mpr ⟨cutAt?_or l r gap, fun _ h => (or l r).cutAt?_placed gap h⟩

end Phrase

/-! ### Unambiguity -/

theorem Args.placed_injective {a b : Args} (h : a.placed = b.placed) : a = b := by
  obtain ⟨hlex, hlast⟩ := List.append_inj' h rfl
  have htext : a.text = b.text := by
    rw [← (render_lex a.text).2, ← (render_lex b.text).2, hlex]
    exact congrArg (render (lex b.text) ++ ·) (by injections)
  obtain ⟨_, _, _, _, ha⟩ := a
  obtain ⟨_, _, _, _, hb⟩ := b
  cases htext
  cases ha.symm.trans hb
  rfl

namespace Phrase

/-- The lexemes of a phrase determine its derivation and the gap before it. -/
theorem placed_injective {r : Rank} (d d' : Phrase r) {gap gap' : Text}
    (h : d.placed gap = d'.placed gap') : d = d' ∧ gap = gap' := by
  -- The cuts of the lexemes tell which rule was used and split them the same way for both.
  induction d generalizing gap gap' with
  | call check between args =>
    cases d' with
    | call check' between' args' =>
      simp only [placed, Check.lexeme, List.cons.injEq, Placed.mk.injEq, Lexeme.word.injEq] at h
      obtain ⟨⟨hgap, hname⟩, ⟨hbetween, _⟩, hargs⟩ := h
      rw [Check.name_injective hname, Subtype.ext hbetween, Args.placed_injective hargs]
      exact ⟨rfl, hgap⟩
    | group before inside after => cases h
  | group before inside after ih =>
    cases d' with
    | call check between args => cases h
    | group before' inside' after' =>
      simp only [placed, List.cons.injEq, Placed.mk.injEq] at h
      obtain ⟨⟨hgap, _⟩, hrest⟩ := h
      obtain ⟨hinside, hafter⟩ := List.append_inj' hrest rfl
      obtain ⟨hd, hbefore⟩ := ih inside' hinside
      simp only [List.cons.injEq, Placed.mk.injEq] at hafter
      rw [hd, Subtype.ext hbefore, Subtype.ext hafter.1.1]
      exact ⟨rfl, hgap⟩
  | unit p ih =>
    cases d' with
    | unit p' =>
      obtain ⟨hd, hgap⟩ := ih p' h
      exact ⟨congrArg unit hd, hgap⟩
    | not p' =>
      have hcut := cutAt?_not p' gap'
      rw [← h, placed, p.cutAt?_placed gap (by simp [Rank.ops])] at hcut
      cases hcut
  | not p ih =>
    cases d' with
    | unit p' =>
      have hcut := cutAt?_not p gap
      rw [h, placed, p'.cutAt?_placed gap' (by simp [Rank.ops])] at hcut
      cases hcut
    | not p' =>
      simp only [placed, List.cons.injEq, Placed.mk.injEq] at h
      obtain ⟨hd, _⟩ := ih p' h.2
      exact ⟨congrArg not hd, h.1.1⟩
  | negation p ih =>
    cases d' with
    | negation p' =>
      obtain ⟨hd, hgap⟩ := ih p' h
      exact ⟨congrArg negation hd, hgap⟩
    | and l' r' =>
      have hcut := cutAt?_and l' r' gap'
      rw [← h, placed, p.cutAt?_placed gap (by decide)] at hcut
      cases hcut
  | and l r ihl ihr =>
    have hcut := cutAt?_and l r gap
    rw [h] at hcut
    cases d' with
    | negation p' =>
      rw [placed, p'.cutAt?_placed gap' (by decide)] at hcut
      cases hcut
    | and l' r' =>
      simp only [cutAt?_and, Option.some.injEq, Prod.mk.injEq] at hcut
      obtain ⟨hl, hgap⟩ := ihl l' hcut.1.symm
      obtain ⟨hr, _⟩ := ihr r' hcut.2.symm
      rw [hl, hr]
      exact ⟨rfl, hgap⟩
  | conjunction p ih =>
    cases d' with
    | conjunction p' =>
      obtain ⟨hd, hgap⟩ := ih p' h
      exact ⟨congrArg conjunction hd, hgap⟩
    | or l' r' =>
      have hcut := cutAt?_or l' r' gap'
      rw [← h, placed, p.cutAt?_placed gap (by decide)] at hcut
      cases hcut
  | or l r ihl ihr =>
    have hcut := cutAt?_or l r gap
    rw [h] at hcut
    cases d' with
    | conjunction p' =>
      rw [placed, p'.cutAt?_placed gap' (by decide)] at hcut
      cases hcut
    | or l' r' =>
      simp only [cutAt?_or, Option.some.injEq, Prod.mk.injEq] at hcut
      obtain ⟨hl, hgap⟩ := ihl l' hcut.1.symm
      obtain ⟨hr, _⟩ := ihr r' hcut.2.symm
      rw [hl, hr]
      exact ⟨rfl, hgap⟩

/-- **The grammar is unambiguous**: a text has at most one derivation. -/
theorem text_injective {r : Rank} {d d' : Phrase r} (h : d.text = d'.text) : d = d' := by
  have hlex := congrArg lex h
  rw [← List.nil_append d.text, ← List.nil_append d'.text, lex_text _ blank_nil,
    lex_text _ blank_nil] at hlex
  exact (placed_injective d d' hlex).1

end Phrase
end AccessRules
