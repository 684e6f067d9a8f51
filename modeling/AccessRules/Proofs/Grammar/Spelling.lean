import AccessRules.Proofs.Grammar.Inspection
import Mathlib

/-! The calls of a rule, as its text has them.

A rule is written with blanks and keywords in any case, and read in tidy layout. `Spelled`
says what its own lexemes are: calls, with keywords and parentheses around them.
`spelled_of_parse` shows that every text that is read is spelled so, its calls being those of
the tree in order, and `Spelled.calls` that these are the calls found in the text. -/
namespace AccessRules

/-- The calls of a tree, from left to right. -/
def Expr.calls : Expr → List (Check × List Text)
  | missing => []
  | call check params => [(check, params)]
  | op _ l r => l.calls ++ r.calls

/-! ### Lexemes before the tidy layout -/

namespace Lexeme

/-- What is no keyword and no open literal has only itself for its layout. -/
theorem eq_of_tidy_eq {l l' : Lexeme} (h : l.tidy = l') (hop : l'.op? = none)
    (hopen : l'.isOpenLiteral = false) : l = l' := by
  subst h
  rw [op?_tidy] at hop
  rw [isOpenLiteral_tidy] at hopen
  exact (tidy_of_plain hop hopen).symm

theorem nest?_tidy (l : Lexeme) (depth : Nat) : l.tidy.nest? depth = l.nest? depth := by
  cases l <;> rfl

end Lexeme

theorem tidyAfter_eq_nil {before : Option Lexeme} {ls : List Placed}
    (h : tidyAfter before ls = []) : ls = [] := by
  cases ls with
  | nil => rfl
  | cons p ls => cases h

theorem tidyAfter_eq_cons {before : Option Lexeme} {ls rest : List Placed} {q : Placed}
    (h : tidyAfter before ls = q :: rest) : ∃ p ls', ls = p :: ls' ∧ p.lexeme.tidy = q.lexeme ∧
      tidyAfter (some p.lexeme) ls' = rest := by
  cases ls with
  | nil => cases h
  | cons p ls' =>
    cases h
    exact ⟨p, ls', rfl, rfl, rfl⟩

theorem tidyAfter_eq_append {before : Option Lexeme} {ls a b : List Placed}
    (h : tidyAfter before ls = a ++ b) : ∃ la lb before', ls = la ++ lb ∧
      tidyAfter before la = a ∧ tidyAfter before' lb = b := by
  induction a generalizing before ls with
  | nil => exact ⟨[], ls, before, rfl, rfl, h⟩
  | cons q a ih =>
    cases ls with
    | nil => cases h
    | cons p ls =>
      obtain ⟨hq, hrest⟩ := List.cons.inj h
      obtain ⟨la, lb, before', rfl, ha, hb⟩ := ih hrest
      exact ⟨p :: la, lb, before', rfl, by rw [tidyAfter, hq, ha], hb⟩

theorem nestAll?_tidyAfter (before : Option Lexeme) (ls : List Placed) (depth : Nat) :
    nestAll? depth (tidyAfter before ls) = nestAll? depth ls := by
  induction ls generalizing before depth with
  | nil => rfl
  | cons p ls ih =>
    simp only [tidyAfter, nestAll?, Lexeme.nest?_tidy]
    exact congrArg _ (funext fun _ => ih _ _)

theorem balanced_of_tidyAfter {before : Option Lexeme} {ls : List Placed}
    (h : Balanced (tidyAfter before ls)) : Balanced ls :=
  ⟨(nestAll?_tidyAfter before ls 0).symm.trans h.groups,
    (endsInLiteral_tidyAfter before ls).symm.trans h.literals⟩

theorem plain_of_tidyAfter {before : Option Lexeme} {ls : List Placed}
    (h : ∀ p ∈ tidyAfter before ls, p.lexeme.op? = none) : ∀ p ∈ ls, p.lexeme.op? = none := by
  intro p hp
  have hmem := List.mem_map_of_mem (f := (·.lexeme.tidy)) hp
  rw [← lexemes_tidyAfter before] at hmem
  obtain ⟨q, hq, hqp⟩ := List.mem_map.mp hmem
  rw [← Lexeme.op?_tidy, ← hqp]
  exact h q hq

/-! ### Spelled texts -/

/-- A call as a text has it: the check it names, the lexemes between its parentheses, and
the blanks before its close. -/
structure Occurrence where
  check : Check
  args : List Placed
  lastGap : Text
  legible : Legible args
  balanced : Balanced args
  plain : ∀ p ∈ args, p.lexeme.op? = none
  blank : Blank lastGap

namespace Occurrence

/-- The text between the parentheses. -/
def text (o : Occurrence) : Text := render o.args ++ o.lastGap

/-- The parameters, which are read in tidy layout. -/
def params (o : Occurrence) : List Text := AccessRules.params (tidyAfter (some .opening) o.args)

/-- The call of the tree that is read. -/
def call (o : Occurrence) : Check × List Text := (o.check, o.params)

/-- The lexemes of the call, with these blanks before its name and before its arguments. -/
def placed (o : Occurrence) (gap between : Text) : List Placed :=
  ⟨gap, o.check.lexeme⟩ :: ⟨between, .opening⟩ :: (o.args ++ [⟨o.lastGap, .closing⟩])

theorem placed_append (o : Occurrence) (gap between : Text) (ls : List Placed) :
    o.placed gap between ++ ls =
      ⟨gap, o.check.lexeme⟩ :: ⟨between, .opening⟩ :: (o.args ++ ⟨o.lastGap, .closing⟩ :: ls) := by
  simp [placed]

end Occurrence

/-- A keyword or a parenthesis. -/
def Lexeme.Mark (l : Lexeme) : Prop := l = .opening ∨ l = .closing ∨ l.op? ≠ none

theorem Op.mark_lexeme (op : Op) : op.lexeme.Mark := .inr (.inr op.op?_lexeme_ne_none)

theorem Lexeme.Mark.closed {l : Lexeme} (h : l.Mark) : l.isOpenLiteral = false := by
  rcases h with rfl | rfl | h
  · rfl
  · rfl
  · cases l with
    | openLiteral quote content => exact absurd rfl h
    | _ => rfl

/-- The lexemes are these calls, with keywords and parentheses around them. -/
inductive Spelled : List Placed → List Occurrence → Prop
  | nil : Spelled [] []
  | mark {p : Placed} {ls : List Placed} {os : List Occurrence} (hp : p.lexeme.Mark)
      (rest : Spelled ls os) : Spelled (p :: ls) os
  | call (o : Occurrence) (gap between : Text) {ls : List Placed} {os : List Occurrence}
      (rest : Spelled ls os) : Spelled (o.placed gap between ++ ls) (o :: os)

namespace Spelled

theorem append {a b : List Placed} {os os' : List Occurrence} (ha : Spelled a os)
    (hb : Spelled b os') : Spelled (a ++ b) (os ++ os') := by
  induction ha with
  | nil => exact hb
  | mark hp _ ih => exact .mark hp ih
  | call o gap between _ ih =>
    rw [List.append_assoc]
    exact .call o gap between ih

theorem close {ls : List Placed} {os : List Occurrence} (h : Spelled ls os) (gap : Text) :
    Spelled (ls ++ [⟨gap, .closing⟩]) os := by
  have hclose : Spelled [⟨gap, .closing⟩] [] := .mark (.inr (.inl rfl)) .nil
  have happend := h.append hclose
  rwa [List.append_nil] at happend

/-- Calls, keywords and parentheses leave no literal open. -/
theorem closed {ls : List Placed} {os : List Occurrence} (h : Spelled ls os) :
    endsInLiteral ls = false := by
  induction h with
  | nil => rfl
  | mark hp _ ih =>
    rw [endsInLiteral_cons, hp.closed, ih]
    rfl
  | call o gap between _ ih =>
    rw [o.placed_append, endsInLiteral_cons, endsInLiteral_cons, endsInLiteral_append,
      o.balanced.literals, endsInLiteral_cons, ih]
    rfl

/-- It makes no difference how many blanks stand before the first lexeme. -/
theorem addBlank {ls : List Placed} {os : List Occurrence} (h : Spelled ls os) (c : Char) :
    Spelled (AccessRules.addBlank c ls) os := by
  cases h with
  | nil => exact .nil
  | mark hp rest => exact .mark hp rest
  | call o gap between rest => exact .call o (c :: gap) between rest

end Spelled

/-- A keyword before the tidy layout, and what follows it. -/
theorem spelled_keyword {before : Option Lexeme} {ls rest : List Placed} {gap : Text} {op : Op}
    (h : tidyAfter before ls = ⟨gap, op.lexeme⟩ :: rest) : ∃ p before' ls', ls = p :: ls' ∧
      p.lexeme.Mark ∧ tidyAfter before' ls' = rest := by
  obtain ⟨p, ls', rfl, hp, hrest⟩ := tidyAfter_eq_cons h
  refine ⟨p, some p.lexeme, ls', rfl, .inr (.inr ?_), hrest⟩
  rw [← Lexeme.op?_tidy, hp, op.op?_lexeme]
  nofun

namespace Phrase

/-- **Lexemes whose tidy layout is a phrase are spelled as calls**, those of its tree. -/
theorem exists_spelled {r : Rank} (d : Phrase r) {before : Option Lexeme} {gap : Text}
    {ls : List Placed} (hls : Legible ls) (h : tidyAfter before ls = d.placed gap) :
    ∃ os, Spelled ls os ∧ os.map Occurrence.call = d.tree.calls := by
  -- Each rule takes the tidy lexemes apart, and `ls` comes apart at the same places.
  induction d generalizing before gap ls with
  | unit p ih | negation p ih | conjunction p ih => exact ih hls h
  | call check between args =>
    obtain ⟨p, ls, rfl, hname, hrest⟩ := tidyAfter_eq_cons h
    obtain ⟨q, ls, rfl, hopening, hargs⟩ := tidyAfter_eq_cons hrest
    obtain ⟨gap, l⟩ := p
    obtain ⟨between, m⟩ := q
    obtain rfl : l = check.lexeme := Lexeme.eq_of_tidy_eq hname check.op?_lexeme rfl
    obtain rfl : m = .opening := Lexeme.eq_of_tidy_eq hopening rfl rfl
    obtain ⟨inside, last, before', rfl, hinside, hlast⟩ := tidyAfter_eq_append hargs
    obtain ⟨⟨lastGap, c⟩, ls, rfl, hclosing, hnil⟩ := tidyAfter_eq_cons hlast
    obtain rfl : c = .closing := Lexeme.eq_of_tidy_eq hclosing rfl rfl
    obtain rfl : ls = [] := tidyAfter_eq_nil hnil
    have hbalanced := args.closed
    have hplain := args.plain
    rw [← hinside] at hbalanced hplain
    have hargs' := hls.tail.tail
    let o : Occurrence := ⟨check, inside, lastGap, hargs'.left, balanced_of_tidyAfter hbalanced,
      plain_of_tidyAfter hplain, hargs'.right.head.1⟩
    have hcall : Spelled (o.placed gap between ++ []) [o] := .call o gap between .nil
    rw [List.append_nil] at hcall
    refine ⟨[o], hcall, ?_⟩
    show [(check, params (tidyAfter (some .opening) inside))] = [(check, args.parameters)]
    rw [hinside, args.params_eq]
  | group open' inside after ih =>
    obtain ⟨⟨gap, l⟩, ls, rfl, hopening, hrest⟩ := tidyAfter_eq_cons h
    obtain rfl : l = .opening := Lexeme.eq_of_tidy_eq hopening rfl rfl
    obtain ⟨ls, last, before', rfl, hinside, hlast⟩ := tidyAfter_eq_append hrest
    obtain ⟨⟨lastGap, c⟩, ls', rfl, hclosing, hnil⟩ := tidyAfter_eq_cons hlast
    obtain rfl : c = .closing := Lexeme.eq_of_tidy_eq hclosing rfl rfl
    obtain rfl : ls' = [] := tidyAfter_eq_nil hnil
    obtain ⟨os, hos, hcalls⟩ := ih hls.tail.left hinside
    exact ⟨os, .mark (.inl rfl) (hos.close lastGap), hcalls⟩
  | not p ih =>
    obtain ⟨q, before', ls, rfl, hq, hrest⟩ := spelled_keyword h
    obtain ⟨os, hos, hcalls⟩ := ih hls.tail hrest
    exact ⟨os, .mark hq hos, hcalls⟩
  | and l r ihl ihr | or l r ihl ihr =>
    obtain ⟨la, lb, before', rfl, hl, hkr⟩ := tidyAfter_eq_append h
    obtain ⟨q, before'', lr, rfl, hq, hr⟩ := spelled_keyword hkr
    obtain ⟨osl, hosl, hcallsl⟩ := ihl hls.left hl
    obtain ⟨osr, hosr, hcallsr⟩ := ihr hls.right.tail hr
    refine ⟨osl ++ osr, hosl.append (.mark hq hosr), ?_⟩
    rw [List.map_append, hcallsl, hcallsr]
    rfl

end Phrase

/-- **A text that is read is spelled as the calls of its tree.** -/
theorem spelled_of_parse {s : Text} {e : Expr} (h : parse s = .ok e) :
    ∃ os, Spelled (lex s) os ∧ os.map Occurrence.call = e.calls := by
  obtain ⟨d, hd, rfl, _⟩ := phrase_of_parse h
  exact d.exists_spelled (legible_lex s) hd

/-! ### Calls in the text -/

theorem toUpper_mem_keyword {letters : Text} {op : Op} (h : Op.ofWord? letters = some op)
    {c : Char} (hc : c ∈ letters) : c.toUpper ∈ op.keyword.toList := by
  rw [← Op.ofWord?_eq_some.mp h]
  exact List.mem_map_of_mem hc

/-- A keyword is made of letters. -/
theorem isNameChar_of_keyword {letters : Text} {op : Op} (h : Op.ofWord? letters = some op)
    {c : Char} (hc : c ∈ letters) : isNameChar c = true := by
  have hkeyword : ∀ d ∈ op.keyword.toList, d.isUpper = true := by
    cases op <;> exact List.all_eq_true.mp (by decide)
  have halpha : c.isAlpha = true :=
    c.isUpper_toUpper_eq_isAlpha.symm.trans (hkeyword _ (toUpper_mem_keyword h hc))
  simp [isNameChar, Char.isAlphanum, halpha]

theorem callee?_of_mark {l : Lexeme} (h : l.Mark) : l.callee? = none := by
  rcases h with rfl | rfl | h
  · rfl
  · rfl
  · cases l with
    | word letters =>
      obtain ⟨op, hop⟩ := Option.ne_none_iff_exists'.mp h
      have hletters : nameEnd letters = letters :=
        nameEnd_eq_self fun c hc => isNameChar_of_keyword hop hc
      refine if_neg fun hn => ?_
      rw [hletters] at hn
      exact h hn.2
    | _ => exact absurd rfl h

namespace Spelled

/-- The calls found in the text are those it is spelled as. -/
theorem calls {ls : List Placed} {os : List Occurrence} (h : Spelled ls os) (offset : Nat) :
    (callsFrom offset ls).map (fun c => (c.name, c.args)) =
      os.map fun o => (o.check.name.toList, some o.text) := by
  induction h generalizing offset with
  | nil => simp [callsFrom]
  | mark hp _ ih =>
    rw [callsFrom_skip (callee?_of_mark hp)]
    exact ih _
  | call o gap between _ ih =>
    rw [o.placed_append, callsFrom_call (callee?_name o.check) o.balanced.groups, List.map_cons, ih]
    rfl

end Spelled
end AccessRules
