import AccessRules.Proofs.Grammar.Reading
import AccessRules.Proofs.Grammar.Spelling
import AccessRules.Proofs.Lexeme.Params

/-! Reading depends on the lexemes of a text and not on the blanks between them.

Texts with the same lexemes have tidy layouts that differ only in gaps that no rule of the
grammar looks at, so the lexemes of a phrase are a phrase however they are placed
(`Phrase.exists_placed`). Only within a parameter a gap is text, and `parse_of_sameLexemes`
therefore asks for parameters of one lexeme at most. -/
namespace AccessRules

/-! ### The same lexemes -/

/-- The same lexeme, or the same keyword whatever the case of its letters. -/
def Lexeme.Alike (l l' : Lexeme) : Prop := l = l' ∨ (l.op? ≠ none ∧ l.op? = l'.op?)

instance (l l' : Lexeme) : Decidable (l.Alike l') := inferInstanceAs (Decidable (_ ∨ _))

theorem Lexeme.Alike.tidy {l l' : Lexeme} (h : l.Alike l') : l.tidy = l'.tidy := by
  rcases h with rfl | ⟨hne, hop⟩
  · rfl
  · obtain ⟨op, hl⟩ := Option.ne_none_iff_exists'.mp hne
    rw [tidy_keyword hl, tidy_keyword (hop ▸ hl)]

/-- The texts have the same lexemes one by one, whatever blanks stand between them. -/
def SameLexemes (s s' : Text) : Prop :=
  List.Forall₂ (fun p p' => p.lexeme.Alike p'.lexeme) (lex s) (lex s')

instance (s s' : Text) : Decidable (SameLexemes s s') :=
  inferInstanceAs (Decidable (List.Forall₂ _ (lex s) (lex s')))

theorem SameLexemes.lexemes_tidyLex {s s' : Text} (h : SameLexemes s s') :
    (tidyLex s').map (·.lexeme) = (tidyLex s).map (·.lexeme) := by
  have htidy : List.Forall₂ (· = ·) ((lex s).map (·.lexeme.tidy))
      ((lex s').map (·.lexeme.tidy)) := by
    rw [List.forall₂_map_left_iff, List.forall₂_map_right_iff]
    exact h.imp fun _ _ halike => halike.tidy
  rw [List.forall₂_eq_eq_eq] at htidy
  show (tidyAfter none (lex s')).map (·.lexeme) = (tidyAfter none (lex s)).map (·.lexeme)
  rw [lexemes_tidyAfter, lexemes_tidyAfter, htidy]

theorem exists_cons_of_lexemes {ls rest : List Placed} {q : Placed}
    (h : ls.map (·.lexeme) = (q :: rest).map (·.lexeme)) :
    ∃ gap after, ls = ⟨gap, q.lexeme⟩ :: after ∧ after.map (·.lexeme) = rest.map (·.lexeme) := by
  obtain ⟨⟨gap, l⟩, after, rfl, hl, hafter⟩ := List.map_eq_cons_iff.mp h
  obtain rfl : l = q.lexeme := hl
  exact ⟨gap, after, rfl, hafter⟩

theorem exists_append_of_lexemes {ls a b : List Placed} {q : Placed}
    (h : ls.map (·.lexeme) = (a ++ q :: b).map (·.lexeme)) :
    ∃ before gap after, ls = before ++ ⟨gap, q.lexeme⟩ :: after ∧
      before.map (·.lexeme) = a.map (·.lexeme) ∧ after.map (·.lexeme) = b.map (·.lexeme) := by
  rw [List.map_append] at h
  obtain ⟨before, rest, rfl, hbefore, hrest⟩ := List.map_eq_append_iff.mp h
  obtain ⟨gap, after, rfl, hafter⟩ := exists_cons_of_lexemes hrest
  exact ⟨before, gap, after, rfl, hbefore, hafter⟩

/-- The two sides of a keyword in tidy layout. -/
theorem exists_sides {ls a b : List Placed} {op : Op} {gap : Text} (htidy : Tidied ls)
    (ha : a ≠ []) (h : ls.map (·.lexeme) = (a ++ ⟨gap, op.lexeme⟩ :: b).map (·.lexeme)) :
    ∃ before after, ls = before ++ ⟨[' '], op.lexeme⟩ :: after ∧
      before.map (·.lexeme) = a.map (·.lexeme) ∧ after.map (·.lexeme) = b.map (·.lexeme) ∧
      ∀ q ∈ after.head?, q.gap = [' '] := by
  obtain ⟨before, gap', after, rfl, hbefore, hafter⟩ := exists_append_of_lexemes h
  obtain ⟨hspace, hnext⟩ := htidy.keyword_gaps op.op?_lexeme_ne_none
  have hne : before ≠ [] := by
    rintro rfl
    exact ha (List.map_eq_nil_iff.mp hbefore.symm)
  obtain rfl := hspace hne
  exact ⟨before, after, rfl, hbefore, hafter, hnext⟩

/-! ### Phrases -/

namespace Args

/-- The lexemes of arguments are arguments however they are placed, with the same
parameters if these are single. -/
theorem exists_placed (args : Args) (hsingle : ∀ p ∈ args.parameters, SingleParam p)
    {ls : List Placed} (hls : Legible ls)
    (h : ls.map (·.lexeme) = args.placed.map (·.lexeme)) :
    ∃ args' : Args, ls = args'.placed ∧ args'.parameters = args.parameters := by
  rw [placed] at h
  obtain ⟨inside, gap, after, rfl, hinside, hafter⟩ := exists_append_of_lexemes h
  obtain rfl := List.map_eq_nil_iff.mp hafter
  have hwords : ∀ p ∈ inside, p.lexeme.op? = none := by
    intro p hp
    have hmem : p.lexeme ∈ (lex args.text).map (·.lexeme) := hinside ▸ List.mem_map_of_mem hp
    obtain ⟨q, hq, hqp⟩ := List.mem_map.mp hmem
    rw [← hqp]
    exact args.plain q hq
  rw [← args.params_eq] at hsingle
  obtain ⟨args', hargs', hparams⟩ :=
    exists_args hls.left hls.right.head.1 (args.closed.congr hinside) hwords
  refine ⟨args', hargs'.symm, ?_⟩
  rw [hparams, params_congr hinside (legible_lex args.text) hsingle, args.params_eq]

end Args

namespace Phrase

/-- **The lexemes of a phrase are a phrase however they are placed** in tidy layout, with the
same tree if its parameters are single. -/
theorem exists_placed {r : Rank} (d : Phrase r)
    (hsingle : ∀ call ∈ d.tree.calls, ∀ p ∈ call.2, SingleParam p) {gap : Text} {ls : List Placed}
    (hls : Legible ls) (htidy : Tidied ls) (h : ls.map (·.lexeme) = (d.placed gap).map (·.lexeme)) :
    ∃ (d' : Phrase r) (gap' : Text), ls = d'.placed gap' ∧ d'.tree = d.tree ∧
      d'.levels = d.levels := by
  induction d generalizing gap ls with
  | unit p ih =>
    obtain ⟨p', gap', hp, htree, hlevels⟩ := ih hsingle hls htidy h
    exact ⟨unit p', gap', hp, htree, hlevels⟩
  | negation p ih =>
    obtain ⟨p', gap', hp, htree, hlevels⟩ := ih hsingle hls htidy h
    exact ⟨negation p', gap', hp, htree, hlevels⟩
  | conjunction p ih =>
    obtain ⟨p', gap', hp, htree, hlevels⟩ := ih hsingle hls htidy h
    exact ⟨conjunction p', gap', hp, htree, hlevels⟩
  | call check between args =>
    obtain ⟨gap', rest, rfl, hrest⟩ := exists_cons_of_lexemes h
    obtain ⟨between', rest, rfl, hargs⟩ := exists_cons_of_lexemes hrest
    obtain ⟨args', rfl, hparams⟩ :=
      args.exists_placed (List.forall_mem_singleton.mp hsingle) hls.tail.tail hargs
    exact ⟨call check ⟨between', hls.tail.head.1⟩ args', gap', rfl,
      congrArg (Expr.call check) hparams, rfl⟩
  | group before inside after ih =>
    obtain ⟨gap', rest, rfl, hrest⟩ := exists_cons_of_lexemes h
    obtain ⟨rest, after', ls, rfl, hinside, hafter⟩ := exists_append_of_lexemes hrest
    obtain rfl := List.map_eq_nil_iff.mp hafter
    obtain ⟨inside', before', rfl, htree, hlevels⟩ :=
      ih hsingle hls.tail.left (Tidied.right (a := [_]) htidy).left hinside
    exact ⟨group ⟨before', blank_gap hls.tail.left⟩ inside' ⟨after', hls.tail.right.head.1⟩, gap',
      rfl, htree, congrArg (· + 1) hlevels⟩
  | not p ih =>
    obtain ⟨gap', rest, rfl, hrest⟩ := exists_cons_of_lexemes h
    obtain ⟨p', gapp, rfl, htree, hlevels⟩ :=
      ih hsingle hls.tail (Tidied.right (a := [_]) htidy) hrest
    obtain ⟨-, hnext⟩ := Tidied.keyword_gaps (l := []) htidy Op.not.op?_lexeme_ne_none
    obtain rfl := gap_eq hnext
    exact ⟨not p', gap', rfl, congrArg Expr.not htree, congrArg (· + 1) hlevels⟩
  | and l r ihl ihr =>
    obtain ⟨hsinglel, hsingler⟩ := List.forall_mem_append.mp hsingle
    obtain ⟨before, after, rfl, hl, hr, hnext⟩ := exists_sides htidy (l.placed_ne_nil gap) h
    obtain ⟨l', gapl, rfl, htreel, hlevelsl⟩ := ihl hsinglel hls.left htidy.left hl
    obtain ⟨r', gapr, rfl, htreer, hlevelsr⟩ :=
      ihr hsingler hls.right.tail (Tidied.right (a := [_]) htidy.right) hr
    obtain rfl := gap_eq hnext
    exact ⟨and l' r', gapl, rfl, congrArg₂ Expr.and htreel htreer,
      by rw [levels, levels, hlevelsl, hlevelsr]⟩
  | or l r ihl ihr =>
    obtain ⟨hsinglel, hsingler⟩ := List.forall_mem_append.mp hsingle
    obtain ⟨before, after, rfl, hl, hr, hnext⟩ := exists_sides htidy (l.placed_ne_nil gap) h
    obtain ⟨l', gapl, rfl, htreel, hlevelsl⟩ := ihl hsinglel hls.left htidy.left hl
    obtain ⟨r', gapr, rfl, htreer, hlevelsr⟩ :=
      ihr hsingler hls.right.tail (Tidied.right (a := [_]) htidy.right) hr
    obtain rfl := gap_eq hnext
    exact ⟨or l' r', gapl, rfl, congrArg₂ Expr.or htreel htreer,
      by rw [levels, levels, hlevelsl, hlevelsr]⟩

end Phrase

/-! ### Texts -/

/-- **Reading depends on the lexemes only.** If no parameter is more than one lexeme, then every
text with the same lexemes is read as the same tree, whatever blanks stand between them
and whatever the case of the keywords. -/
theorem parse_of_sameLexemes {s s' : Text} {e : Expr} (h : parse s = .ok e)
    (hsingle : ∀ call ∈ e.calls, ∀ p ∈ call.2, SingleParam p) (hsame : SameLexemes s s') :
    parse s' = .ok e := by
  obtain ⟨d, hd, rfl, hlevels⟩ := phrase_of_parse h
  have hlexemes := hsame.lexemes_tidyLex
  rw [hd] at hlexemes
  obtain ⟨d', gap, hd', htree, hlevels'⟩ :=
    d.exists_placed hsingle (legible_tidyLex s') (tidied_tidyLex s') hlexemes
  obtain rfl : gap = [] := Phrase.gap_eq (d := d') (hd' ▸ head?_tidyLex s')
  rw [parse_of_phrase hd' (hlevels' ▸ hlevels), htree]

theorem parse_of_sameLexemes_spaced :
    let s := "hasRole('A and B')and not(hasPermission(x,,\"y)\"))".toList
    let s' := "\thasRole\u00a0( 'A and B' )AND\u2003NOT ( hasPermission(x , ,\n\"y)\" )) ".toList
    let e := Expr.and (.call .role ["'A and B'".toList])
      (.not (.call .permission ["x".toList, [], "\"y)\"".toList]))
    parse s = .ok e ∧ (∀ call ∈ e.calls, ∀ p ∈ call.2, SingleParam p) ∧ SameLexemes s s' ∧
      parse s' = .ok e := by
  intro s s' e
  have h : parse s = .ok e := by decide +kernel
  have hrole : SingleParam "'A and B'".toList :=
    .inr ⟨'\'', "A and B".toList, by decide, by decide, by decide⟩
  have hquoted : SingleParam "\"y)\"".toList :=
    .inr ⟨'"', "y)".toList, by decide, by decide, by decide⟩
  have hword : SingleParam "x".toList := .inl (List.all_eq_true.mp (by decide))
  have hempty : SingleParam [] := .inl nofun
  have hsingle : ∀ call ∈ e.calls, ∀ p ∈ call.2, SingleParam p := by
    refine List.forall_mem_cons.mpr ⟨List.forall_mem_singleton.mpr hrole, ?_⟩
    refine List.forall_mem_singleton.mpr (List.forall_mem_cons.mpr ⟨hword, ?_⟩)
    exact List.forall_mem_cons.mpr ⟨hempty, List.forall_mem_singleton.mpr hquoted⟩
  have hsame : SameLexemes s s' := by decide +kernel
  exact ⟨h, hsingle, hsame, parse_of_sameLexemes h hsingle hsame⟩

end AccessRules
