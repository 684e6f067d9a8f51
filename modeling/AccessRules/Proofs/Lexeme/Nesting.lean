import AccessRules.Parse
import AccessRules.Proofs.Lexeme.Render

/-! Parentheses and cuts, by what stands on each side.

`nestAll?` follows the number of open groups over lexemes; `Balanced` lexemes close
what they open, and their literals. In these terms the scans of the library are
splits of a list: a group ends at the first close that its inside does not need
(`closeGroup?_eq_some`), a whole group is balanced lexemes between parentheses
(`wholeGroup?_eq_some`), and a cut is at an operator with nothing open before it
(`cutAt?_eq_some`). -/
namespace AccessRules

/-! ### Open groups -/

/-- The number of open groups after the lexemes, when `depth` are open before them;
none if one closes a group that is not open. -/
def nestAll? : Nat → List Placed → Option Nat
  | depth, [] => some depth
  | depth, p :: rest => (p.lexeme.nest? depth).bind (nestAll? · rest)

/-- The lexeme is no parenthesis. -/
def Lexeme.Flat (l : Lexeme) : Prop := l ≠ .opening ∧ l ≠ .closing

theorem Lexeme.Flat.nest? {l : Lexeme} (h : l.Flat) (depth : Nat) :
    l.nest? depth = some depth := by
  cases l with
  | opening => exact absurd rfl h.1
  | closing => exact absurd rfl h.2
  | _ => rfl

theorem Lexeme.flat_of_op? {l : Lexeme} (h : l.op? ≠ none) : l.Flat := by
  constructor <;> rintro rfl <;> exact h rfl

theorem Lexeme.nest?_eq_none {l : Lexeme} {depth : Nat} :
    l.nest? depth = none ↔ l = .closing ∧ depth = 0 := by
  cases l <;> cases depth <;> simp [Lexeme.nest?]

theorem Lexeme.nest?_succ {l : Lexeme} {depth after : Nat} (h : l.nest? depth = some after) :
    l.nest? (depth + 1) = some (after + 1) := by
  cases l <;> cases depth <;> simp_all [Lexeme.nest?]

theorem nestAll?_append (depth : Nat) (a b : List Placed) :
    nestAll? depth (a ++ b) = (nestAll? depth a).bind (nestAll? · b) := by
  induction a generalizing depth with
  | nil => rfl
  | cons p rest ih =>
    simp only [List.cons_append, nestAll?, Option.bind_assoc]
    exact congrArg _ (funext fun _ => ih _)

theorem nestAll?_succ {depth after : Nat} {ls : List Placed} (h : nestAll? depth ls = some after) :
    nestAll? (depth + 1) ls = some (after + 1) := by
  induction ls generalizing depth with
  | nil => cases h; rfl
  | cons p rest ih =>
    obtain ⟨d, hd, hrest⟩ := Option.bind_eq_some_iff.mp h
    simp only [nestAll?, Lexeme.nest?_succ hd, Option.bind_some]
    exact ih hrest

theorem nestAll?_flat {ls : List Placed} (h : ∀ p ∈ ls, p.lexeme.Flat) (depth : Nat) :
    nestAll? depth ls = some depth := by
  induction ls with
  | nil => rfl
  | cons p rest ih =>
    simp only [nestAll?, (h p (List.mem_cons_self ..)).nest?, Option.bind_some]
    exact ih fun q hq => h q (List.mem_cons_of_mem p hq)

/-! ### Balanced lexemes -/

/-- Every group and every literal that is opened is closed, and no other. -/
structure Balanced (ls : List Placed) : Prop where
  groups : nestAll? 0 ls = some 0
  literals : endsInLiteral ls = false

namespace Balanced

theorem append {a b : List Placed} (ha : Balanced a) (hb : Balanced b) : Balanced (a ++ b) :=
  ⟨by rw [nestAll?_append, ha.groups]; exact hb.groups,
    by rw [endsInLiteral_append, ha.literals, hb.literals]; rfl⟩

theorem flat {p : Placed} (h : p.lexeme.Flat) (hc : p.lexeme.isOpenLiteral = false) :
    Balanced [p] :=
  ⟨nestAll?_flat (List.forall_mem_singleton.mpr h) 0, by simp [endsInLiteral, hc]⟩

theorem group {inside : List Placed} (h : Balanced inside) (before after : Text) :
    Balanced (⟨before, .opening⟩ :: (inside ++ [⟨after, .closing⟩])) := by
  constructor
  · show nestAll? 1 (inside ++ [⟨after, .closing⟩]) = some 0
    rw [nestAll?_append, nestAll?_succ h.groups]
    rfl
  · rw [endsInLiteral_cons, endsInLiteral_append, h.literals]
    rfl

end Balanced

/-- How many groups are open depends on the lexemes and not on what is between them. -/
theorem nestAll?_congr {a b : List Placed} (h : a.map (·.lexeme) = b.map (·.lexeme))
    (depth : Nat) : nestAll? depth a = nestAll? depth b := by
  induction a generalizing b depth with
  | nil => rw [List.map_eq_nil_iff.mp h.symm]
  | cons p a ih =>
    cases b with
    | nil => cases h
    | cons q b =>
      obtain ⟨hp, hrest⟩ : p.lexeme = q.lexeme ∧ _ := List.cons.inj h
      rw [nestAll?, nestAll?, hp]
      exact Option.bind_congr fun depth' _ => ih hrest depth'

theorem Balanced.congr {a b : List Placed} (h : a.map (·.lexeme) = b.map (·.lexeme))
    (hb : Balanced b) : Balanced a := by
  refine ⟨(nestAll?_congr h 0).trans hb.groups, ?_⟩
  have hany (ls : List Placed) :
      endsInLiteral ls = (ls.map (·.lexeme)).any Lexeme.isOpenLiteral := by
    rw [List.any_map]
    rfl
  rw [hany, h, ← hany, hb.literals]

theorem balanceFrom_eq_balanced {depth : Nat} {ls : List Placed} :
    balanceFrom depth ls = .balanced ↔
      nestAll? depth ls = some 0 ∧ endsInLiteral ls = false := by
  induction ls generalizing depth with
  | nil => cases depth <;> simp [balanceFrom, nestAll?, endsInLiteral]
  | cons p rest ih =>
    rw [balanceFrom.eq_3, nestAll?, endsInLiteral_cons]
    cases hopen : p.lexeme.isOpenLiteral
    · cases p.lexeme.nest? depth with
      | none => simp
      | some d => simp [ih]
    · simp

theorem balance_eq_balanced {ls : List Placed} : balance ls = .balanced ↔ Balanced ls :=
  balanceFrom_eq_balanced.trans ⟨fun h => ⟨h.1, h.2⟩, fun h => ⟨h.groups, h.literals⟩⟩

/-- How parentheses stand is what they leave open, and whether a literal is open at the end. -/
theorem balanceFrom_eq {depth : Nat} {ls : List Placed} (h : Legible ls) : balanceFrom depth ls =
    match nestAll? depth ls with
    | none => .unmatchedClose
    | some 0 => if endsInLiteral ls then .openLiteral else .balanced
    | some (after + 1) => if endsInLiteral ls then .openLiteral else .unmatchedOpen (after + 1) := by
  induction ls generalizing depth with
  | nil => cases depth <;> rfl
  | cons p ls ih =>
    rw [balanceFrom.eq_3, nestAll?, endsInLiteral_cons]
    cases hopen : p.lexeme.isOpenLiteral with
    | false =>
      cases p.lexeme.nest? depth with
      | none => rfl
      | some depth' => exact ih h.tail
    | true =>
      -- Nothing comes after the literal that could still close a group.
      obtain rfl : ls = [] := by
        cases ls with
        | nil => rfl
        | cons q ls => cases hopen.symm.trans (h.head.2.2 q rfl).closed
      have hflat : p.lexeme.Flat := by
        constructor <;>
        · intro hmark
          rw [hmark] at hopen
          cases hopen
      rw [hflat.nest?]
      cases depth <;> rfl

/-! ### Groups -/

/-- A group is never closed if what is open can be followed to the end. -/
theorem closeGroup?_eq_none {depth : Nat} {ls : List Placed} :
    closeGroup? depth ls = none ↔ ∃ after, nestAll? depth ls = some after := by
  induction ls generalizing depth with
  | nil => exact iff_of_true rfl ⟨depth, rfl⟩
  | cons p ls ih =>
    rw [closeGroup?, nestAll?]
    cases p.lexeme.nest? depth with
    | none => simp
    | some depth' => simp [ih]

/-- A group ends at the first close that its inside does not need. -/
theorem closeGroup?_eq_some {depth : Nat} {ls : List Placed} {g : Group} :
    closeGroup? depth ls = some g ↔
      ls = g.inside ++ ⟨g.lastGap, .closing⟩ :: g.after ∧ nestAll? depth g.inside = some 0 := by
  induction ls generalizing depth g with
  | nil => simp [closeGroup?]
  | cons p rest ih =>
    obtain ⟨inside, lastGap, after⟩ := g
    rw [closeGroup?]
    cases hn : p.lexeme.nest? depth with
    | none =>
      obtain ⟨hp, rfl⟩ := Lexeme.nest?_eq_none.mp hn
      obtain ⟨gap, l⟩ := p
      cases hp
      cases inside with
      | nil => simp [nestAll?]
      | cons q inside =>
        simp only [Option.some.injEq, Group.mk.injEq, List.cons_append, List.cons.injEq, nestAll?]
        constructor
        · rintro ⟨h, _⟩
          cases h
        · rintro ⟨⟨rfl, _⟩, h⟩
          cases h
    | some d =>
      cases inside with
      | nil =>
        simp only [Option.map_eq_some_iff, Group.add, Group.mk.injEq, List.nil_append,
          List.cons.injEq, nestAll?, Option.some.injEq]
        constructor
        · rintro ⟨_, _, h, _⟩
          cases h
        · rintro ⟨⟨rfl, _⟩, rfl⟩
          cases hn
      | cons q inside =>
        have hi := @ih d ⟨inside, lastGap, after⟩
        simp only [Option.map_eq_some_iff, Group.add, Group.mk.injEq, List.cons_append,
          List.cons.injEq, nestAll?]
        constructor
        · rintro ⟨⟨i, g, a⟩, hg, ⟨rfl, rfl⟩, rfl, rfl⟩
          obtain ⟨h₁, h₂⟩ := hi.mp hg
          exact ⟨⟨rfl, h₁⟩, by rw [hn]; exact h₂⟩
        · rintro ⟨⟨rfl, h₁⟩, h₂⟩
          rw [hn] at h₂
          exact ⟨_, hi.mpr ⟨h₁, h₂⟩, ⟨rfl, rfl⟩, rfl, rfl⟩

/-- The piece is one group as a whole: balanced groups between two parentheses. -/
theorem wholeGroup?_eq_some {piece inside : List Placed} :
    wholeGroup? piece = some inside ↔
      ∃ before after, piece = ⟨before, .opening⟩ :: (inside ++ [⟨after, .closing⟩]) ∧
        nestAll? 0 inside = some 0 := by
  cases piece with
  | nil => simp [wholeGroup?]
  | cons p rest =>
    obtain ⟨gap, l⟩ := p
    rw [wholeGroup?]
    constructor
    · intro h
      split at h
      · rename_i hl
        split at h
        · rename_i i g hg
          cases h
          cases hl
          obtain ⟨h₁, h₂⟩ := closeGroup?_eq_some.mp hg
          exact ⟨gap, g, by rw [h₁], h₂⟩
        · cases h
      · cases h
    · rintro ⟨before, after, h, hn⟩
      cases h
      rw [if_pos rfl, (closeGroup?_eq_some (g := ⟨inside, after, []⟩)).mpr ⟨rfl, hn⟩]

/-! ### Cuts -/

/-- Nothing is cut inside a group. -/
theorem cutAt?_inside {depth after : Nat} {ls : List Placed} (op : Op)
    (h : nestAll? depth ls = some after) : cutAt? op (depth + 1) ls = none := by
  induction ls generalizing depth with
  | nil => rfl
  | cons p rest ih =>
    obtain ⟨d, hd, hrest⟩ := Option.bind_eq_some_iff.mp h
    rw [cutAt?, if_neg (fun hn => Nat.succ_ne_zero depth hn.1), Lexeme.nest?_succ hd]
    simp [ih hrest]

theorem cutAt?_append {op : Op} {depth after : Nat} {a : List Placed}
    (h : nestAll? depth a = some after) (hn : cutAt? op depth a = none) (b : List Placed) :
    cutAt? op depth (a ++ b) = (cutAt? op after b).map fun (l, r) => (a ++ l, r) := by
  induction a generalizing depth with
  | nil =>
    cases h
    simp
  | cons p rest ih =>
    obtain ⟨d, hd, hrest⟩ := Option.bind_eq_some_iff.mp h
    rw [cutAt?] at hn
    split at hn
    · cases hn
    · rename_i hp
      rw [hd, Option.map_eq_none_iff] at hn
      rw [List.cons_append, cutAt?, if_neg hp, hd, Option.getD_some, ih hrest hn]
      simp [Option.map_map, Function.comp_def]

theorem cutAt?_append_eq_none {op : Op} {depth after : Nat} {a : List Placed}
    (h : nestAll? depth a = some after) (b : List Placed) :
    cutAt? op depth (a ++ b) = none ↔ cutAt? op depth a = none ∧ cutAt? op after b = none := by
  induction a generalizing depth with
  | nil =>
    cases h
    simp [cutAt?]
  | cons p rest ih =>
    obtain ⟨d, hd, hrest⟩ := Option.bind_eq_some_iff.mp h
    rw [List.cons_append, cutAt?, cutAt?, hd, Option.getD_some]
    split
    · simp
    · simp [ih hrest]

/-- The first keyword of the operator with nothing open before it is where to cut. -/
theorem cutAt?_split {op : Op} {l : List Placed} {p : Placed} (h : nestAll? 0 l = some 0)
    (hn : cutAt? op 0 l = none) (hop : p.lexeme.op? = some op) (r : List Placed) :
    cutAt? op 0 (l ++ p :: r) = some (l, r) := by
  rw [cutAt?_append h hn, cutAt?, if_pos ⟨rfl, hop⟩]
  simp

/-- A cut is at the first keyword of the operator with nothing open before it. -/
theorem cutAt?_eq_some {op : Op} {depth after : Nat} {ls l r : List Placed}
    (h : nestAll? depth ls = some after) (hc : cutAt? op depth ls = some (l, r)) :
    ∃ p, ls = l ++ p :: r ∧ p.lexeme.op? = some op ∧ nestAll? depth l = some 0 ∧
      cutAt? op depth l = none := by
  induction ls generalizing depth l with
  | nil => cases hc
  | cons p rest ih =>
    obtain ⟨d, hd, hrest⟩ := Option.bind_eq_some_iff.mp h
    rw [cutAt?] at hc
    split at hc
    · rename_i hp
      cases hc
      exact ⟨p, rfl, hp.2, congrArg some hp.1, rfl⟩
    · rename_i hp
      rw [hd, Option.getD_some] at hc
      obtain ⟨⟨l', r'⟩, hcut, hlr⟩ := Option.map_eq_some_iff.mp hc
      cases hlr
      obtain ⟨q, hq, hop, hn, hfirst⟩ := ih hrest hcut
      refine ⟨q, congrArg (p :: ·) hq, hop, ?_, ?_⟩
      · rw [nestAll?, hd]
        exact hn
      · rw [cutAt?, if_neg hp, hd, Option.getD_some, hfirst]
        rfl

theorem cutAt?_group (op : Op) {inside : List Placed} (h : nestAll? 0 inside = some 0)
    (before after : Text) :
    cutAt? op 0 (⟨before, .opening⟩ :: (inside ++ [⟨after, .closing⟩])) = none := by
  have hinside : cutAt? op 1 (inside ++ [⟨after, .closing⟩]) = none := by
    rw [cutAt?_append (nestAll?_succ h) (cutAt?_inside op h)]
    rfl
  rw [cutAt?, if_neg (by rintro ⟨_, hop⟩; cases hop)]
  exact Option.map_eq_none_iff.mpr hinside

/-- A piece that can be cut is no group as a whole. -/
theorem wholeGroup?_of_cutAt? {op : Op} {piece : List Placed} {x : List Placed × List Placed}
    (h : cutAt? op 0 piece = some x) : wholeGroup? piece = none := by
  cases hw : wholeGroup? piece with
  | none => rfl
  | some inside =>
    obtain ⟨before, after, rfl, hn⟩ := wholeGroup?_eq_some.mp hw
    rw [cutAt?_group op hn] at h
    cases h

/-- The operators that bind tighter than `op`, and `op` itself. -/
def Op.scope : Op → List Op
  | .not => [.not]
  | .and => [.not, .and]
  | .or => [.not, .and, .or]

theorem cut?_eq_none {piece : List Placed} :
    cut? piece = none ↔ ∀ op, cutAt? op 0 piece = none := by
  simp only [cut?, List.findSome?_eq_none_iff, Option.map_eq_none_iff]
  exact ⟨fun h op => h op (by cases op <;> decide), fun h op _ => h op⟩

/-- A piece is cut at the loosest operator that it can be cut at. -/
theorem cut?_eq_some {piece l r : List Placed} {op : Op} :
    cut? piece = some (op, l, r) ↔
      cutAt? op 0 piece = some (l, r) ∧ ∀ op' ∉ op.scope, cutAt? op' 0 piece = none := by
  have hlooser : (∀ op' ∉ op.scope, cutAt? op' 0 piece = none) ↔
      (Op.or ∉ op.scope → cutAt? .or 0 piece = none) ∧
        (Op.and ∉ op.scope → cutAt? .and 0 piece = none) := by
    refine ⟨fun h => ⟨h .or, h .and⟩, fun h op' hop' => ?_⟩
    cases op' with
    | or => exact h.1 hop'
    | and => exact h.2 hop'
    | not => cases op <;> exact absurd hop' (by decide)
  rw [hlooser]
  unfold cut?
  cases hor : cutAt? .or 0 piece <;> cases hand : cutAt? .and 0 piece <;>
    cases hnot : cutAt? .not 0 piece <;> cases op <;>
    simp [List.findSome?, Op.scope, hor, hand, hnot]

end AccessRules
