import AccessRules.Proofs.Grammar.Descent
import AccessRules.Proofs.Grammar.Inspection

/-! The passes of an inspection find what stops a reading.

A reading stops deep in a piece of the text, an inspection looks at calls and operators in
one row. What ties them together is what stands around a piece (`Around`): before it the
sweep for calls comes through and no operand ends, after it no operand begins. So an unknown
function is a call that the sweep finds (`unknownFunction_mem`), and an operator without
its operand has the wrong neighbour in the row (`misplaced_fault`). `inspection_covers`
draws the conclusion: what is left for the reading at the end of an inspection to say. -/
namespace AccessRules

/-! ### The sweep for calls -/

/-- The sweep comes through the lexemes, and what it finds after them it would find anywhere. -/
def Swept (before : List Placed) : Prop :=
  ∀ offset rest, ∃ cs offset', callsFrom offset (before ++ rest) = cs ++ callsFrom offset' rest

theorem Swept.nil : Swept [] := fun offset _ => ⟨[], offset, rfl⟩

theorem Swept.append {a b : List Placed} (ha : Swept a) (hb : Swept b) : Swept (a ++ b) := by
  intro offset rest
  obtain ⟨cs, offset', ha⟩ := ha offset (b ++ rest)
  obtain ⟨cs', offset'', hb⟩ := hb offset' rest
  exact ⟨cs ++ cs', offset'', by rw [List.append_assoc, ha, hb, List.append_assoc]⟩

theorem Swept.skip {p : Placed} (h : p.lexeme.callee? = none) : Swept [p] :=
  fun _ rest => ⟨[], _, callsFrom_skip h _ rest⟩

theorem Swept.phrase {r : Rank} (d : Phrase r) (gap : Text) : Swept (d.placed gap) :=
  fun offset rest => ⟨_, _, d.callsFrom_placed gap offset rest⟩

/-! ### Around a piece -/

/-- What can stand around a piece that a reading comes to. -/
structure Around (before after : List Placed) : Prop where
  swept : Swept before
  begins : (lastLexeme none before).any Lexeme.endsOperand = false
  ends : (after.head?.map (·.lexeme)).any Lexeme.beginsOperand = false

/-- A piece can stand after a lexeme that no operand ends with. -/
theorem Around.after {before after : List Placed} {p : Placed} (hswept : Swept before)
    (hp : p.lexeme.endsOperand = false) (hcallee : p.lexeme.callee? = none)
    (hends : (after.head?.map (·.lexeme)).any Lexeme.beginsOperand = false) :
    Around (before ++ [p]) after := by
  refine ⟨hswept.append (.skip hcallee), ?_, hends⟩
  rw [lastLexeme_append]
  exact hp

theorem endsOperand_keyword (op : Op) : op.lexeme.endsOperand = false := by
  cases op <;> rfl

/-- What stands around a piece stands around its parts, with the rest of the piece. -/
theorem HandsOn.around {n : Nat} {piece part before after : List Placed}
    (h : HandsOn n piece part) (hp : WellCut piece) (ha : Around before after) :
    ∃ before' after', before ++ piece ++ after = before' ++ part ++ after' ∧
      Around before' after' := by
  cases h with
  | group h =>
    obtain ⟨gap, lastGap, rfl, -⟩ := wholeGroup?_eq_some.mp h
    refine ⟨before ++ [⟨gap, .opening⟩], ⟨lastGap, .closing⟩ :: after, by simp, ?_⟩
    exact .after ha.swept rfl rfl rfl
  | operand h hr =>
    obtain ⟨gap, rfl, -⟩ := hp.cut (cut?_eq_some.mp h).1
    refine ⟨before ++ [⟨gap, Op.not.lexeme⟩], after, by simp, ?_⟩
    exact .after ha.swept (endsOperand_keyword .not) (callee?_keyword .not) ha.ends
  | @left op l r hop h hl hr =>
    obtain ⟨gap, rfl, -⟩ := hp.cut (cut?_eq_some.mp h).1
    refine ⟨before, ⟨gap, op.lexeme⟩ :: (r ++ after), by simp, ha.swept, ha.begins, ?_⟩
    cases op with
    | not => exact absurd rfl hop
    | and | or => rfl
  | @right op l r e hop h hl hr hread =>
    obtain ⟨gap, rfl, -, -, -, hleft, -⟩ := hp.cut (cut?_eq_some.mp h).1
    obtain ⟨d, gap', rfl, -, -⟩ := exists_phrase hleft hread
    refine ⟨before ++ d.placed gap' ++ [⟨gap, op.lexeme⟩], after, by simp, ?_⟩
    exact .after (ha.swept.append (.phrase d gap')) (endsOperand_keyword op) (callee?_keyword op)
      ha.ends

theorem Comes.around {n m : Nat} {piece part before after : List Placed}
    (h : Comes n piece m part) (hp : WellCut piece) (ha : Around before after) :
    ∃ before' after', before ++ piece ++ after = before' ++ part ++ after' ∧
      Around before' after' := by
  induction h generalizing before after with
  | here => exact ⟨before, after, rfl, ha⟩
  | on h _ ih =>
    obtain ⟨before', after', hpart, ha'⟩ := h.around hp ha
    obtain ⟨before'', after'', hlast, ha''⟩ := ih (h.wellCut hp) ha'
    exact ⟨before'', after'', hpart.trans hlast, ha''⟩

theorem Reaches.around {s : Text} {n : Nat} {piece : List Placed} (h : Reaches s n piece) :
    ∃ before after, tidyLex s = before ++ piece ++ after ∧ Around before after := by
  have hnothing : Around [] [] := ⟨.nil, rfl, rfl⟩
  have hwhole : WellCut (tidyLex s) := ⟨legible_tidyLex s, tidied_tidyLex s, h.balanced⟩
  obtain ⟨before, after, hpiece, ha⟩ := h.comes.around hwhole hnothing
  rw [List.nil_append, List.append_nil] at hpiece
  exact ⟨before, after, hpiece, ha⟩

/-! ### Calls -/

/-- Why a call is not read. -/
theorem readCall_eq_error {piece : List Placed} {err : ParseError} (hp : Balanced piece)
    (h : readCall piece = .error err) : err = .invalidCall (phrase piece) ∨
    (∃ gap name between args lastGap, err = .unknownFunction name ∧
      piece = ⟨gap, .word name⟩ :: ⟨between, .opening⟩ :: (args ++ [⟨lastGap, .closing⟩]) ∧
      isName name = true ∧ nestAll? 0 args = some 0 ∧ Check.ofName? name = none) ∨
    ∃ op gap, ∃ check : Check, ∃ between args lastGap, err = .misplacedOperator op ∧
      piece = ⟨gap, check.lexeme⟩ :: ⟨between, .opening⟩ :: (args ++ [⟨lastGap, .closing⟩]) ∧
      Balanced args ∧ args.findSome? (·.lexeme.op?) = some op := by
  unfold readCall at h
  split at h
  · rename_i gap name between rest
    split at h
    · rename_i args lastGap hname hclose
      obtain ⟨rfl, hnest⟩ := closeGroup?_eq_some.mp hclose
      split at h
      · rename_i hcheck
        cases h
        exact .inr (.inl ⟨gap, name, between, args, lastGap, rfl, rfl, hname, hnest, hcheck⟩)
      · rename_i check hcheck
        obtain rfl := Check.eq_name_of_ofName? hcheck
        have hclosed : endsInLiteral (args ++ [⟨lastGap, .closing⟩]) = false := hp.literals
        have hargs := (endsInLiteral_append_eq_false.mp hclosed).1
        split at h
        · rename_i hopen
          cases hargs.symm.trans hopen
        · split at h
          · rename_i op hop
            cases h
            exact .inr (.inr
              ⟨op, gap, check, between, args, lastGap, rfl, rfl, ⟨hnest, hargs⟩, hop⟩)
          · cases h
    · cases h
      exact .inl rfl
  · cases h
    exact .inl rfl

theorem isNameChar_of_isName {name : Text} (h : isName name = true) :
    ∀ c ∈ name, isNameChar c = true := by
  cases name with
  | nil => cases h
  | cons d rest =>
    obtain ⟨hfirst, hrest⟩ := Bool.and_eq_true_iff.mp h
    refine List.forall_mem_cons.mpr ⟨?_, List.all_eq_true.mp hrest⟩
    rcases Bool.or_eq_true_iff.mp hfirst with halpha | hunderscore
    · simp [isNameChar, Char.isAlphanum, halpha]
    · simp [isNameChar, hunderscore]

theorem callee?_of_isName {name : Text} (h : isName name = true) (hop : Op.ofWord? name = none) :
    (Lexeme.word name).callee? = some (beforeNameEnd name, name) := by
  have hname := nameEnd_eq_self (isNameChar_of_isName h)
  rw [Lexeme.callee?, hname, if_pos ⟨h, hop⟩]

/-- A word at the beginning of a piece that cannot be cut is no keyword. -/
theorem ofWord?_of_cut? {gap name : Text} {rest : List Placed}
    (h : cut? (⟨gap, .word name⟩ :: rest) = none) : Op.ofWord? name = none := by
  cases hop : Op.ofWord? name with
  | none => rfl
  | some op =>
    have hnone := cut?_eq_none.mp h op
    rw [cutAt?, if_pos ⟨rfl, hop⟩] at hnone
    cases hnone

/-- **An unknown function at which a reading stops is a fault that the sweep finds.** -/
theorem unknownFunction_mem {s : Text} {n : Nat} {piece : List Placed} {name : Text}
    (hr : Reaches s n piece) (hstop : StopsAt n piece (.unknownFunction name)) :
    .unknownFunction name ∈ structureFaults (tidyLex s) := by
  obtain ⟨before, after, hpiece, ha⟩ := hr.around
  cases hstop with
  | call hne hw hcut h =>
    rcases readCall_eq_error hr.wellCut.balanced h with hinvalid |
      ⟨gap, name, between, args, lastGap, hname, rfl, hisName, hnest, hcheck⟩ | hoperator
    · cases hinvalid
    · cases hname
      have hcallee := callee?_of_isName hisName (ofWord?_of_cut? hcut)
      have hcalls (offset : Nat) :=
        callsFrom_call hcallee hnest offset gap between lastGap after
      obtain ⟨cs, offset, hswept⟩ := ha.swept 0 (⟨gap, .word name⟩ :: ⟨between, .opening⟩ ::
        (args ++ ⟨lastGap, .closing⟩ :: after))
      have hfound : ⟨name, some (render args ++ lastGap),
          offset + gap.byteSize + (beforeNameEnd name).byteSize⟩ ∈ callsFrom 0 (tidyLex s) := by
        rw [hpiece, List.append_assoc, List.cons_append, List.cons_append, List.append_assoc,
          List.singleton_append, hswept, hcalls]
        exact List.mem_append_right cs (List.mem_cons_self ..)
      refine List.mem_append_left _ (List.mem_append_right _ (List.mem_flatMap.mpr
        ⟨_, hfound, ?_⟩))
      simp only [Call.faults, hcheck]
      exact List.mem_singleton_self _
    · obtain ⟨op, gap, check, between, args, lastGap, hop, -⟩ := hoperator
      cases hop

/-! ### Operators -/

namespace Op

/-- An operator between its operands, and only there, is no fault. -/
theorem faults_eq_nil {before after : Option Lexeme} {op : Op} :
    op.faults before after = [] ↔
      before.any Lexeme.endsOperand = (op != .not) ∧ after.any Lexeme.beginsOperand = true := by
  cases op <;> cases hb : before.any Lexeme.endsOperand <;>
    cases ha : after.any Lexeme.beginsOperand <;> simp [faults, hb, ha]

/-- How the faults of an operator begin. -/
def complaint (op : Op) : String := "operator " ++ op.keyword

theorem complaint_prefix {before after : Option Lexeme} {op : Op} {f : Fault}
    (h : f ∈ op.faults before after) : op.complaint.toList <+: f.message.toList := by
  cases op with
  | not =>
    rcases List.mem_append.mp h with h | h <;> split at h
    · cases List.mem_singleton.mp h
      decide
    · cases h
    · cases h
    · cases List.mem_singleton.mp h
      decide
  | and | or =>
    rcases List.mem_append.mp h with h | h <;> split at h
    · cases h
    · cases List.mem_singleton.mp h
      decide
    · cases h
    · cases List.mem_singleton.mp h
      decide

end Op

/-- What is wrong with one operator is among the faults of the row. -/
theorem mem_operatorFaults {a b : List Placed} {p : Placed} {op : Op}
    (hop : p.lexeme.op? = some op) {before : Option Lexeme} {f : Fault}
    (hf : f ∈ op.faults (lastLexeme before a) (b.head?.map (·.lexeme))) :
    f ∈ operatorFaults before (a ++ p :: b) := by
  induction a generalizing before with
  | nil =>
    simp only [List.nil_append, operatorFaults, hop]
    exact List.mem_append_left _ hf
  | cons q a ih => exact List.mem_append_right _ (ih hf)

/-- Balanced lexemes with no keyword outside groups end as an operand does. -/
theorem lastLexeme_endsOperand {l : List Placed} (hl : l ≠ []) (hnest : nestAll? 0 l = some 0)
    (hcut : ∀ op, cutAt? op 0 l = none) (before : Option Lexeme) :
    (lastLexeme before l).any Lexeme.endsOperand = true := by
  obtain ⟨l, p, rfl⟩ := (List.eq_nil_or_concat l).resolve_left hl
  rw [List.concat_eq_append] at *
  rw [nestAll?_append] at hnest
  obtain ⟨depth, hdepth, hp⟩ := Option.bind_eq_some_iff.mp hnest
  have hopening : p.lexeme ≠ .opening := by
    intro hopening
    rw [nestAll?, hopening] at hp
    cases hp
  have hop : p.lexeme.op? = none := by
    cases hop : p.lexeme.op? with
    | none => rfl
    | some op =>
      -- A keyword leaves the groups as they are, so nothing is open before it.
      have hflat : p.lexeme.Flat := Lexeme.flat_of_op? (Option.ne_none_iff_exists'.mpr ⟨op, hop⟩)
      rw [nestAll?, hflat.nest?] at hp
      cases hp
      have hlast := ((cutAt?_append_eq_none hdepth [p]).mp (hcut op)).2
      rw [cutAt?, if_pos ⟨rfl, hop⟩] at hlast
      cases hlast
  rw [lastLexeme_append]
  show p.lexeme.endsOperand = true
  simp [Lexeme.endsOperand, hopening, hop]

/-- **An operator at which a reading stops is a fault of the row.** -/
theorem misplaced_fault {s : Text} {n : Nat} {piece l r : List Placed} {op : Op}
    (hr : Reaches s n piece) (hcut : cut? piece = some (op, l, r)) (hop : op.Misplaced l r) :
    ∃ f ∈ operatorFaults none (tidyLex s), op.complaint.toList <+: f.message.toList := by
  obtain ⟨before, after, hpiece, ha⟩ := hr.around
  obtain ⟨hat, hlooser⟩ := cut?_eq_some.mp hcut
  obtain ⟨gap, rfl, hfirst, -, -, hl, -⟩ := hr.wellCut.cut hat
  have hne : op.faults (lastLexeme none (before ++ l))
      ((r ++ after).head?.map (·.lexeme)) ≠ [] := by
    intro hnil
    obtain ⟨hleft, hright⟩ := Op.faults_eq_nil.mp hnil
    have hrne : r ≠ [] := by
      rintro rfl
      rw [List.nil_append, ha.ends] at hright
      cases hright
    cases op with
    | not =>
      have hlne : l ≠ [] := hop.resolve_right hrne
      have hplain (op : Op) : cutAt? op 0 l = none := by
        cases op with
        | not => exact hfirst
        | and | or =>
          exact ((cutAt?_append_eq_none hl.balanced.groups _).mp (hlooser _ (by decide))).1
      rw [lastLexeme_append, lastLexeme_endsOperand hlne hl.balanced.groups hplain] at hleft
      cases hleft
    | and | or =>
      obtain rfl : l = [] := hop.resolve_right hrne
      rw [List.append_nil, ha.begins] at hleft
      cases hleft
  obtain ⟨f, hf⟩ := List.exists_mem_of_ne_nil _ hne
  refine ⟨f, ?_, Op.complaint_prefix hf⟩
  have hmem := mem_operatorFaults (p := ⟨gap, op.lexeme⟩) op.op?_lexeme hf
  rwa [List.append_assoc, ← List.cons_append, ← List.append_assoc l, ← List.append_assoc,
    ← hpiece] at hmem

/-! ### What is left for the reading to say -/

/-- The reading stops at an operator at which it cuts a piece. -/
def SplitFails (s : Text) (op : Op) : Prop :=
  ∃ n piece l r, Reaches s (n + 1) piece ∧ cut? piece = some (op, l, r) ∧ op.Misplaced l r

/-- The reading stops at a call whose arguments have this keyword as their first. -/
def ArgumentsFail (s : Text) (op : Op) : Prop :=
  ∃ n gap, ∃ check : Check, ∃ between args lastGap,
    Reaches s (n + 1)
      (⟨gap, check.lexeme⟩ :: ⟨between, .opening⟩ :: (args ++ [⟨lastGap, .closing⟩])) ∧
    Balanced args ∧ args.findSome? (·.lexeme.op?) = some op

theorem SplitFails.parse {s : Text} {op : Op} (h : SplitFails s op) :
    parse s = .error (.misplacedOperator op) := by
  obtain ⟨n, piece, l, r, hr, hcut, hop⟩ := h
  exact hr.error (.operator hcut hop)

theorem ArgumentsFail.parse {s : Text} {op : Op} (h : ArgumentsFail s op) :
    parse s = .error (.misplacedOperator op) := by
  obtain ⟨n, gap, check, between, args, lastGap, hr, hargs, hop⟩ := h
  have hclose : closeGroup? 0 (args ++ [⟨lastGap, .closing⟩]) = some ⟨args, lastGap, []⟩ :=
    closeGroup?_eq_some.mpr ⟨rfl, hargs.groups⟩
  refine hr.error (.call (by simp) rfl (cut?_eq_none.mpr fun op => ?_) ?_)
  · -- The name is no keyword, and all that follows it is a group.
    rw [cutAt?, if_neg (by simp [check.op?_lexeme])]
    exact Option.map_eq_none_iff.mpr (cutAt?_group op hargs.groups between lastGap)
  · simp [readCall, Check.lexeme, check.isName_name, check.ofName?_name, hclose, hargs.literals,
      hop]

/-- An operator is misplaced where a piece is cut or among the arguments of a call. -/
theorem parse_eq_misplacedOperator {s : Text} {op : Op} :
    parse s = .error (.misplacedOperator op) ↔ SplitFails s op ∨ ArgumentsFail s op := by
  constructor
  · intro h
    obtain ⟨n, piece, hr, hstop⟩ := exists_stopsAt h (by simp) (by simp) (by simp)
    cases hstop with
    | operator hcut hop => exact .inl ⟨_, piece, _, _, hr, hcut, hop⟩
    | call hne hw hcut h =>
      rcases readCall_eq_error hr.wellCut.balanced h with herr |
        ⟨_, _, _, _, _, herr, -⟩ | ⟨_, gap, check, between, args, lastGap, herr, rfl, hargs⟩
      · cases herr
      · cases herr
      · cases herr
        exact .inr ⟨_, gap, check, between, args, lastGap, hr, hargs⟩
  · rintro (h | h)
    · exact h.parse
    · exact h.parse

theorem head?_toList_append {a b : String} {c : Char} (h : a.toList.head? = some c) :
    (a ++ b).toList.head? = some c := by
  rw [String.toList_append, List.head?_append, h, Option.some_or]

/-- The first letter of the message. -/
def Fault.initial : Fault → Char
  | empty => 'e'
  | unmatchedClose | unmatchedOpen _ | openLiteral | unknownFunction _ => 'u'
  | malformedArguments .. => 'm'
  | missingLeft _ | missingRight _ | notAfterOperand | notWithoutOperand => 'o'
  | unreadable _ => 'f'

theorem Fault.head?_message (f : Fault) : f.message.toList.head? = some f.initial := by
  have begins {a b c : String} {first : Char} (h : a.toList.head? = some first) :
      (a ++ b ++ c).toList.head? = some first :=
    head?_toList_append (head?_toList_append h)
  cases f with
  | empty | unmatchedClose | openLiteral | notAfterOperand | notWithoutOperand => rfl
  | missingLeft op | missingRight op => cases op <;> rfl
  | unmatchedOpen count =>
    have hu : "unmatched left parenthesis '(' (".toList.head? = some 'u' := rfl
    exact begins hu
  | unknownFunction name =>
    have hu : "unknown function '".toList.head? = some 'u' := rfl
    exact begins hu
  | malformedArguments name args =>
    have hm : "malformed arguments in ".toList.head? = some 'm' := rfl
    exact begins (begins hm)
  | unreadable err =>
    have hf : "failed to parse expression: ".toList.head? = some 'f' := rfl
    exact head?_toList_append hf

theorem Fault.initial_eq {f : Fault} {c : Char} {s : Text} (h : c :: s <+: f.message.toList) :
    f.initial = c := by
  obtain ⟨rest, h⟩ := h
  have hfirst := f.head?_message
  rw [← h] at hfirst
  exact (Option.some.inj hfirst).symm

/-- Only the message of an unreadable text begins like this. -/
theorem unreadable_of_message {f : Fault}
    (h : "failed to parse expression".toList <+: f.message.toList) :
    ∃ err, f = .unreadable err := by
  have hfirst : f.initial = 'f' := Fault.initial_eq h
  cases f with
  | unreadable err => exact ⟨err, rfl⟩
  | _ => cases hfirst

theorem balanced_of_balanceFaults {ls : List Placed} (h : balanceFaults ls = []) : Balanced ls := by
  unfold balanceFaults at h
  split at h
  · rename_i hb
    exact balance_eq_balanced.mp hb
  · cases h
  · cases h
  · cases h

theorem initial_of_mem_operatorFaults {f : Fault} {before : Option Lexeme} {ls : List Placed}
    (h : f ∈ operatorFaults before ls) : f.initial = 'o' := by
  induction ls generalizing before with
  | nil => cases h
  | cons p rest ih =>
    rcases List.mem_append.mp h with h | h
    · split at h
      · cases h
      · rename_i op _
        obtain rfl | rfl | rfl | rfl : f = .notAfterOperand ∨ f = .notWithoutOperand ∨
            f = .missingLeft op ∨ f = .missingRight op := by
          cases op <;> simp only [Op.faults, List.mem_append] at h <;> grind
        all_goals rfl
    · exact ih h

theorem initial_of_mem_balanceFaults {f : Fault} {ls : List Placed} (h : f ∈ balanceFaults ls) :
    f.initial = 'u' := by
  unfold balanceFaults at h
  split at h
  · cases h
  all_goals
    cases List.mem_singleton.mp h
    rfl

/-- An unreadable text is no fault that one of the three passes finds. -/
theorem unreadable_notMem (err : ParseError) (ls : List Placed) :
    .unreadable err ∉ structureFaults ls := by
  intro h
  rcases List.mem_append.mp h with h | h
  · rcases List.mem_append.mp h with h | h
    · cases initial_of_mem_balanceFaults h
    · obtain ⟨c, _, h⟩ := List.mem_flatMap.mp h
      unfold Call.faults at h
      split at h
      · simp at h
      · simp at h
      · split at h <;> simp at h
  · cases initial_of_mem_operatorFaults h

theorem mem_errors {s : Text} {f : Fault} (hne : tidyLex s ≠ [])
    (hf : f ∈ structureFaults (tidyLex s)) : f.message ∈ (inspect s).errors := by
  refine List.mem_map.mpr ⟨f, ?_, rfl⟩
  simp only [faults, if_neg hne]
  split
  · rename_i hnil
    rw [hnil] at hf
    cases hf
  · exact hf

/-- An inspection that leaves it to the reading says what the reading says, and nothing else. -/
theorem faults_of_message {s : Text} {m : String} (hm : m ∈ (inspect s).errors)
    (h : "failed to parse expression".toList <+: m.toList) :
    ∃ err, parse s = .error err ∧ faults s = [.unreadable err] ∧
      tidyLex s ≠ [] ∧ structureFaults (tidyLex s) = [] := by
  obtain ⟨f, hf, rfl⟩ := List.mem_map.mp hm
  obtain ⟨err, rfl⟩ := unreadable_of_message h
  simp only [faults] at hf ⊢
  split at hf
  · cases List.mem_singleton.mp hf
  · rename_i hne
    rw [if_neg hne]
    split at hf
    · rename_i hpasses
      split at hf
      · cases hf
      · rename_i error herror
        cases List.mem_singleton.mp hf
        exact ⟨_, herror, rfl, hne, hpasses⟩
    · exact absurd hf (unreadable_notMem err _)

/-- **What an inspection leaves for the reading to say**: when the three passes find nothing, the
reading can still meet an empty group, what is no call, a keyword among the arguments of a
call, or the limit. -/
theorem error_of_structureFaults {s : Text} {err : ParseError} (hne : tidyLex s ≠ [])
    (hpasses : structureFaults (tidyLex s) = []) (h : parse s = .error err) :
    err = .emptyGroup ∨ (∃ call, err = .invalidCall call) ∨ err = .nestingTooDeep maxNesting ∨
      ∃ op, err = .misplacedOperator op ∧ ArgumentsFail s op := by
  obtain ⟨hfirst, hoperators⟩ := List.append_eq_nil_iff.mp hpasses
  obtain ⟨hbalance, hcalls⟩ := List.append_eq_nil_iff.mp hfirst
  rcases parse_eq_error h with ⟨hnil, -⟩ | ⟨hopen, -⟩ | ⟨n, piece, hr, hstop⟩
  · exact absurd hnil hne
  · exact absurd (balanced_of_balanceFaults hbalance) hopen
  have hstop' := hstop
  cases hstop with
  | tooDeep => exact .inr (.inr (.inl rfl))
  | emptyGroup => exact .inl rfl
  | operator hcut hop =>
    obtain ⟨f, hf, -⟩ := misplaced_fault hr hcut hop
    rw [hoperators] at hf
    cases hf
  | call hpiece hw hcut hcall =>
    rcases readCall_eq_error hr.wellCut.balanced hcall with rfl |
      ⟨_, name, _, _, _, rfl, -⟩ | ⟨op, gap, check, between, args, lastGap, rfl, rfl, hargs⟩
    · exact .inr (.inl ⟨_, rfl⟩)
    · have hmem := unknownFunction_mem hr hstop'
      rw [hpasses] at hmem
      cases hmem
    · exact .inr (.inr (.inr ⟨op, rfl, _, gap, check, between, args, lastGap, hr, hargs⟩))

/-- **The passes of an inspection cover the reading.** An unknown function at which the
reading stops is in the report, and so is an operator at which it cannot cut a piece. Only if
the passes find nothing does the report say what the reading says, and nothing else: then
the reading met an empty group, what is no call, a keyword among the arguments of a
call, or the limit. -/
theorem inspection_covers (s : Text) :
    (∀ name, parse s = .error (.unknownFunction name) →
      s!"unknown function '{name.shown}'" ∈ (inspect s).errors) ∧
    (∀ op, parse s = .error (.misplacedOperator op) ↔ SplitFails s op ∨ ArgumentsFail s op) ∧
    (∀ op, SplitFails s op →
      ∃ m ∈ (inspect s).errors, ("operator " ++ op.keyword).toList <+: m.toList) ∧
    ∀ m ∈ (inspect s).errors, "failed to parse expression".toList <+: m.toList →
      (inspect s).errors = [m] ∧ ∃ err, parse s = .error err ∧
        m = s!"failed to parse expression: {err.message}" ∧
        (err = .emptyGroup ∨ (∃ call, err = .invalidCall call) ∨
          err = .nestingTooDeep maxNesting ∨
          ∃ op, err = .misplacedOperator op ∧ ArgumentsFail s op) := by
  refine ⟨fun name h => ?_, fun op => parse_eq_misplacedOperator, ?_, fun m hm hprefix => ?_⟩
  · obtain ⟨n, piece, hr, hstop⟩ := exists_stopsAt h (by simp) (by simp) (by simp)
    exact mem_errors hr.ne_nil (unknownFunction_mem hr hstop)
  · rintro op ⟨n, piece, l, r, hr, hcut, hop⟩
    obtain ⟨f, hf, hprefix⟩ := misplaced_fault hr hcut hop
    exact ⟨f.message, mem_errors hr.ne_nil (List.mem_append_right _ hf), hprefix⟩
  · obtain ⟨err, herr, hfaults, hne, hpasses⟩ := faults_of_message hm hprefix
    have herrors : (inspect s).errors = [(Fault.unreadable err).message] :=
      congrArg (List.map _) hfaults
    rw [herrors, List.mem_singleton] at hm
    exact ⟨by rw [herrors, hm], err, herr, hm, error_of_structureFaults hne hpasses herr⟩

/-- A keyword among arguments has neighbours that can be operands. -/
example : (inspect "hasRole(a or b)".toList).errors =
    ["failed to parse expression: misplaced operator OR"] := by decide +kernel

end AccessRules
