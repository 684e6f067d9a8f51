import AccessRules.Proofs.Grammar.Reading
import AccessRules.Proofs.Text.Slice
import AccessRules.Report.Inspect
import Mathlib.Data.List.TakeWhile

/-! Inspection and reading agree on which texts are rules.

The passes of an inspection are flat: calls are found in one sweep over the lexemes, and
operators are judged by their neighbours. On the lexemes of a phrase they find nothing
wrong: the calls are those of the derivation (`callsFrom_placed`), and every keyword
stands between the end and the beginning of an operand (`operatorFaults_placed`).
`valid_inspect_iff` follows, since every text that is read is made of a phrase. -/
namespace AccessRules

/-! ### Calls -/

/-- A lexeme that no call begins with is passed over. -/
theorem callsFrom_skip {p : Placed} (h : p.lexeme.callee? = none) (offset : Nat)
    (rest : List Placed) :
    callsFrom offset (p :: rest) = callsFrom (offset + p.text.byteSize) rest := by
  cases rest with
  | nil => simp [callsFrom]
  | cons q rest =>
    rw [callsFrom]
    split
    · rename_i hc
      rw [h] at hc
      cases hc
    · rfl

/-- A call is found whole, and the search goes on after it. -/
theorem callsFrom_call {l : Lexeme} {before name : Text} (h : l.callee? = some (before, name))
    {inside : List Placed} (hinside : nestAll? 0 inside = some 0) (offset : Nat)
    (gap between lastGap : Text) (after : List Placed) :
    callsFrom offset (⟨gap, l⟩ :: ⟨between, .opening⟩ :: (inside ++ ⟨lastGap, .closing⟩ :: after)) =
      ⟨name, some (render inside ++ lastGap), offset + gap.byteSize + before.byteSize⟩ ::
        callsFrom (offset + (gap ++ l.text ++ between ++ '(' ::
          (render inside ++ lastGap ++ [')'])).byteSize) after := by
  have hclose : closeGroup? 0 (inside ++ ⟨lastGap, .closing⟩ :: after) =
      some ⟨inside, lastGap, after⟩ := closeGroup?_eq_some.mpr ⟨rfl, hinside⟩
  have hsize : (Placed.mk gap l).text.byteSize + (Placed.mk between .opening).text.byteSize +
      (Group.mk inside lastGap after).text.byteSize + 1 =
      (gap ++ l.text ++ between ++ '(' :: (render inside ++ lastGap ++ [')'])).byteSize := by
    have hclosing : Text.byteSize [')'] = 1 := rfl
    rw [List.append_cons _ '(', ← List.append_assoc, Text.byteSize_append _ [')'], hclosing,
      Text.byteSize_append _ (render inside ++ lastGap), List.append_assoc _ between,
      Text.byteSize_append (gap ++ l.text)]
    rfl
  rw [callsFrom]
  simp only [h]
  split
  · rename_i hn
    rw [hclose] at hn
    cases hn
  · rename_i g hg
    rw [hclose] at hg
    cases hg
    rw [hsize]
    rfl

/-- Name characters at the end of a word are the whole word if it has no others. -/
theorem nameEnd_eq_self {letters : Text} (h : ∀ c ∈ letters, isNameChar c = true) :
    nameEnd letters = letters := by
  have hall : letters.reverse.takeWhile isNameChar = letters.reverse :=
    List.takeWhile_eq_self_iff.mpr fun c hc => h c (List.mem_reverse.mp hc)
  rw [nameEnd, hall, List.reverse_reverse]

theorem callee?_name (check : Check) : check.lexeme.callee? = some ([], check.name.toList) := by
  cases check <;> decide

theorem callee?_keyword (op : Op) : op.lexeme.callee? = none := by
  cases op <;> decide

namespace Phrase

/-- The calls of a phrase that begins `start` bytes into the text. -/
def calls : {r : Rank} → Phrase r → (start : Nat) → List Call
  | _, call check _ args, start => [⟨check.name.toList, some args.text, start⟩]
  | _, group before inside _, start => inside.calls (start + Text.byteSize ('(' :: before.val))
  | _, not p, start => p.calls (start + Text.byteSize "NOT ".toList)
  | _, and l r, start => l.calls start ++ r.calls (start + (l.text ++ " AND ".toList).byteSize)
  | _, or l r, start => l.calls start ++ r.calls (start + (l.text ++ " OR ".toList).byteSize)
  | _, unit p, start | _, negation p, start | _, conjunction p, start => p.calls start

/-- **The sweep finds the calls of the derivation**, and goes on after the phrase. -/
theorem callsFrom_placed {r : Rank} (d : Phrase r) (gap : Text) (offset : Nat)
    (rest : List Placed) :
    callsFrom offset (d.placed gap ++ rest) =
      d.calls (offset + gap.byteSize) ++ callsFrom (offset + (gap ++ d.text).byteSize) rest := by
  induction d generalizing gap offset rest with
  | unit p ih | negation p ih | conjunction p ih => exact ih gap offset rest
  | call check between args =>
    have hcall := callsFrom_call (callee?_name check) args.closed.groups offset gap between.val
      (lastBlanks args.text) rest
    rw [(render_lex args.text).2] at hcall
    have hplaced : (call check between args).placed gap ++ rest =
        ⟨gap, check.lexeme⟩ :: ⟨between.val, .opening⟩ ::
          (lex args.text ++ ⟨lastBlanks args.text, .closing⟩ :: rest) := by
      simp [placed, Args.placed]
    rw [hplaced, hcall, text, calls, Check.lexeme, Lexeme.text]
    simp [List.append_assoc, Text.byteSize]
  | group before inside after ih =>
    rw [placed, List.cons_append, callsFrom_skip rfl, List.append_assoc, ih, List.singleton_append,
      callsFrom_skip rfl]
    simp [text, calls, Placed.text, Lexeme.text, Text.byteSize_append, Text.byteSize, Nat.add_assoc]
  | not p ih =>
    rw [placed, List.cons_append, callsFrom_skip (callee?_keyword .not), ih]
    simp [text, calls, Placed.text, Op.lexeme, Op.keyword, Lexeme.text, Text.byteSize_append,
      Text.byteSize, Nat.add_assoc]
  | and l r ihl ihr | or l r ihl ihr =>
    rw [placed, List.append_assoc, ihl, List.cons_append, callsFrom_skip (callee?_keyword _), ihr]
    simp [text, calls, Placed.text, Op.lexeme, Op.keyword, Lexeme.text, Text.byteSize_append,
      Text.byteSize, Nat.add_assoc]

theorem callsFrom_whole {r : Rank} (d : Phrase r) : callsFrom 0 (d.placed []) = d.calls 0 := by
  have hcalls := d.callsFrom_placed [] 0 []
  rw [List.append_nil, callsFrom, List.append_nil] at hcalls
  exact hcalls

/-- Every call of a phrase has a known name and is closed, and its arguments divide. -/
theorem calls_known {r : Rank} (d : Phrase r) (start : Nat) : ∀ c ∈ d.calls start,
    ∃ check args ps, Check.ofName? c.name = some check ∧ c.args = some args ∧
      paramsIn args = .ok ps := by
  induction d generalizing start with
  | unit p ih | negation p ih | conjunction p ih | not p ih | group _ p _ ih => exact ih _
  | call check between args =>
    intro c hc
    obtain rfl := List.mem_singleton.mp hc
    exact ⟨check, args.text, args.parameters, check.ofName?_name, rfl, args.divided⟩
  | and l r ihl ihr | or l r ihl ihr =>
    intro c hc
    rcases List.mem_append.mp hc with hc | hc
    · exact ihl _ c hc
    · exact ihr _ c hc

end Phrase

/-! ### Operators -/

/-- What is no keyword is passed over. -/
theorem operatorFaults_skip {p : Placed} (h : p.lexeme.op? = none) (before : Option Lexeme)
    (rest : List Placed) :
    operatorFaults before (p :: rest) = operatorFaults (some p.lexeme) rest := by
  simp only [operatorFaults, h, List.nil_append]

theorem operatorFaults_plain {ls : List Placed} (h : ∀ p ∈ ls, p.lexeme.op? = none) {q : Placed}
    (hq : q.lexeme.op? = none) (before : Option Lexeme) (rest : List Placed) :
    operatorFaults before (ls ++ q :: rest) = operatorFaults (some q.lexeme) rest := by
  induction ls generalizing before with
  | nil => exact operatorFaults_skip hq before rest
  | cons p ls ih =>
    rw [List.cons_append, operatorFaults_skip (h p (List.mem_cons_self ..))]
    exact ih (fun p' hp' => h p' (List.mem_cons_of_mem p hp')) _

/-- A keyword between the end and the beginning of an operand. -/
theorem operatorFaults_keyword {op : Op} {before : Option Lexeme}
    (hbefore : before.any Lexeme.endsOperand = (op != .not)) {rest : List Placed}
    (hafter : (rest.head?.map (·.lexeme)).any Lexeme.beginsOperand = true) (gap : Text) :
    operatorFaults before (⟨gap, op.lexeme⟩ :: rest) = operatorFaults (some op.lexeme) rest := by
  have hfaults : op.faults before (rest.head?.map (·.lexeme)) = [] := by
    cases op <;> simp_all [Op.faults]
  simp only [operatorFaults, op.op?_lexeme, hfaults, List.nil_append]

namespace Phrase

theorem begins_placed {r : Rank} (d : Phrase r) (gap : Text) (rest : List Placed) :
    ((d.placed gap ++ rest).head?.map (·.lexeme)).any Lexeme.beginsOperand = true := by
  induction d generalizing gap rest with
  | unit p ih | negation p ih | conjunction p ih => exact ih gap rest
  | call check between args => cases check <;> rfl
  | group before inside after _ => rfl
  | not p _ => rfl
  | and l r ihl _ | or l r ihl _ =>
    rw [placed, List.append_assoc]
    exact ihl gap _

/-- **The keywords of a phrase are where they can be**, and after the phrase stands the
end of an operand. -/
theorem operatorFaults_placed {r : Rank} (d : Phrase r) (gap : Text) {before : Option Lexeme}
    (hbefore : before.any Lexeme.endsOperand = false) (rest : List Placed) :
    operatorFaults before (d.placed gap ++ rest) = operatorFaults (some .closing) rest := by
  induction d generalizing gap before rest with
  | unit p ih | negation p ih | conjunction p ih => exact ih gap hbefore rest
  | call check between args =>
    rw [placed, List.cons_append, operatorFaults_skip check.op?_lexeme, List.cons_append,
      operatorFaults_skip rfl, Args.placed, List.append_assoc]
    exact operatorFaults_plain args.plain rfl _ rest
  | group open' inside after ih =>
    rw [placed, List.cons_append, operatorFaults_skip rfl, List.append_assoc, ih _ rfl]
    exact operatorFaults_skip rfl _ rest
  | not p ih =>
    rw [placed, List.cons_append, operatorFaults_keyword hbefore (p.begins_placed [' '] rest)]
    exact ih [' '] rfl rest
  | and l r ihl ihr | or l r ihl ihr =>
    rw [placed, List.append_assoc, ihl gap hbefore, List.cons_append,
      operatorFaults_keyword rfl (r.begins_placed [' '] rest)]
    exact ihr [' '] rfl rest

end Phrase

/-! ### Agreement -/

theorem balanceFaults_of_balanced {ls : List Placed} (h : Balanced ls) : balanceFaults ls = [] := by
  rw [balanceFaults, balance_eq_balanced.mpr h]

theorem Call.faults_of_known {c : Call} {check : Check} {args : Text} {ps : List Text}
    (hname : Check.ofName? c.name = some check) (hargs : c.args = some args)
    (hparams : paramsIn args = .ok ps) : c.faults = [] := by
  simp only [faults, hname, hargs, hparams]

/-- The three passes find no fault in a text that is read. -/
theorem structureFaults_of_parse {s : Text} {e : Expr} (h : parse s = .ok e) :
    balanceFaults (tidyLex s) = [] ∧
    (∀ c ∈ callsFrom 0 (tidyLex s), c.faults = [] ∧ ∃ check args ps,
      Check.ofName? c.name = some check ∧ c.args = some args ∧ paramsIn args = .ok ps) ∧
    operatorFaults none (tidyLex s) = [] := by
  obtain ⟨d, hd, -, -⟩ := phrase_of_parse h
  rw [hd]
  refine ⟨balanceFaults_of_balanced (d.balanced_placed []), fun c hc => ?_, ?_⟩
  · rw [d.callsFrom_whole] at hc
    obtain ⟨check, args, ps, hname, hargs, hparams⟩ := d.calls_known _ c hc
    exact ⟨Call.faults_of_known hname hargs hparams, check, args, ps, hname, hargs, hparams⟩
  · have hoperators : operatorFaults none (d.placed [] ++ []) = [] :=
      d.operatorFaults_placed [] rfl []
    rwa [List.append_nil] at hoperators

theorem tidyLex_ne_nil_of_parse {s : Text} {e : Expr} (h : parse s = .ok e) :
    tidyLex s ≠ [] := by
  intro hnil
  simp [parse, hnil] at h

theorem lex_ne_nil_of_parse {s : Text} {e : Expr} (h : parse s = .ok e) : lex s ≠ [] := by
  intro hnil
  apply tidyLex_ne_nil_of_parse h
  rw [tidyLex, hnil]
  rfl

/-- An inspection without faults ends in a reading. -/
theorem parse_of_faults {s : Text} (h : faults s = []) : ∃ e, parse s = .ok e := by
  simp only [faults] at h
  split at h
  · cases h
  · split at h
    · split at h
      · rename_i e he
        exact ⟨e, he⟩
      · cases h
    · rename_i hne
      exact absurd h hne

theorem faults_of_parse {s : Text} {e : Expr} (h : parse s = .ok e) : faults s = [] := by
  obtain ⟨hbalance, hcalls, hoperators⟩ := structureFaults_of_parse h
  have hpasses : structureFaults (tidyLex s) = [] := by
    have hflat : (callsFrom 0 (tidyLex s)).flatMap Call.faults = [] :=
      List.flatMap_eq_nil_iff.mpr fun c hc => (hcalls c hc).1
    rw [structureFaults, hbalance, hflat, hoperators]
    rfl
  simp only [faults, if_neg (tidyLex_ne_nil_of_parse h), hpasses, h]

theorem valid_inspect {s : Text} : (inspect s).valid = true ↔ faults s = [] := by
  simp [inspect, Report.valid]

/-- **A text is valid exactly when it is read**, and none of the passes before the
reading finds a fault in a text that is read: its parentheses match, every call in it
has a known name and arguments that divide, and every keyword stands between operands. -/
theorem valid_inspect_iff (s : Text) :
    ((inspect s).valid = true ↔ ∃ e, parse s = .ok e) ∧
    ∀ e, parse s = .ok e →
      balanceFaults (tidyLex s) = [] ∧
      (∀ c ∈ callsFrom 0 (tidyLex s), c.faults = [] ∧ ∃ check args ps,
        Check.ofName? c.name = some check ∧ c.args = some args ∧ paramsIn args = .ok ps) ∧
      operatorFaults none (tidyLex s) = [] := by
  refine ⟨?_, fun e h => structureFaults_of_parse h⟩
  rw [valid_inspect]
  constructor
  · exact parse_of_faults
  · intro ⟨e, h⟩
    exact faults_of_parse h

end AccessRules
