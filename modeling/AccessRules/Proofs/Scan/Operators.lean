import AccessRules.Proofs.Lexeme.Outside
import AccessRules.Proofs.Lexeme.Tidy
import AccessRules.Report.Inspect

/-! The faults of operators, found in one scan.

The scan cuts a text at blanks and parentheses outside literals, and takes every piece that is no
keyword for an operand. It knows no commas, so `a,b` is one operand for it where there are three
lexemes. That makes no difference to the neighbours of a keyword: the tokens are those of the
lexemes, with operands that touch taken together (`merged_scan`), and this changes no fault
(`Merged.faultsAfter_eq`). So in the tidy text the scan finds the faults that are found among the
lexemes (`tokenFaults_tidyText`). -/
namespace AccessRules

/-! ### The scan -/

/-- What the scan makes of a piece of the text. -/
inductive Token
  | opening
  | closing
  | operator (op : Op)
  | operand
  deriving DecidableEq

namespace Token

/-- The token of a piece. A keyword is one in its own spelling only. -/
def ofPiece (piece : Text) : Token :=
  (Op.all.find? (·.keyword.toList = piece)).elim operand operator

/-- The token of the piece that ends, if there is a piece. -/
def ended (piece : Text) : List Token := if piece = [] then [] else [ofPiece piece]

/-- The tokens of a text, when `piece` has been read before it and `quote` is open. -/
def scan (piece : Text) : Option Char → Text → List Token
  | _, [] => ended piece
  | quote, c :: s =>
    if quote = none ∧ isQuote c = false then
      if c = '(' then ended piece ++ opening :: scan [] none s
      else if c = ')' then ended piece ++ closing :: scan [] none s
      else if isBlank c then ended piece ++ scan [] none s
      else scan (piece ++ [c]) none s
    else scan (piece ++ [c]) (quoteAfter quote c) s

/-- What is wrong with a token between these neighbours. -/
def faultsBetween (before after : Option Token) (t : Token) : List Fault :=
  let hasLeft := before == some operand || before == some closing
  let hasRight := after == some operand || after == some opening || after == some (operator .not)
  match t with
  | operator .not => (if hasLeft then [.notAfterOperand] else []) ++
      if hasRight then [] else [.notWithoutOperand]
  | operator op => (if hasLeft then [] else [.missingLeft op]) ++
      if hasRight then [] else [.missingRight op]
  | _ => []

end Token

/-- The tokens of a text. -/
def tokens (s : Text) : List Token := Token.scan [] none s

/-- What is wrong with the operators among tokens, the neighbours of each looked up by place. -/
def tokenFaults (ts : List Token) : List Fault :=
  ts.zipIdx.flatMap fun (t, i) => t.faultsBetween (if i = 0 then none else ts[i - 1]?) ts[i + 1]?

namespace Token

/-! ### Neighbours -/

/-- What is wrong with the operators among tokens that follow `before`. -/
def faultsAfter (before : Option Token) : List Token → List Fault
  | [] => []
  | t :: ts => t.faultsBetween before ts.head? ++ faultsAfter (some t) ts

theorem flatMap_zipIdx_eq (before ts : List Token) :
    ((ts.zipIdx before.length).flatMap fun (t, i) => t.faultsBetween
      (if i = 0 then none else (before ++ ts)[i - 1]?) (before ++ ts)[i + 1]?) =
      faultsAfter before.getLast? ts := by
  induction ts generalizing before with
  | nil => rfl
  | cons t ts ih =>
    have hlast : (if before.length = 0 then none else (before ++ t :: ts)[before.length - 1]?) =
        before.getLast? := by
      rcases List.eq_nil_or_concat before with rfl | ⟨init, last, rfl⟩
      · rfl
      · simp
    have hnext : (before ++ t :: ts)[before.length + 1]? = ts.head? := by
      rw [List.append_cons, List.getElem?_append_right (by simp), List.head?_eq_getElem?]
      simp
    have hrest := ih (before ++ [t])
    rw [List.length_append, List.length_singleton, List.append_assoc, List.getLast?_concat] at hrest
    rw [List.zipIdx_cons, List.flatMap_cons, faultsAfter, ← hlast, ← hnext]
    exact congrArg _ hrest

theorem tokenFaults_eq (ts : List Token) : tokenFaults ts = faultsAfter none ts :=
  flatMap_zipIdx_eq [] ts

/-- The second tokens are the first ones, with operands that follow each other taken together. -/
inductive Merged : List Token → List Token → Prop
  | nil : Merged [] []
  | cons (t : Token) {ts us : List Token} (h : Merged ts us) : Merged (t :: ts) (t :: us)
  | join {ts us : List Token} (h : Merged (operand :: ts) us) :
    Merged (operand :: operand :: ts) us

theorem Merged.head?_eq {ts us : List Token} (h : Merged ts us) : ts.head? = us.head? := by
  induction h with
  | nil => rfl
  | cons t h ih => rfl
  | join h ih => exact ih

theorem Merged.faultsAfter_eq {ts us : List Token} (h : Merged ts us) (before : Option Token) :
    faultsAfter before ts = faultsAfter before us := by
  induction h generalizing before with
  | nil => rfl
  | cons t h ih => rw [faultsAfter, faultsAfter, h.head?_eq, ih]
  | join h ih => exact ih before

/-! ### Lexemes -/

/-- The token of a lexeme. -/
def ofLexeme : Lexeme → Token
  | .opening => opening
  | .closing => closing
  | l => l.op?.elim operand operator

theorem ofLexeme_flat {l : Lexeme} (h : l.Flat) : ofLexeme l = l.op?.elim operand operator := by
  cases l with
  | opening => exact absurd rfl h.1
  | closing => exact absurd rfl h.2
  | _ => rfl

theorem ofLexeme_of_op? {l : Lexeme} {op : Op} (h : l.op? = some op) :
    ofLexeme l = operator op := by
  rw [ofLexeme_flat (Lexeme.flat_of_op? (h ▸ Option.some_ne_none op)), h, Option.elim_some]

theorem endsOperand_ofLexeme (l : Lexeme) :
    (ofLexeme l == operand || ofLexeme l == closing) = l.endsOperand := by
  cases hop : l.op? with
  | some op =>
    rw [ofLexeme_of_op? hop, Lexeme.endsOperand, hop]
    simp
  | none => cases l <;> simp_all [ofLexeme, Lexeme.endsOperand]

theorem beginsOperand_ofLexeme (l : Lexeme) :
    (ofLexeme l == operand || ofLexeme l == opening || ofLexeme l == operator .not) =
      l.beginsOperand := by
  cases hop : l.op? with
  | some op =>
    rw [ofLexeme_of_op? hop, Lexeme.beginsOperand, hop]
    have hclosing : l ≠ .closing := (Lexeme.flat_of_op? (hop ▸ Option.some_ne_none op)).2
    rw [bne_iff_ne.mpr hclosing]
    cases op <;> rfl
  | none => cases l <;> simp_all [ofLexeme, Lexeme.beginsOperand]

theorem faultsBetween_of_op? (before after : Option Lexeme) {l : Lexeme} {op : Op}
    (h : l.op? = some op) :
    (ofLexeme l).faultsBetween (before.map ofLexeme) (after.map ofLexeme) =
      op.faults before after := by
  have hleft : (before.map ofLexeme == some operand || before.map ofLexeme == some closing) =
      before.any Lexeme.endsOperand := by
    cases before with
    | none => rfl
    | some l => exact endsOperand_ofLexeme l
  have hright : (after.map ofLexeme == some operand || after.map ofLexeme == some opening ||
      after.map ofLexeme == some (operator .not)) = after.any Lexeme.beginsOperand := by
    cases after with
    | none => rfl
    | some l => exact beginsOperand_ofLexeme l
  rw [ofLexeme_of_op? h]
  cases op <;> simp only [faultsBetween, hleft, hright, Op.faults]

theorem faultsBetween_plain (before after : Option Token) {l : Lexeme} (h : l.op? = none) :
    (ofLexeme l).faultsBetween before after = [] := by
  cases l <;> simp_all [ofLexeme, faultsBetween]

/-- The faults among lexemes are those among their tokens. -/
theorem faultsAfter_ofLexeme (before : Option Lexeme) (ls : List Placed) :
    faultsAfter (before.map ofLexeme) (ls.map (ofLexeme ·.lexeme)) = operatorFaults before ls := by
  induction ls generalizing before with
  | nil => rfl
  | cons p ls ih =>
    have hhead : (ls.map (ofLexeme ·.lexeme)).head? =
        (ls.head?.map (·.lexeme)).map ofLexeme := by
      cases ls <;> rfl
    rw [List.map_cons, faultsAfter, hhead, operatorFaults, ← ih (some p.lexeme)]
    cases hop : p.lexeme.op? with
    | none => rw [faultsBetween_plain _ _ hop]; rfl
    | some op => rw [faultsBetween_of_op? _ _ hop]; rfl

/-! ### Pieces -/

/-- What is the spelling of no keyword is an operand. -/
theorem ofPiece_of_not_keyword {piece : Text} (h : ∀ op : Op, op.keyword.toList ≠ piece) :
    ofPiece piece = operand := by
  have hnone : Op.all.find? (·.keyword.toList = piece) = none :=
    List.find?_eq_none.mpr fun op _ hop => h op (of_decide_eq_true hop)
  rw [ofPiece, hnone, Option.elim_none]

/-- What holds a character of no word is no keyword. -/
theorem ofPiece_of_not_bare {piece : Text} (h : ∃ c ∈ piece, isBare c = false) :
    ofPiece piece = operand := by
  obtain ⟨c, hc, hbare⟩ := h
  refine ofPiece_of_not_keyword fun op hop => ?_
  rw [← hop] at hc
  exact Bool.false_ne_true (hbare.symm.trans (op.legible_lexeme.2 c hc))

theorem exists_not_bare {l : Lexeme} (hl : l.Legible) (hw : l.isWord = false) :
    ∃ c ∈ l.text, isBare c = false := by
  cases l with
  | word letters => cases hw
  | opening => exact ⟨'(', by decide, by decide⟩
  | closing => exact ⟨')', by decide, by decide⟩
  | comma => exact ⟨',', by decide, by decide⟩
  | literal q content | openLiteral q content =>
    refine ⟨q, List.mem_cons_self .., Bool.eq_false_iff.mpr fun hbare => ?_⟩
    exact Bool.false_ne_true ((isQuote_of_isBare hbare).symm.trans hl.1)

/-- A lexeme that is a piece of its own gives its token. -/
theorem ofPiece_text {l : Lexeme} (hl : l.Legible) (hflat : l.Flat)
    (hspelled : ∀ op, l.op? = some op → l = op.lexeme) : ofPiece l.text = ofLexeme l := by
  cases hop : l.op? with
  | some op =>
    rw [ofLexeme_of_op? hop, hspelled op hop]
    cases op <;> rfl
  | none =>
    rw [ofLexeme_flat hflat, hop, Option.elim_none]
    cases hw : l.isWord with
    | false => exact ofPiece_of_not_bare (exists_not_bare hl hw)
    | true =>
      cases l with
      | word letters =>
        refine ofPiece_of_not_keyword fun op hkeyword => ?_
        have hword : Lexeme.word letters = op.lexeme := congrArg Lexeme.word hkeyword.symm
        exact op.op?_lexeme_ne_none (hword ▸ hop)
      | _ => cases hw

/-- The lexeme can be read into the piece: there is no piece yet, or both are operands, and
together they are no keyword. -/
def Joins (piece : Text) (l : Lexeme) : Prop :=
  piece = [] ∨ ofPiece piece = operand ∧ l.op? = none ∧ ∃ c ∈ piece ++ l.text, isBare c = false

theorem ended_of_ne_nil {piece : Text} (h : piece ≠ []) : ended piece = [ofPiece piece] := if_neg h

namespace Joins
variable {piece : Text} {l : Lexeme} (h : Joins piece l) (hl : l.Legible) (hflat : l.Flat)
  (hspelled : ∀ op, l.op? = some op → l = op.lexeme)
include h hl hflat hspelled

/-- The piece has the token of the lexeme that was read into it last. -/
theorem ofPiece_eq : ofPiece (piece ++ l.text) = ofLexeme l := by
  rcases h with rfl | ⟨-, hop, hbare⟩
  · exact ofPiece_text hl hflat hspelled
  · rw [ofPiece_of_not_bare hbare, ofLexeme_flat hflat, hop, Option.elim_none]

/-- A lexeme that is read into a piece counts as an operand of its own among the lexemes. -/
theorem merged {ts us : List Token} (hm : Merged (ended (piece ++ l.text) ++ ts) us) :
    Merged (ended piece ++ ofLexeme l :: ts) us := by
  have hne : piece ++ l.text ≠ [] := by simp [Lexeme.text_ne_nil hl]
  rw [ended_of_ne_nil hne, h.ofPiece_eq hl hflat hspelled] at hm
  by_cases hpiece : piece = []
  · rw [hpiece]
    exact hm
  · obtain ⟨hoperand, hop, -⟩ := h.resolve_left hpiece
    rw [ofLexeme_flat hflat, hop, Option.elim_none] at hm ⊢
    rw [ended_of_ne_nil hpiece, hoperand]
    exact .join hm

/-- The lexeme that touches it can be read into the piece as well. -/
theorem next {r : Lexeme} (hr : r.Legible) (hop : l.op? = none) (hopr : r.op? = none)
    (hword : l.isWord = true → r.isWord = false) : Joins (piece ++ l.text) r := by
  refine .inr ⟨?_, hopr, ?_⟩
  · rw [h.ofPiece_eq hl hflat hspelled, ofLexeme_flat hflat, hop, Option.elim_none]
  · cases hw : l.isWord with
    | false =>
      obtain ⟨c, hc, hbare⟩ := exists_not_bare hl hw
      exact ⟨c, List.mem_append_left _ (List.mem_append_right _ hc), hbare⟩
    | true =>
      obtain ⟨c, hc, hbare⟩ := exists_not_bare hr (hword hw)
      exact ⟨c, List.mem_append_right _ hc, hbare⟩

end Joins

/-! ### All lexemes -/

theorem Merged.refl (ts : List Token) : Merged ts ts := by
  induction ts with
  | nil => exact .nil
  | cons t ts ih => exact .cons t ih

theorem Merged.append_left (before : List Token) {ts us : List Token} (h : Merged ts us) :
    Merged (before ++ ts) (before ++ us) := by
  induction before with
  | nil => exact h
  | cons t before ih => exact .cons t ih

/-- Blanks end a piece. -/
theorem scan_gap {g : Text} (hg : Blank g) (hne : g ≠ []) (piece s : Text) :
    scan piece none (g ++ s) = ended piece ++ scan [] none s := by
  induction g generalizing piece with
  | nil => exact absurd rfl hne
  | cons c g ih =>
    obtain ⟨hc, hg⟩ := List.forall_mem_cons.mp hg
    have hopening : c ≠ '(' := fun h => by subst h; cases hc
    have hclosing : c ≠ ')' := fun h => by subst h; cases hc
    rw [List.cons_append, scan, if_pos ⟨rfl, isQuote_of_isBlank hc⟩, if_neg hopening,
      if_neg hclosing, if_pos hc]
    by_cases hnil : g = []
    · rw [hnil, List.nil_append]
    · rw [ih hg hnil]
      rfl

/-- Where no parenthesis and no blank stands outside literals, everything is read into the
piece. -/
theorem scan_piece {quote : Option Char} {t : Text}
    (h : ∀ c ∈ outsideFrom quote t, c ≠ '(' ∧ c ≠ ')' ∧ isBlank c = false) (piece s : Text) :
    scan piece quote (t ++ s) = scan (piece ++ t) (openQuoteFrom quote t) s := by
  induction t generalizing piece quote with
  | nil =>
    rw [List.append_nil]
    rfl
  | cons c t ih =>
    have hstep (hrest : ∀ d ∈ outsideFrom (quoteAfter quote c) t,
        d ≠ '(' ∧ d ≠ ')' ∧ isBlank d = false) : scan (piece ++ [c]) (quoteAfter quote c) (t ++ s) =
          scan (piece ++ c :: t) (openQuoteFrom quote (c :: t)) s := by
      rw [ih hrest, List.append_assoc, List.singleton_append]
      rfl
    rw [List.cons_append, scan]
    by_cases hc : quote = none ∧ isQuote c = false
    · obtain ⟨rfl, hplain⟩ := hc
      rw [outsideFrom, if_pos ⟨rfl, hplain⟩] at h
      obtain ⟨⟨hopening, hclosing, hblank⟩, hrest⟩ := List.forall_mem_cons.mp h
      rw [quoteAfter_plain hplain] at hstep
      rw [if_pos ⟨rfl, hplain⟩, if_neg hopening, if_neg hclosing, hblank, if_neg Bool.false_ne_true,
        hstep hrest]
    · rw [outsideFrom_quote quote hc] at h
      rw [if_neg hc, hstep h]

theorem outside_text {l : Lexeme} (hl : l.Legible) (hflat : l.Flat) :
    ∀ c ∈ outside l.text, isBare c = true ∨ c = ',' := by
  cases l with
  | word letters =>
    rw [Lexeme.text, outside_plain fun c hc => isQuote_of_isBare (hl.2 c hc)]
    exact fun c hc => .inl (hl.2 c hc)
  | opening => exact absurd rfl hflat.1
  | closing => exact absurd rfl hflat.2
  | comma => exact fun c hc => .inr (List.mem_singleton.mp hc)
  | literal q content =>
    obtain ⟨hopen, houtside⟩ := outside_quote hl.1 hl.2
    have hclose : outsideFrom (some q) [q] = [] :=
      outsideFrom_quote _ (fun h => Option.some_ne_none q h.1) []
    rw [Lexeme.text, ← List.cons_append, outside, outsideFrom_append, ← outside, houtside,
      ← openQuote, hopen, hclose]
    exact List.forall_mem_nil _
  | openLiteral q content =>
    rw [Lexeme.text, (outside_quote hl.1 hl.2).2]
    exact List.forall_mem_nil _

/-- A lexeme that is no parenthesis is read into the piece. -/
theorem scan_lexeme {l : Lexeme} (hl : l.Legible) (hflat : l.Flat) (piece s : Text) :
    scan piece none (l.text ++ s) = scan (piece ++ l.text) (openQuote l.text) s := by
  refine scan_piece (fun c hc => ?_) piece s
  rcases outside_text hl hflat c hc with hbare | rfl
  · have hopening : c ≠ '(' := fun h => by subst h; cases hbare
    have hclosing : c ≠ ')' := fun h => by subst h; cases hbare
    exact ⟨hopening, hclosing, isBlank_of_isBare hbare⟩
  · decide

/-- A parenthesis ends a piece and is a token of its own. -/
theorem scan_mark {l : Lexeme} (h : ¬l.Flat) (piece s : Text) :
    scan piece none (l.text ++ s) = ended piece ++ ofLexeme l :: scan [] none s := by
  rcases not_and_or.mp h with h | h
  · rw [not_not.mp h]
    rfl
  · rw [not_not.mp h]
    rfl

/-- A lexeme that touches the one before it can be read into the same piece. -/
theorem Joins.of_touching {p : Placed} {ls : List Placed} (hls : Legible (p :: ls))
    (htidied : Tidied (p :: ls)) (hflat : p.lexeme.Flat) {piece : Text}
    (h : Joins piece p.lexeme) :
    ∀ q ∈ ls.head?, q.gap = [] → Joins (piece ++ p.lexeme.text) q.lexeme := by
  intro q hq hgap
  obtain ⟨-, hl, hapart⟩ := hls.head
  have hspaced := (List.isChain_cons.mp htidied.spaced).1 q hq
  rw [hgap] at hspaced
  obtain ⟨hop, hopq⟩ := not_or.mp fun hk => List.cons_ne_nil ' ' [] (hspaced hk).symm
  have hword (hw : p.lexeme.isWord = true) : q.lexeme.isWord = false :=
    Bool.eq_false_iff.mpr fun hqw => (hapart q hq).words hw hqw hgap
  exact h.next hl hflat (htidied.spelled p (List.mem_cons_self ..))
    (hls.tail.lexemes q (List.mem_of_head? hq)) (not_not.mp hop) (not_not.mp hopq) hword

/-- **The lexemes are the tokens, with operands that touch taken together**, after the piece that
they can be read into. -/
theorem merged_scan {ls : List Placed} (hls : Legible ls) (htidied : Tidied ls) {piece : Text}
    (h : ∀ p ∈ ls.head?, p.gap = [] → Joins piece p.lexeme) :
    Merged (ended piece ++ ls.map (ofLexeme ·.lexeme)) (scan piece none (render ls)) := by
  induction ls generalizing piece with
  | nil =>
    rw [List.map_nil, List.append_nil]
    exact .refl _
  | cons p ls ih =>
    obtain ⟨hgap, hl, hapart⟩ := hls.head
    have htail : Tidied ls := Tidied.right (a := [p]) htidied
    have hlexeme (piece : Text) (hjoins : Joins piece p.lexeme) :
        Merged (ended piece ++ ofLexeme p.lexeme :: ls.map (ofLexeme ·.lexeme))
          (scan piece none (p.lexeme.text ++ render ls)) := by
      by_cases hflat : p.lexeme.Flat
      · have hspelled := htidied.spelled p (List.mem_cons_self ..)
        -- a literal that is never closed comes last, and then the open quote does not matter
        have hclosed : scan (piece ++ p.lexeme.text) (openQuote p.lexeme.text) (render ls) =
            scan (piece ++ p.lexeme.text) none (render ls) := by
          cases ls with
          | nil => rfl
          | cons q ls => rw [Lexeme.openQuote_text hl (hapart q rfl).closed]
        rw [scan_lexeme hl hflat, hclosed]
        exact hjoins.merged hl hflat hspelled
          (ih hls.tail htail (hjoins.of_touching hls htidied hflat))
      · rw [scan_mark hflat]
        exact .append_left _ (.cons _ (ih hls.tail htail fun _ _ _ => .inl rfl))
    rw [render_cons, List.append_assoc, List.map_cons]
    by_cases hnil : p.gap = []
    · rw [hnil, List.nil_append]
      exact hlexeme piece (h p rfl hnil)
    · rw [scan_gap hgap hnil]
      exact .append_left _ (hlexeme [] (.inl rfl))

end Token

/-- **In the tidy text the scan finds the faults that are found among its lexemes.** -/
theorem tokenFaults_tidyText (s : Text) :
    tokenFaults (tokens (tidyText s)) = operatorFaults none (tidyLex s) := by
  have hmerged : Token.Merged ((tidyLex s).map (Token.ofLexeme ·.lexeme)) (tokens (tidyText s)) :=
    Token.merged_scan (legible_tidyLex s) (tidied_tidyLex s) fun _ _ _ => .inl rfl
  rw [Token.tokenFaults_eq, ← hmerged.faultsAfter_eq]
  exact Token.faultsAfter_ofLexeme none (tidyLex s)

end AccessRules
