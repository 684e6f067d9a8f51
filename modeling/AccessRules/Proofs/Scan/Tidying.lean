import AccessRules.Proofs.Grammar.TidyText
import AccessRules.Proofs.Lexeme.Outside

/-! The tidy text, written in one scan.

The scan goes over the characters once. It keeps the letters of a word back until the word ends,
since only then it is known whether it is a keyword, and it keeps a space back until something is
written after it. `Draft.run_render` says what it has written after any lexemes, whatever state it
has come to them in: each of them in the tidy layout, and the last one perhaps still kept back. So
it writes the tidy text (`tidyScan_eq`). -/
namespace AccessRules

/-- What the scan has written, the letters of the word it is in, and whether a space is due
before what is written next. -/
structure Draft where
  out : Text
  word : Text
  due : Bool

namespace Draft

/-- What is written, with the space that is due; none is before anything is written. -/
def spaced (d : Draft) : Text := if d.due = true ∧ d.out ≠ [] then d.out ++ [' '] else d.out

/-- Writes the word, if there is one. A keyword is written in its own spelling and after a space,
and a space is due after it. -/
def flush (d : Draft) : Draft :=
  if d.word = [] then d
  else match Op.ofWord? d.word with
    | some op =>
      let out := if d.out ≠ [] ∧ d.out.getLast? ≠ some ' ' then d.out ++ [' '] else d.out
      ⟨out ++ op.keyword.toList, [], true⟩
    | none => ⟨d.spaced ++ d.word, [], false⟩

/-- Reads a character, when `quote` is open before it. -/
def read (d : Draft) (quote : Option Char) (c : Char) : Draft :=
  if (quote = none ∧ isQuote c = false) ∧ isBare c = true then ⟨d.out, d.word ++ [c], d.due⟩
  else if (quote = none ∧ isQuote c = false) ∧ isBlank c = true then
    ⟨d.flush.out, d.flush.word, true⟩
  else ⟨d.flush.spaced ++ [c], d.flush.word, false⟩

/-- Reads a text, when `quote` is open before it. -/
def run (d : Draft) : Option Char → Text → Draft
  | _, [] => d
  | quote, c :: s => (d.read quote c).run (quoteAfter quote c) s

end Draft

/-- What the scan of a text writes, without the blanks at the end. -/
def tidyScan (s : Text) : Text := (Draft.run ⟨[], [], false⟩ none s).flush.out.trimEnd

namespace Draft
variable (d : Draft) {out : Text} {due : Bool}

/-! ### One character -/

theorem flush_of_nil (h : d.word = []) : d.flush = d := if_pos h

theorem word_flush : d.flush.word = [] := by
  unfold flush
  split
  · assumption
  · split <;> rfl

theorem read_bare {c : Char} (hc : isBare c = true) :
    d.read none c = ⟨d.out, d.word ++ [c], d.due⟩ := if_pos ⟨⟨rfl, isQuote_of_isBare hc⟩, hc⟩

theorem read_blank {c : Char} (hc : isBlank c = true) :
    d.read none c = ⟨d.flush.out, [], true⟩ := by
  rw [read, if_neg (by simp [isBare_of_isBlank hc]), if_pos ⟨⟨rfl, isQuote_of_isBlank hc⟩, hc⟩,
    word_flush]

/-- A character that is written as it is, after the word before it. -/
theorem read_other {quote : Option Char} {c : Char}
    (hc : quote = none → isBare c = false ∧ isBlank c = false) :
    d.read quote c = ⟨d.flush.spaced ++ [c], [], false⟩ := by
  rw [read, if_neg, if_neg, word_flush]
  · exact fun h => Bool.false_ne_true ((hc h.1.1).2.symm.trans h.2)
  · exact fun h => Bool.false_ne_true ((hc h.1.1).1.symm.trans h.2)

/-- In a literal every character is written as it is. -/
theorem read_content (out : Text) (q c : Char) :
    read ⟨out, [], false⟩ (some q) c = ⟨out ++ [c], [], false⟩ :=
  read_other _ fun h => absurd h (Option.some_ne_none q)

theorem run_append (quote : Option Char) (a b : Text) :
    d.run quote (a ++ b) = (d.run quote a).run (openQuoteFrom quote a) b := by
  induction a generalizing d quote with
  | nil => rfl
  | cons c a ih => exact ih _ _

/-! ### One lexeme -/

theorem run_gap {g : Text} (hg : Blank g) (hne : g ≠ []) :
    d.run none g = ⟨d.flush.out, [], true⟩ := by
  induction g generalizing d with
  | nil => exact absurd rfl hne
  | cons c g ih =>
    obtain ⟨hc, hg⟩ := List.forall_mem_cons.mp hg
    rw [run, read_blank d hc, quoteAfter_plain (isQuote_of_isBlank hc)]
    by_cases hnil : g = []
    · rw [hnil]
      rfl
    · exact ih _ hg hnil

theorem run_letters {letters : Text} (h : ∀ c ∈ letters, isBare c = true) :
    d.run none letters = ⟨d.out, d.word ++ letters, d.due⟩ := by
  induction letters generalizing d with
  | nil =>
    rw [List.append_nil]
    rfl
  | cons c letters ih =>
    obtain ⟨hc, hletters⟩ := List.forall_mem_cons.mp h
    rw [run, read_bare d hc, quoteAfter_plain (isQuote_of_isBare hc), ih _ hletters,
      List.append_assoc, List.singleton_append]

theorem run_content {q : Char} {content : Text} (h : q ∉ content) :
    run ⟨out, [], false⟩ (some q) content = ⟨out ++ content, [], false⟩ := by
  induction content generalizing out with
  | nil =>
    rw [List.append_nil]
    rfl
  | cons c content ih =>
    obtain ⟨hc, hcontent⟩ := not_or.mp fun hm => h (List.mem_cons.mpr hm)
    have hquote : quoteAfter (some q) c = some q := if_neg (Ne.symm hc)
    rw [run, read_content, hquote, ih hcontent, List.append_assoc, List.singleton_append]

/-- A literal up to its close. -/
theorem run_quote {q : Char} (hq : isQuote q = true) {content : Text} (h : q ∉ content) :
    d.run none (q :: content) = ⟨d.flush.spaced ++ q :: content, [], false⟩ := by
  have hafter : quoteAfter none q = some q := if_pos hq
  have hread : d.read none q = ⟨d.flush.spaced ++ [q], [], false⟩ := by
    refine d.read_other fun _ => ⟨?_, isBlank_of_isQuote hq⟩
    exact Bool.eq_false_iff.mpr fun hb => by cases hq.symm.trans (isQuote_of_isBare hb)
  rw [run, hread, hafter, run_content h, List.append_assoc, List.singleton_append]

/-- A lexeme that is no word is written as it is, after the word before it. -/
theorem run_mark {l : Lexeme} (hl : l.Legible) (hword : l.isWord = false) :
    d.run none l.text = ⟨d.flush.spaced ++ l.text, [], false⟩ := by
  cases l with
  | word letters => cases hword
  | opening => exact @read_other d none '(' fun _ => by decide
  | closing => exact @read_other d none ')' fun _ => by decide
  | comma => exact @read_other d none ',' fun _ => by decide
  | literal q content =>
    have hopen : openQuoteFrom none (q :: content) = some q := (outside_quote hl.1 hl.2).1
    rw [Lexeme.text, ← List.cons_append, run_append, hopen, run_quote d hl.1 hl.2]
    show read ⟨_, [], false⟩ (some q) q = _
    rw [read_content, List.append_assoc]
  | openLiteral q content => exact d.run_quote hl.1 hl.2

/-- Blanks are read outside literals, and the lexeme after them as well. -/
theorem run_placed {p : Placed} (hg : Blank p.gap) :
    d.run none p.text = (d.run none p.gap).run none p.lexeme.text := by
  rw [Placed.text, run_append]
  exact congrArg (run _ · _) hg.closed

/-- The space before a lexeme, when `due` says whether the scan has one due. -/
def space (out : Text) (due : Bool) (l : Lexeme) : Text :=
  if out ≠ [] ∧ (due = true ∨ l.op? ≠ none) then [' '] else []

theorem spaced_eq {l : Lexeme} (hop : l.op? = none) (word : Text) :
    spaced ⟨out, word, due⟩ = out ++ space out due l := by
  simp only [spaced, space, hop, ne_eq, not_true_eq_false, or_false, and_comm]
  split <;> simp

/-- **A lexeme is written in its own spelling**, once the word before it and its own are. -/
theorem flush_lexeme {l : Lexeme} (hl : l.Legible) (hopen : l.isOpenLiteral = false)
    (hd : d.flush = ⟨out, [], due⟩) (hword : l.isWord = true → d.word = [])
    (hends : ∀ c ∈ out.getLast?, isBlank c = false) :
    (d.run none l.text).flush = ⟨out ++ space out due l ++ l.tidy.text, [], l.op?.isSome⟩ := by
  cases hw : l.isWord with
  | false =>
    have hop : l.op? = none := Lexeme.op?_of_not_isWord hw
    rw [run_mark d hl hw, flush_of_nil _ rfl, hd, spaced_eq hop, Lexeme.tidy_of_plain hop hopen,
      hop]
    rfl
  | true =>
    rw [flush_of_nil d (hword hw)] at hd
    subst hd
    cases l with
    | word letters =>
      rw [Lexeme.text, run_letters _ hl.2, List.nil_append, flush, if_neg hl.1]
      cases hop : Op.ofWord? letters with
      | some op =>
        have hlast : out.getLast? ≠ some ' ' := fun h => by cases hends ' ' h
        have hsome : (Lexeme.word letters).op? = some op := hop
        simp only [Lexeme.tidy_keyword hsome, hsome, space]
        split <;> simp_all [Op.lexeme, Lexeme.text]
      | none =>
        have hnone : (Lexeme.word letters).op? = none := hop
        simp only [spaced_eq hnone, hnone]
        simp [Lexeme.tidy, hop, Lexeme.text]
    | _ => cases hw

/-! ### All lexemes -/

/-- The scan has come past the lexemes up to `before`, and has written `out` when the last of
them is written. -/
structure Past (before : Option Lexeme) (out : Text) (d : Draft) : Prop where
  flush : d.flush = ⟨out, [], before.any (·.op?.isSome)⟩
  first : out = [] ↔ before = none
  ends : ∀ c ∈ out.getLast?, isBlank c = false

namespace Past
variable {d : Draft} {before : Option Lexeme} {out : Text} (h : Past before out d)
include h

/-- Blanks before a lexeme make a space due. -/
theorem gap {g : Text} (hg : Blank g) : (d.run none g).flush =
    ⟨out, [], before.any (·.op?.isSome) || decide (g ≠ [])⟩ := by
  by_cases hne : g = []
  · rw [hne, run, h.flush]
    simp
  · rw [run_gap d hg hne, h.flush, flush_of_nil _ rfl]
    simp [hne]

/-- The space before a lexeme is the one it has in the tidy layout. -/
theorem space_eq (p : Placed) :
    space out (before.any (·.op?.isSome) || decide (p.gap ≠ [])) p.lexeme = tidyGap before p := by
  cases before with
  | none => exact if_neg fun hs => hs.1 (h.first.mpr rfl)
  | some l =>
    have hne : out ≠ [] := mt h.first.mp (Option.some_ne_none l)
    rw [tidyGap_eq, space]
    refine if_congr ?_ rfl rfl
    simp [hne, Option.isSome_iff_ne_none, or_comm, or_assoc]

/-- A closed lexeme is written in the tidy layout. -/
theorem lexeme {p : Placed} (hg : Blank p.gap) (hl : p.lexeme.Legible)
    (hopen : p.lexeme.isOpenLiteral = false)
    (hword : p.lexeme.isWord = true → p.gap = [] → d.word = []) :
    Past (some p.lexeme) (out ++ (tidyGap before p ++ p.lexeme.tidy.text)) (d.run none p.text) ∧
      (p.lexeme.isWord = false → (d.run none p.text).word = []) := by
  have hkept (hw : p.lexeme.isWord = true) : (d.run none p.gap).word = [] := by
    by_cases hgap : p.gap = []
    · rw [hgap]
      exact hword hw hgap
    · rw [run_gap d hg hgap]
  have htext : p.lexeme.tidy.text ≠ [] := Lexeme.text_ne_nil (Lexeme.legible_tidy hl)
  rw [run_placed d hg]
  refine ⟨⟨?_, ?_, ?_⟩, fun hw => by rw [run_mark _ hl hw]⟩
  · rw [flush_lexeme _ hl hopen (h.gap hg) hkept h.ends, h.space_eq, List.append_assoc]
    rfl
  · simp [htext]
  · rw [← List.append_assoc, List.getLast?_append_of_ne_nil _ htext]
    exact Lexeme.getLast?_tidy hl

/-- The last lexeme can be a literal that is never closed. -/
theorem openLiteral {p : Placed} (hg : Blank p.gap) (hl : p.lexeme.Legible)
    (hopen : p.lexeme.isOpenLiteral = true) :
    (d.run none p.text).flush.out.trimEnd = out ++ (tidyGap before p ++ p.lexeme.tidy.text) := by
  obtain ⟨gap, l⟩ := p
  cases l with
  | openLiteral q content =>
    have hout : (d.run none (Placed.mk gap (.openLiteral q content)).text).flush.out =
        out ++ tidyGap before ⟨gap, .openLiteral q content⟩ ++ [q] ++ content := by
      rw [run_placed d hg, run_mark _ hl rfl, flush_of_nil _ rfl, h.gap hg,
        spaced_eq (l := .openLiteral q content) rfl, ← h.space_eq]
      simp [Lexeme.text]
    rw [hout, Text.trimEnd_append, List.append_assoc, List.append_assoc]
    · rfl
    · rw [List.getLast?_concat]
      intro c hc
      cases hc
      exact isBlank_of_isQuote hl.1
  | _ => cases hopen

end Past

/-- **What is written of any lexemes is their tidy layout**, after what was written before. -/
theorem run_render {ls : List Placed} (hls : Legible ls) {g : Text} (hg : Blank g)
    (hclosed : endsInLiteral ls = true → g = []) {d : Draft} {before : Option Lexeme} {out : Text}
    (h : Past before out d)
    (hword : ∀ p ∈ ls.head?, p.lexeme.isWord = true → p.gap = [] → d.word = []) :
    (d.run none (render ls ++ g)).flush.out.trimEnd = out ++ render (tidyAfter before ls) := by
  induction ls generalizing d before out with
  | nil =>
    rw [render_nil, List.nil_append, h.gap hg, tidyAfter, render_nil, List.append_nil]
    have hend := Text.trimEnd_append [] h.ends
    rw [List.append_nil] at hend
    exact hend.trans out.append_nil
  | cons p ls ih =>
    obtain ⟨hgap, hl, hapart⟩ := hls.head
    rw [tidyAfter, render_cons]
    cases hopen : p.lexeme.isOpenLiteral with
    | false =>
      obtain ⟨hpast, hmark⟩ := h.lexeme hgap hl hopen (hword p rfl)
      have hquote : openQuote p.text = none :=
        (openQuote_append hgap.closed _).trans (Lexeme.openQuote_text hl hopen)
      have hnext : ∀ q ∈ ls.head?, q.lexeme.isWord = true → q.gap = [] →
          (d.run none p.text).word = [] := fun q hq hqword hqgap =>
        hmark (Bool.eq_false_iff.mpr fun hw => (hapart q hq).words hw hqword hqgap)
      rw [endsInLiteral_cons, hopen, Bool.false_or] at hclosed
      rw [← Placed.text, List.append_assoc, run_append, ← openQuote, hquote,
        ih hls.tail hclosed hpast hnext, List.append_assoc]
      rfl
    | true =>
      have hlast : ls = [] := by
        cases ls with
        | nil => rfl
        | cons q ls => cases hopen.symm.trans (hapart q rfl).closed
      subst hlast
      rw [hclosed (by simp [endsInLiteral_cons, hopen]), List.append_nil, render_nil,
        List.append_nil]
      exact (h.openLiteral hgap hl hopen).trans (by simp [tidyAfter])

end Draft

/-- **The scan writes the tidy text.** -/
theorem tidyScan_eq (s : Text) : tidyScan s = tidyText s := by
  obtain ⟨hblank, hs⟩ := render_lex s
  have hstart : Draft.Past none [] ⟨[], [], false⟩ := ⟨rfl, by simp, nofun⟩
  have hrun := Draft.run_render (legible_lex s) hblank lastBlanks_of_open hstart fun _ _ _ _ => rfl
  rwa [hs] at hrun

end AccessRules
