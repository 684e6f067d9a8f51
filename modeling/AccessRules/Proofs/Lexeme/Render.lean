import AccessRules.Lexeme.Lex
import Mathlib.Data.List.Chain

/-! Lexemes and their text determine each other.

`Legible` says which placed lexemes a reading can give: words are made of word
characters, a literal does not hold its own quote, two words do not touch, and
nothing follows a literal that is never closed. `legible_lex` shows that a reading
gives nothing else, `render_lex` that it loses nothing but the blanks at the end of
the text, and `lex_render_append` that legible lexemes are read back as they are,
whatever text follows. -/
namespace AccessRules

/-! ### What a reading can give -/

/-- A text of blanks only. -/
def Blank (s : Text) : Prop := ∀ c ∈ s, isBlank c = true

theorem blank_nil : Blank [] := fun _ h => nomatch h

theorem blank_space : Blank [' '] := List.forall_mem_singleton.mpr rfl

namespace Lexeme

/-- A lexeme that a reading can give. -/
def Legible : Lexeme → Prop
  | word letters => letters ≠ [] ∧ ∀ c ∈ letters, isBare c = true
  | literal quote content | openLiteral quote content => isQuote quote = true ∧ quote ∉ content
  | _ => True

/-- Whether the lexeme is a word. -/
def isWord : Lexeme → Bool
  | word _ => true
  | _ => false

end Lexeme

/-- `q` can follow `p`: two words have a gap between them, and nothing follows a
literal that is never closed. -/
structure Apart (p q : Placed) : Prop where
  closed : p.lexeme.isOpenLiteral = false
  words : p.lexeme.isWord = true → q.lexeme.isWord = true → q.gap ≠ []

namespace Apart

theorem of_gap {p q : Placed} (hp : p.lexeme.isOpenLiteral = false)
    (hq : q.lexeme.isWord = true → q.gap ≠ []) : Apart p q := ⟨hp, fun _ => hq⟩

theorem of_mark {p : Placed} (hp : p.lexeme.isOpenLiteral = false)
    (hw : p.lexeme.isWord = false) (q : Placed) : Apart p q :=
  ⟨hp, fun h => absurd h (by rw [hw]; decide)⟩

end Apart

/-- Placed lexemes that a reading can give. -/
structure Legible (ls : List Placed) : Prop where
  gaps : ∀ p ∈ ls, Blank p.gap
  lexemes : ∀ p ∈ ls, p.lexeme.Legible
  apart : ls.IsChain Apart

namespace Legible

theorem nil : Legible [] := ⟨by simp, by simp, .nil⟩

theorem cons {p : Placed} {ls : List Placed} (hg : Blank p.gap) (hl : p.lexeme.Legible)
    (ha : ∀ q ∈ ls.head?, Apart p q) (h : Legible ls) : Legible (p :: ls) :=
  ⟨List.forall_mem_cons.mpr ⟨hg, h.gaps⟩, List.forall_mem_cons.mpr ⟨hl, h.lexemes⟩,
    h.apart.cons ha⟩

/-- A lexeme that is no word can stand before anything. -/
theorem mark {gap : Text} {l : Lexeme} {ls : List Placed} (hg : Blank gap) (hl : l.Legible)
    (hc : l.isOpenLiteral = false) (hw : l.isWord = false) (h : Legible ls) :
    Legible (⟨gap, l⟩ :: ls) :=
  .cons hg hl (fun q _ => .of_mark hc hw q) h

theorem tail {p : Placed} {ls : List Placed} (h : Legible (p :: ls)) : Legible ls :=
  ⟨fun q hq => h.gaps q (List.mem_cons_of_mem p hq),
    fun q hq => h.lexemes q (List.mem_cons_of_mem p hq), (List.isChain_cons.mp h.apart).2⟩

theorem head {p : Placed} {ls : List Placed} (h : Legible (p :: ls)) :
    Blank p.gap ∧ p.lexeme.Legible ∧ ∀ q ∈ ls.head?, Apart p q :=
  ⟨h.gaps p (List.mem_cons_self ..), h.lexemes p (List.mem_cons_self ..),
    (List.isChain_cons.mp h.apart).1⟩

/-- The first lexeme can have other blanks before it, or none. -/
theorem regap {p : Placed} {ls : List Placed} (h : Legible (p :: ls)) {gap : Text}
    (hg : Blank gap) : Legible (⟨gap, p.lexeme⟩ :: ls) :=
  .cons hg h.head.2.1 (fun q hq => ⟨(h.head.2.2 q hq).closed, (h.head.2.2 q hq).words⟩) h.tail

/-- Only the last lexeme before and the first one after have to be apart. -/
theorem join {a b : List Placed} (ha : Legible a) (hb : Legible b)
    (h : ∀ p ∈ a.getLast?, ∀ q ∈ b.head?, Apart p q) : Legible (a ++ b) :=
  ⟨fun p hp => (List.mem_append.mp hp).elim (ha.gaps p) (hb.gaps p),
    fun p hp => (List.mem_append.mp hp).elim (ha.lexemes p) (hb.lexemes p),
    ha.apart.append hb.apart h⟩

theorem append {a b : List Placed} (ha : Legible a) (hb : Legible b)
    (h : ∀ p ∈ a, ∀ q ∈ b.head?, Apart p q) : Legible (a ++ b) :=
  ha.join hb fun p hp => h p (List.mem_of_getLast? hp)

theorem left {a b : List Placed} (h : Legible (a ++ b)) : Legible a :=
  ⟨fun p hp => h.gaps p (List.mem_append_left b hp),
    fun p hp => h.lexemes p (List.mem_append_left b hp), h.apart.left_of_append⟩

theorem right {a b : List Placed} (h : Legible (a ++ b)) : Legible b :=
  ⟨fun p hp => h.gaps p (List.mem_append_right a hp),
    fun p hp => h.lexemes p (List.mem_append_right a hp), h.apart.right_of_append⟩

end Legible

/-! ### One character -/

theorem isQuote_iff {c : Char} : isQuote c = true ↔ c = '\'' ∨ c = '"' := by
  simp [isQuote]

/-- A character is a blank, stands for itself, delimits a literal or is a letter. -/
theorem char_cases (c : Char) : isBlank c = true ∨ c = '(' ∨ c = ')' ∨ c = ',' ∨
    isQuote c = true ∨ isBare c = true := by
  simp only [isBare, Bool.not_eq_true', Bool.or_eq_false_iff, beq_eq_false_iff_ne]
  cases isBlank c <;> cases isQuote c <;> by_cases c = '(' <;> by_cases c = ')' <;>
    by_cases c = ',' <;> simp_all

theorem lex_blank {c : Char} (h : isBlank c = true) (s : Text) :
    lex (c :: s) = addBlank c (lex s) := by
  simp only [lex, lexFrom, h, if_true]

theorem lex_opening (s : Text) : lex ('(' :: s) = ⟨[], .opening⟩ :: lex s := rfl

theorem lex_closing (s : Text) : lex (')' :: s) = ⟨[], .closing⟩ :: lex s := rfl

theorem lex_comma (s : Text) : lex (',' :: s) = ⟨[], .comma⟩ :: lex s := rfl

theorem lex_quote {q : Char} (h : isQuote q = true) (s : Text) :
    lex (q :: s) = lexFrom (.inside q []) s := by
  rcases isQuote_iff.mp h with rfl | rfl <;> rfl

theorem lex_bare {c : Char} (h : isBare c = true) (s : Text) :
    lex (c :: s) = addLetter c (lex s) := by
  simp only [isBare, Bool.not_eq_true', Bool.or_eq_false_iff, beq_eq_false_iff_ne] at h
  obtain ⟨⟨⟨⟨hb, ho⟩, hc⟩, hm⟩, hq⟩ := h
  simp [lex, lexFrom, hb, ho, hc, hm, hq]

/-! ### One lexeme -/

/-- What is no closing quote is kept as content. -/
theorem lexFrom_content {q : Char} {content : Text} (h : q ∉ content) (reversed s : Text) :
    lexFrom (.inside q reversed) (content ++ s) =
      lexFrom (.inside q (content.reverse ++ reversed)) s := by
  induction content generalizing reversed with
  | nil => rfl
  | cons c rest ih =>
    obtain ⟨hc, hrest⟩ := not_or.mp fun hm => h (List.mem_cons.mpr hm)
    rw [List.cons_append, lexFrom, if_neg (Ne.symm hc), ih hrest, List.reverse_cons,
      List.append_assoc, List.singleton_append]

/-- A literal is read as it stands. -/
theorem lex_quoted {q : Char} (hq : isQuote q = true) {content : Text} (h : q ∉ content)
    (s : Text) : lex (q :: (content ++ q :: s)) = ⟨[], .literal q content⟩ :: lex s := by
  rw [lex_quote hq, lexFrom_content h, lexFrom, if_pos rfl, List.append_nil, List.reverse_reverse]
  rfl

/-- A literal that is never closed is read up to the end. -/
theorem lex_unclosed {q : Char} (hq : isQuote q = true) {content : Text} (h : q ∉ content) :
    lex (q :: content) = [⟨[], .openLiteral q content⟩] := by
  have hcontent := lexFrom_content h [] []
  rw [List.append_nil, List.append_nil] at hcontent
  rw [lex_quote hq, hcontent, lexFrom, List.reverse_reverse]

/-- Letters join into one word, unless a word follows at once. -/
theorem lex_word {letters : Text} (hne : letters ≠ []) (hb : ∀ c ∈ letters, isBare c = true)
    {s : Text} (hs : ∀ p ∈ (lex s).head?, p.lexeme.isWord = true → p.gap ≠ []) :
    lex (letters ++ s) = ⟨[], .word letters⟩ :: lex s := by
  induction letters with
  | nil => exact absurd rfl hne
  | cons c rest ih =>
    have hc := lex_bare (hb c (List.mem_cons_self ..)) (rest ++ s)
    by_cases hrest : rest = []
    · subst hrest
      rw [List.cons_append, hc, List.nil_append]
      unfold addLetter
      split
      · rename_i letters' rest' hw
        exact absurd rfl (hs ⟨[], .word letters'⟩ (by rw [hw]; rfl) rfl)
      · rfl
    · rw [List.cons_append, hc, ih hrest fun d hd => hb d (List.mem_cons_of_mem c hd)]
      rfl

/-- Blanks join the gap of what follows. -/
theorem lex_gap {g : Text} (hg : Blank g) {s : Text} {p : Placed} {ls : List Placed}
    (h : lex s = p :: ls) : lex (g ++ s) = ⟨g ++ p.gap, p.lexeme⟩ :: ls := by
  induction g with
  | nil => exact h
  | cons c rest ih =>
    rw [List.cons_append, lex_blank (hg c (List.mem_cons_self ..)),
      ih fun d hd => hg d (List.mem_cons_of_mem c hd)]
    rfl

/-- A lexeme in front of a text is read as it stands. -/
theorem lex_text_append {p : Placed} (hg : Blank p.gap) (hl : p.lexeme.Legible) {s : Text}
    (ha : ∀ q ∈ (lex s).head?, Apart p q) (hopen : p.lexeme.isOpenLiteral = false) :
    lex (p.text ++ s) = p :: lex s := by
  obtain ⟨gap, l⟩ := p
  have hlexeme : lex (l.text ++ s) = ⟨[], l⟩ :: lex s := by
    cases l with
    | word letters => exact lex_word hl.1 hl.2 fun q hq => (ha q hq).words rfl
    | opening => exact lex_opening s
    | closing => exact lex_closing s
    | comma => exact lex_comma s
    | literal q content =>
      show lex (q :: (content ++ [q]) ++ s) = _
      rw [List.cons_append, List.append_assoc]
      exact lex_quoted hl.1 hl.2 s
    | openLiteral q content => cases hopen
  show lex (gap ++ l.text ++ s) = _
  rw [List.append_assoc, lex_gap hg hlexeme, List.append_nil]

/-- A literal that is never closed is read as it stands at the end of a text. -/
theorem lex_text_open {p : Placed} (hg : Blank p.gap) (hl : p.lexeme.Legible)
    (hopen : p.lexeme.isOpenLiteral = true) : lex p.text = [p] := by
  obtain ⟨gap, l⟩ := p
  cases l with
  | openLiteral q content =>
    show lex (gap ++ q :: content) = _
    rw [lex_gap hg (lex_unclosed hl.1 hl.2), List.append_nil]
  | _ => cases hopen

/-! ### Whole texts -/

theorem endsInLiteral_cons (p : Placed) (ls : List Placed) :
    endsInLiteral (p :: ls) = (p.lexeme.isOpenLiteral || endsInLiteral ls) := rfl

theorem endsInLiteral_eq_false {ls : List Placed} :
    endsInLiteral ls = false ↔ ∀ p ∈ ls, p.lexeme.isOpenLiteral = false := by
  simp [endsInLiteral]

theorem endsInLiteral_append (a b : List Placed) :
    endsInLiteral (a ++ b) = (endsInLiteral a || endsInLiteral b) := by
  simp [endsInLiteral]

theorem endsInLiteral_append_eq_false {a b : List Placed} :
    endsInLiteral (a ++ b) = false ↔ endsInLiteral a = false ∧ endsInLiteral b = false := by
  rw [endsInLiteral_append, Bool.or_eq_false_iff]

namespace Legible

/-- What is no word, or has a gap, can follow anything but an open literal. -/
theorem append_cons {a b : List Placed} {p : Placed} (ha : Legible a)
    (hopen : endsInLiteral a = false) (hp : p.lexeme.isWord = true → p.gap ≠ [])
    (hb : Legible (p :: b)) : Legible (a ++ p :: b) := by
  refine ha.append hb fun q hq r hr => ?_
  cases hr
  exact .of_gap (endsInLiteral_eq_false.mp hopen q hq) hp

theorem close {ls : List Placed} (h : Legible ls) (hopen : endsInLiteral ls = false)
    {gap : Text} (hg : Blank gap) : Legible (ls ++ [⟨gap, .closing⟩]) :=
  h.append_cons hopen nofun (.mark hg trivial rfl rfl .nil)

end Legible

/-- **Legible lexemes are read back as they are**, whatever text follows them, if they
are legible together with what is read from that text. -/
theorem lex_render_append {ls : List Placed} {s : Text} (hopen : endsInLiteral ls = false)
    (h : Legible (ls ++ lex s)) : lex (render ls ++ s) = ls ++ lex s := by
  induction ls with
  | nil => rfl
  | cons p rest ih =>
    rw [endsInLiteral_cons, Bool.or_eq_false_iff] at hopen
    obtain ⟨hg, hl, ha⟩ := h.head
    have hrest := ih hopen.2 h.tail
    replace ha : ∀ q ∈ (lex (render rest ++ s)).head?, Apart p q := hrest ▸ ha
    show lex (p.text ++ render rest ++ s) = p :: (rest ++ lex s)
    rw [List.append_assoc, lex_text_append hg hl ha hopen.1, hrest]

theorem lex_render {ls : List Placed} (h : Legible ls) : lex (render ls) = ls := by
  induction ls with
  | nil => rfl
  | cons p rest ih =>
    obtain ⟨hg, hl, ha⟩ := h.head
    have hrest := ih h.tail
    rw [← hrest] at ha
    show lex (p.text ++ render rest) = p :: rest
    cases hopen : p.lexeme.isOpenLiteral with
    | false => rw [lex_text_append hg hl ha hopen, hrest]
    | true =>
      cases rest with
      | nil =>
        rw [render_nil, List.append_nil]
        exact lex_text_open hg hl hopen
      | cons q rest =>
        have hclosed := (ha q (by rw [hrest]; rfl)).closed
        rw [hopen] at hclosed
        cases hclosed

theorem lex_lexeme {l : Lexeme} (hl : l.Legible) : lex l.text = [⟨[], l⟩] := by
  have hlegible : Legible [⟨[], l⟩] := .cons blank_nil hl (fun _ h => nomatch h) .nil
  have hlex := lex_render hlegible
  rwa [render_cons, render_nil, List.append_nil, List.nil_append] at hlex

/-! ### What a reading gives -/

namespace Quoting

/-- A reading that can have come this far. -/
def Legible : Quoting → Prop
  | outside => True
  | inside quote reversed => isQuote quote = true ∧ quote ∉ reversed

/-- What has been read of a literal. -/
def text : Quoting → Text
  | outside => []
  | inside quote reversed => quote :: reversed.reverse

end Quoting

theorem legible_addBlank {c : Char} (hc : isBlank c = true) {ls : List Placed} (h : Legible ls) :
    Legible (addBlank c ls) := by
  cases ls with
  | nil => exact h
  | cons p rest => exact h.regap (List.forall_mem_cons.mpr ⟨hc, h.head.1⟩)

theorem legible_addLetter {c : Char} (hc : isBare c = true) {ls : List Placed} (h : Legible ls) :
    Legible (addLetter c ls) := by
  unfold addLetter
  split
  · rename_i letters rest
    obtain ⟨hg, hl, ha⟩ := h.head
    exact .cons hg ⟨by simp, List.forall_mem_cons.mpr ⟨hc, hl.2⟩⟩
      (fun q hq => ⟨rfl, fun _ => (ha q hq).words rfl⟩) h.tail
  · rename_i hword
    refine .cons blank_nil ⟨by simp, by simpa using hc⟩ (fun q hq => ⟨rfl, ?_⟩) h
    intro _ hw hgap
    obtain ⟨gap, l⟩ := q
    cases l with
    | word letters =>
      cases ls with
      | nil => cases hq
      | cons p rest =>
        cases hq
        cases hgap
        exact hword letters rest rfl
    | _ => cases hw

theorem legible_lexFrom (quoting : Quoting) (h : quoting.Legible) (s : Text) :
    Legible (lexFrom quoting s) := by
  induction s generalizing quoting with
  | nil =>
    cases quoting with
    | outside => exact .nil
    | inside quote reversed =>
      exact .cons blank_nil ⟨h.1, by simpa using h.2⟩ (fun _ h => nomatch h) .nil
  | cons c s ih =>
    have hout : Legible (lexFrom .outside s) := ih .outside trivial
    cases quoting with
    | inside quote reversed =>
      rw [lexFrom]
      split
      · exact .mark blank_nil (l := .literal quote _) ⟨h.1, by simpa using h.2⟩ rfl rfl hout
      · rename_i hc
        exact ih (.inside quote _) ⟨h.1, by simpa using ⟨Ne.symm hc, h.2⟩⟩
    | outside =>
      show Legible (lex (c :: s))
      rcases char_cases c with hc | rfl | rfl | rfl | hc | hc
      · exact lex_blank hc s ▸ legible_addBlank hc hout
      · exact .mark blank_nil (l := .opening) trivial rfl rfl hout
      · exact .mark blank_nil (l := .closing) trivial rfl rfl hout
      · exact .mark blank_nil (l := .comma) trivial rfl rfl hout
      · rw [lex_quote hc]
        exact ih (.inside c []) ⟨hc, List.not_mem_nil⟩
      · exact lex_bare hc s ▸ legible_addLetter hc hout

theorem legible_lex (s : Text) : Legible (lex s) := legible_lexFrom .outside trivial s

theorem render_addBlank {c : Char} {ls : List Placed} (h : ls ≠ []) :
    render (addBlank c ls) = c :: render ls := by
  cases ls with
  | nil => exact absurd rfl h
  | cons p rest => rfl

theorem render_addLetter (c : Char) (ls : List Placed) :
    render (addLetter c ls) = c :: render ls := by
  unfold addLetter
  split <;> rfl

theorem endsInLiteral_addBlank (c : Char) (ls : List Placed) :
    endsInLiteral (addBlank c ls) = endsInLiteral ls := by
  cases ls <;> rfl

theorem endsInLiteral_addLetter (c : Char) (ls : List Placed) :
    endsInLiteral (addLetter c ls) = endsInLiteral ls := by
  unfold addLetter
  split <;> rfl

theorem render_lexFrom (quoting : Quoting) (s : Text) :
    ∃ g, Blank g ∧ (endsInLiteral (lexFrom quoting s) = true → g = []) ∧
      quoting.text ++ s = render (lexFrom quoting s) ++ g := by
  induction s generalizing quoting with
  | nil =>
    cases quoting with
    | outside => exact ⟨[], blank_nil, fun _ => rfl, rfl⟩
    | inside quote reversed =>
      exact ⟨[], blank_nil, fun _ => rfl, by simp [lexFrom, Quoting.text, Lexeme.text]⟩
  | cons c s ih =>
    obtain ⟨g, hg, hopen, hs⟩ := ih .outside
    have hout : s = render (lex s) ++ g := hs
    cases quoting with
    | inside quote reversed =>
      rw [lexFrom]
      split
      · rename_i hc
        refine ⟨g, hg, hopen, ?_⟩
        rw [hc, render_cons, List.append_assoc, ← hs]
        simp [Quoting.text, Lexeme.text]
      · obtain ⟨g', hg', hopen', hs'⟩ := ih (.inside quote (c :: reversed))
        exact ⟨g', hg', hopen', by rw [← hs']; simp [Quoting.text]⟩
    | outside =>
      show ∃ g', Blank g' ∧ (endsInLiteral (lex (c :: s)) = true → g' = []) ∧
        c :: s = render (lex (c :: s)) ++ g'
      rcases char_cases c with hc | rfl | rfl | rfl | hc | hc
      · rw [lex_blank hc, endsInLiteral_addBlank]
        by_cases hnil : lex s = []
        · rw [hnil] at hout ⊢
          exact ⟨c :: g, List.forall_mem_cons.mpr ⟨hc, hg⟩, nofun, by rw [hout]; rfl⟩
        · exact ⟨g, hg, hopen, by rw [render_addBlank hnil, List.cons_append, ← hout]⟩
      · exact ⟨g, hg, hopen, congrArg ('(' :: ·) hout⟩
      · exact ⟨g, hg, hopen, congrArg (')' :: ·) hout⟩
      · exact ⟨g, hg, hopen, congrArg (',' :: ·) hout⟩
      · rw [lex_quote hc]
        exact ih (.inside c [])
      · rw [lex_bare hc, endsInLiteral_addLetter]
        exact ⟨g, hg, hopen, by rw [render_addLetter, List.cons_append, ← hout]⟩

/-- The blanks at the end of a text, outside literals. -/
def lastBlanks (s : Text) : Text := s.drop (render (lex s)).length

theorem lastBlanks_eq {s g : Text} (h : s = render (lex s) ++ g) : lastBlanks s = g := by
  calc s.drop (render (lex s)).length
    _ = (render (lex s) ++ g).drop (render (lex s)).length := congrArg (List.drop _) h
    _ = g := List.drop_left ..

/-- A reading loses nothing but the blanks at the end of the text. -/
theorem render_lex (s : Text) : Blank (lastBlanks s) ∧ render (lex s) ++ lastBlanks s = s := by
  obtain ⟨g, hg, -, hs⟩ := render_lexFrom .outside s
  have hlast : lastBlanks s = g := lastBlanks_eq hs
  rw [hlast]
  exact ⟨hg, hs.symm⟩

/-- Blanks at the end of a literal that is never closed are its own. -/
theorem lastBlanks_of_open {s : Text} (h : endsInLiteral (lex s) = true) : lastBlanks s = [] := by
  obtain ⟨g, -, hopen, hs⟩ := render_lexFrom .outside s
  have hlast : lastBlanks s = g := lastBlanks_eq hs
  rw [hlast, hopen h]

/-- A text up to a close that follows it. -/
theorem render_lex_close (s : Text) :
    render (lex s ++ [⟨lastBlanks s, .closing⟩]) = s ++ [')'] := by
  rw [render_append, render_cons, render_nil, List.append_nil, ← List.append_assoc,
    (render_lex s).2]
  rfl

theorem legible_lex_close {s : Text} (h : endsInLiteral (lex s) = false) :
    Legible (lex s ++ [⟨lastBlanks s, .closing⟩]) :=
  (legible_lex s).close h (render_lex s).1

/-! ### Blanks at the end -/

theorem lex_blanks {g : Text} (hg : Blank g) : lex g = [] := by
  induction g with
  | nil => rfl
  | cons c rest ih =>
    rw [lex_blank (hg c (List.mem_cons_self ..)), ih fun d hd => hg d (List.mem_cons_of_mem c hd)]
    rfl

theorem lex_render_blanks {ls : List Placed} (h : Legible ls) (hopen : endsInLiteral ls = false)
    {g : Text} (hg : Blank g) : lex (render ls ++ g) = ls := by
  have happend : Legible (ls ++ lex g) := by rwa [lex_blanks hg, List.append_nil]
  rw [lex_render_append hopen happend, lex_blanks hg, List.append_nil]

theorem lastBlanks_render {ls : List Placed} {g : Text} (h : lex (render ls ++ g) = ls) :
    lastBlanks (render ls ++ g) = g :=
  lastBlanks_eq (by rw [h])

end AccessRules
