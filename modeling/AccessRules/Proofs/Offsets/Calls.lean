import AccessRules.Proofs.Grammar.Calls
import AccessRules.Proofs.Offsets.Groups

/-! Calls, found by offsets in bytes.

The scan goes over the characters and keeps the name it has come past, if only blanks stand
after it, by the offsets of its ends. At an opening parenthesis it slices out the name, what
stands between, and the arguments, and it skips to the close. What it keeps is what the
sweep over lexemes still has before it (`Tracked`), so that it finds the same calls with no
slice that is not valid (`callsByOffset?_eq`). -/
namespace AccessRules

/-- The call at the opening parenthesis at offset `i`, if the name that stands from one offset to
another makes one, and the offset of its close, if it is closed; nothing if a slice is not
valid. -/
def callAt? (s : Text) (i : Nat) : Option (Nat × Nat) → Option (Option (Call × Option Nat))
  | none => some none
  | some (start, stop) => do
    let name ← s.slice? start stop
    let between ← s.slice? stop i
    if between.trim = [] ∧ isName name ∧ Op.ofWord? name = none then
      match ← matchingParen? s i with
      | none => return some (⟨name, none, start⟩, none)
      | some close =>
        let args ← s.slice? (i + 1) close
        return some (⟨name, some args, start⟩, some close)
    else return none

/-- Where the name begins that has a character at offset `i`. -/
def nameStart (i : Nat) : Option (Nat × Nat) → Nat
  | some (start, stop) => if stop = i then start else i
  | none => i

/-- The calls in what is left of the text `s` at offset `i`, when `quote` is open, the last name
stands from one offset to another and everything before `skip` is passed over; nothing if
a slice is not valid. -/
def scanCalls? (s : Text) (i : Nat) (quote : Option Char) (tracked : Option (Nat × Nat))
    (skip : Nat) : Text → Option (List Call)
  | [] => some []
  | c :: rest =>
    if i < skip then scanCalls? s (i + c.utf8Size) quote tracked skip rest
    else if quote = none ∧ isQuote c = false then
      if isNameChar c then
        scanCalls? s (i + c.utf8Size) none (some (nameStart i tracked, i + 1)) skip rest
      else if c = '(' then
        (callAt? s i tracked).bind fun
          | none => scanCalls? s (i + c.utf8Size) none none skip rest
          | some (call, none) => some [call]
          | some (call, some close) =>
            (scanCalls? s (i + c.utf8Size) none none (close + 1) rest).map (call :: ·)
      else if isBlank c then scanCalls? s (i + c.utf8Size) none tracked skip rest
      else scanCalls? s (i + c.utf8Size) none none skip rest
    else scanCalls? s (i + c.utf8Size) (quoteAfter quote c) none skip rest

/-! ### The sweep over a text -/

/-- The sweep goes on in the same way if its first lexeme begins earlier, but ends where it did
and can be called by the same name in the same place. -/
theorem callsFrom_head {offset offset' : Nat} {p p' : Placed} {ls : List Placed}
    (hsize : offset + p.text.byteSize = offset' + p'.text.byteSize)
    (hcallee : (p.lexeme.callee?.map fun (before, name) =>
        (offset + p.gap.byteSize + before.byteSize, name)) =
      p'.lexeme.callee?.map fun (before, name) =>
        (offset' + p'.gap.byteSize + before.byteSize, name)) :
    callsFrom offset (p :: ls) = callsFrom offset' (p' :: ls) := by
  rcases hp : p.lexeme.callee? with _ | ⟨before, name⟩
  · rw [hp, Option.map_none, eq_comm, Option.map_eq_none_iff] at hcallee
    rw [callsFrom_skip hp, callsFrom_skip hcallee, hsize]
  · rcases hp' : p'.lexeme.callee? with _ | ⟨before', name'⟩
    · rw [hp, hp'] at hcallee
      cases hcallee
    · rw [hp, hp'] at hcallee
      obtain ⟨hstart, rfl⟩ := Prod.mk.inj (Option.some.inj hcallee)
      by_cases hopening : ∃ between rest, ls = ⟨between, .opening⟩ :: rest
      · obtain ⟨between, rest, rfl⟩ := hopening
        obtain ⟨gap, l⟩ := p
        obtain ⟨gap', l'⟩ := p'
        have hend (t : Text) : offset + (gap ++ l.text ++ between ++ t).byteSize =
            offset' + (gap' ++ l'.text ++ between ++ t).byteSize := by
          simp only [Placed.text, Text.byteSize_append] at hsize ⊢
          omega
        rw [callsFrom_opening hp, callsFrom_opening hp']
        simp only [hend, hstart]
      · have hpass : ∀ q ∈ ls.head?, q.lexeme ≠ .opening := by
          intro q hq hmark
          obtain ⟨between, l⟩ := q
          cases (hmark : l = .opening)
          obtain ⟨rest, rfl⟩ := List.head?_eq_some_iff.mp hq
          exact hopening ⟨between, rest, rfl⟩
        rw [callsFrom_pass offset fun q hq h => absurd h (hpass q hq),
          callsFrom_pass offset' fun q hq h => absurd h (hpass q hq), hsize]

/-- The sweep passes blanks over. -/
theorem callsFrom_blanks (offset : Nat) {g : Text} (hg : Blank g) (t : Text) :
    callsFrom offset (lex (g ++ t)) = callsFrom (offset + g.byteSize) (lex t) := by
  cases hlex : lex t with
  | nil =>
    obtain ⟨hblank, ht⟩ := render_lex t
    rw [hlex, render_nil, List.nil_append] at ht
    rw [ht] at hblank
    rw [lex_blanks fun c hc => (List.mem_append.mp hc).elim (hg c) (hblank c)]
    simp [callsFrom]
  | cons p ls =>
    rw [lex_gap hg hlex]
    refine callsFrom_head ?_ ?_
    · simp [Placed.text, Text.byteSize_append, Nat.add_assoc]
    · simp [Text.byteSize_append, Nat.add_assoc]

/-- Letters join a word that they touch. -/
theorem lex_touching {front : Text} (hb : ∀ c ∈ front, isBare c = true) {t letters : Text}
    {ls : List Placed} (h : lex t = ⟨[], .word letters⟩ :: ls) :
    lex (front ++ t) = ⟨[], .word (front ++ letters)⟩ :: ls := by
  induction front with
  | nil => exact h
  | cons c front ih =>
    obtain ⟨hc, hfront⟩ := List.forall_mem_cons.mp hb
    rw [List.cons_append, lex_bare hc, ih hfront]
    rfl

theorem callee?_letters {front : Text} (hlast : ∀ c ∈ front.getLast?, isNameChar c = false)
    (letters : Text) : (Lexeme.word (front ++ letters)).callee? =
      (Lexeme.word letters).callee?.map fun (before, name) => (front ++ before, name) := by
  obtain ⟨hend, hbefore⟩ := nameEnd_append hlast letters
  rw [Lexeme.callee?, Lexeme.callee?, hend, hbefore]
  split <;> rfl

/-- The sweep passes over letters that no name can end with. -/
theorem callsFrom_letters (offset : Nat) {front : Text} (hb : ∀ c ∈ front, isBare c = true)
    (hlast : ∀ c ∈ front.getLast?, isNameChar c = false) (t : Text) :
    callsFrom offset (lex (front ++ t)) = callsFrom (offset + front.byteSize) (lex t) := by
  by_cases hnil : front = []
  · subst hnil
    rfl
  by_cases htouch : ∃ letters ls, lex t = ⟨[], .word letters⟩ :: ls
  · obtain ⟨letters, ls, hlex⟩ := htouch
    rw [lex_touching hb hlex, hlex]
    refine callsFrom_head ?_ ?_
    · simp [Placed.text, Lexeme.text, Text.byteSize_append, Nat.add_assoc]
    · rw [callee?_letters hlast, Option.map_map]
      refine Option.map_congr fun _ _ => ?_
      simp [Text.byteSize, Text.byteSize_append, Nat.add_assoc]
  · have happart : ∀ p ∈ (lex t).head?, p.lexeme.isWord = true → p.gap ≠ [] := by
      intro p hp hw hgap
      obtain ⟨ls, hlex⟩ := List.head?_eq_some_iff.mp hp
      obtain ⟨gap, l⟩ := p
      cases (hgap : gap = [])
      cases l with
      | word letters => exact htouch ⟨letters, ls, hlex⟩
      | _ => cases hw
    have hcallee := callee?_letters hlast []
    rw [List.append_nil] at hcallee
    rw [lex_word hnil hb happart, callsFrom_skip hcallee]
    rfl

/-- The sweep passes over a mark, or a letter that is in no name. -/
theorem callsFrom_other (offset : Nat) {c : Char} (hname : isNameChar c = false)
    (hopening : c ≠ '(') (hquote : isQuote c = false) (t : Text) :
    callsFrom offset (lex (c :: t)) = callsFrom (offset + c.utf8Size) (lex t) := by
  have hone (c : Char) : Text.byteSize [c] = c.utf8Size := rfl
  rcases char_cases c with hc | rfl | rfl | rfl | hc | hc
  · exact callsFrom_blanks offset (g := [c]) (List.forall_mem_singleton.mpr hc) t
  · exact absurd rfl hopening
  · exact callsFrom_skip (by rfl) offset (lex t)
  · exact callsFrom_skip (by rfl) offset (lex t)
  · cases hquote.symm.trans hc
  · refine @callsFrom_letters offset [c] (List.forall_mem_singleton.mpr hc) ?_ t
    exact fun d hd => by
      cases hd
      exact hname

/-- How the lexemes of a text that begins with no blank begin. -/
theorem exists_lex_cons {c : Char} (hc : isBlank c = false) (t : Text) : ∃ l ls,
    lex (c :: t) = ⟨[], l⟩ :: ls ∧ (l = .opening → c = '(') ∧ (l.isWord = true → isBare c = true) := by
  rcases char_cases c with hblank | rfl | rfl | rfl | hquote | hbare
  · cases hc.symm.trans hblank
  · exact ⟨_, _, lex_opening t, fun _ => rfl, nofun⟩
  · exact ⟨_, _, lex_closing t, nofun, nofun⟩
  · exact ⟨_, _, lex_comma t, nofun, nofun⟩
  · by_cases hmem : c ∈ t
    · obtain ⟨content, rest, rfl, hcontent⟩ := List.eq_append_cons_of_mem hmem
      exact ⟨_, _, lex_quoted hquote hcontent rest, nofun, nofun⟩
    · exact ⟨_, _, lex_unclosed hquote hmem, nofun, nofun⟩
  · rw [lex_bare hbare]
    unfold addLetter
    split
    · exact ⟨_, _, rfl, nofun, fun _ => hbare⟩
    · exact ⟨_, _, rfl, nofun, fun _ => hbare⟩

/-! ### What the scan keeps -/

/-- What the scan keeps of what it has read after `base`: the literal it is inside of, or
the name it has come past and the blanks after it. -/
inductive Tracked (base : Text) : Option Char → Text → Option (Nat × Nat) → Prop
  | nothing : Tracked base none [] none
  | name {letters gap : Text} (hne : letters ≠ []) (hname : ∀ c ∈ letters, isNameChar c = true)
    (hgap : Blank gap) :
    Tracked base none (letters ++ gap) (some (base.byteSize, (base ++ letters).byteSize))
  | literal {q : Char} {content : Text} (hq : isQuote q = true) (hcontent : q ∉ content) :
    Tracked base (some q) (q :: content) none

/-- The scan of `rest` finds what the sweep finds in it and in what is kept before it. -/
def FindsAt (base kept : Text) (quote : Option Char) (tracked : Option (Nat × Nat)) (skip : Nat)
    (rest : Text) : Prop :=
  scanCalls? (base ++ (kept ++ rest)) (base ++ kept).byteSize quote tracked skip rest =
    some (callsFrom base.byteSize (lex (kept ++ rest)))

/-- It does so whatever is kept. -/
def Finds (rest : Text) : Prop :=
  ∀ base quote kept tracked skip, Tracked base quote kept tracked →
    skip ≤ (base ++ kept).byteSize → FindsAt base kept quote tracked skip rest

theorem finds_nil : Finds [] := by
  intro base quote kept tracked skip h _
  have hlast (p : Placed) : callsFrom base.byteSize [p] = [] := by simp [callsFrom]
  have hnone : callsFrom base.byteSize (lex kept) = [] := by
    cases h with
    | nothing => simp [lex, lexFrom, callsFrom]
    | name hne hname hgap =>
      have hblanks := lex_blanks hgap
      rw [lex_word hne (fun c hc => isBare_of_isNameChar (hname c hc)) (by simp [hblanks]), hblanks,
        hlast]
    | literal hq hcontent => rw [lex_unclosed hq hcontent, hlast]
  rw [FindsAt, List.append_nil, hnone]
  rfl

/-- The same with the offset and the whole text in any form. -/
theorem Finds.scan {s base kept rest : Text} {i skip : Nat} {quote : Option Char}
    {tracked : Option (Nat × Nat)} (h : Finds rest) (ht : Tracked base quote kept tracked)
    (hs : s = base ++ (kept ++ rest)) (hi : i = (base ++ kept).byteSize) (hskip : skip ≤ i) :
    scanCalls? s i quote tracked skip rest =
      some (callsFrom base.byteSize (lex (kept ++ rest))) := by
  subst hs hi
  exact h base quote kept tracked skip ht hskip

/-- What is kept can be given up before a character that neither joins it nor calls it. -/
theorem Tracked.drop {base kept : Text} {tracked : Option (Nat × Nat)}
    (h : Tracked base none kept tracked) {c : Char} (hblank : isBlank c = false) (hopening : c ≠ '(')
    (hname : isNameChar c = true → ∀ d ∈ kept.getLast?, isBlank d = true) (t : Text) :
    callsFrom base.byteSize (lex (kept ++ c :: t)) =
      callsFrom (base ++ kept).byteSize (lex (c :: t)) := by
  cases h with
  | nothing => rw [List.append_nil, List.nil_append]
  | @name letters gap hne hletters hgap =>
    have hbare : ∀ d ∈ letters, isBare d = true := fun d hd => isBare_of_isNameChar (hletters d hd)
    by_cases htouch : gap = [] ∧ isBare c = true
    · -- The character is a letter of the same word, but in no name.
      obtain ⟨rfl, hc⟩ := htouch
      have hother : isNameChar c = false := by
        refine Bool.eq_false_iff.mpr fun hc' => ?_
        have hlast := List.getLast?_eq_getLast_of_ne_nil hne
        rw [List.append_nil] at hname
        cases (isBlank_of_isBare (hbare _ (List.getLast_mem hne))).symm.trans (hname hc' _ hlast)
      have hquote := isQuote_of_isBare hc
      have hall : ∀ d ∈ letters ++ [c], isBare d = true := fun d hd =>
        (List.mem_append.mp hd).elim (hbare d) fun hd => List.mem_singleton.mp hd ▸ hc
      have hjoin : letters ++ [] ++ c :: t = letters ++ [c] ++ t := by simp
      have hsize : base.byteSize + (letters ++ [c]).byteSize =
          (base ++ (letters ++ [])).byteSize + c.utf8Size := by
        rw [List.append_nil, Text.byteSize_append, Text.byteSize_append, Nat.add_assoc]
        rfl
      rw [hjoin, callsFrom_letters _ hall (by simpa using hother), callsFrom_other _ hother hopening
        hquote, hsize]
    · obtain ⟨l, ls, hlex, hmark, hword⟩ := exists_lex_cons hblank t
      have hrest := lex_gap hgap hlex
      rw [List.append_nil] at hrest
      have hapart : ∀ p ∈ (lex (gap ++ c :: t)).head?, p.lexeme.isWord = true → p.gap ≠ [] := by
        intro p hp hw hnil
        rw [hrest] at hp
        cases hp
        exact htouch ⟨hnil, hword hw⟩
      have hpass : ∀ q ∈ (lex (gap ++ c :: t)).head?, q.lexeme = .opening →
          (Lexeme.word letters).callee? = none := by
        intro q hq hq'
        rw [hrest] at hq
        cases hq
        exact absurd (hmark hq') hopening
      rw [List.append_assoc, lex_word hne hbare hapart, callsFrom_pass _ hpass,
        callsFrom_blanks _ hgap, Text.byteSize_append, Text.byteSize_append, Nat.add_assoc]
      rfl

theorem utf8Size_of_isNameChar {c : Char} (h : isNameChar c = true) : c.utf8Size = 1 := by
  have hall : ∀ n ∈ nameCodes, (Char.ofNat n).utf8Size = 1 := by decide +kernel
  rw [← Char.ofNat_toNat c]
  exact hall _ (toNat_mem_nameCodes h)

theorem byteSize_concat (a : Text) (c : Char) :
    Text.byteSize (a ++ [c]) = a.byteSize + c.utf8Size := Text.byteSize_append a [c]

/-! ### One step of the scan -/

namespace Finds
variable {rest : Text} (h : Finds rest) {base kept : Text} {tracked : Option (Nat × Nat)}
  {skip : Nat} {c : Char}
include h

section Outside
variable (ht : Tracked base none kept tracked) (hskip : skip ≤ (base ++ kept).byteSize)
include ht hskip

/-- A mark, or a letter that is in no name. -/
theorem other (hname : isNameChar c = false) (hopening : c ≠ '(') (hblank : isBlank c = false)
    (hquote : isQuote c = false) : FindsAt base kept none tracked skip (c :: rest) := by
  rw [FindsAt, scanCalls?, if_neg (Nat.not_lt.mpr hskip), if_pos ⟨rfl, hquote⟩,
    if_neg (by simp [hname]), if_neg hopening, if_neg (by simp [hblank]),
    ht.drop hblank hopening (by simp [hname]), callsFrom_other _ hname hopening hquote,
    ← byteSize_concat]
  exact h.scan .nothing (by simp) (by simp) (by rw [byteSize_concat]; omega)

/-- A blank. -/
theorem blank (hblank : isBlank c = true) : FindsAt base kept none tracked skip (c :: rest) := by
  have hname : isNameChar c = false := isNameChar_of_not_isBare (isBare_of_isBlank hblank)
  have hopening : c ≠ '(' := by
    rintro rfl
    cases hblank
  have hone : Blank [c] := List.forall_mem_singleton.mpr hblank
  rw [FindsAt, scanCalls?, if_neg (Nat.not_lt.mpr hskip), if_pos ⟨rfl, isQuote_of_isBlank hblank⟩,
    if_neg (by simp [hname]), if_neg hopening, if_pos hblank, ← byteSize_concat]
  have hskip' : skip ≤ Text.byteSize (base ++ kept ++ [c]) := by
    rw [byteSize_concat]
    omega
  cases ht with
  | nothing =>
    have hkeep : Tracked (base ++ [c]) none [] none := .nothing
    refine (h.scan hkeep (by simp) (by simp) hskip').trans (congrArg some ?_)
    rw [byteSize_concat]
    exact (callsFrom_blanks base.byteSize hone rest).symm
  | @name letters gap hne hletters hgap =>
    have hgap' : Blank (gap ++ [c]) := fun d hd => (List.mem_append.mp hd).elim (hgap d) (hone d)
    refine (h.scan (.name hne hletters hgap') (by simp) (by simp) hskip').trans ?_
    simp

/-- A character of a name. -/
theorem nameChar (hname : isNameChar c = true) :
    FindsAt base kept none tracked skip (c :: rest) := by
  have hbare := isBare_of_isNameChar hname
  have hopening : c ≠ '(' := by
    rintro rfl
    cases hname
  have hsize (a : Text) : Text.byteSize (a ++ [c]) = a.byteSize + 1 := by
    rw [byteSize_concat, utf8Size_of_isNameChar hname]
  rw [FindsAt, scanCalls?, if_neg (Nat.not_lt.mpr hskip), if_pos ⟨rfl, isQuote_of_isBare hbare⟩,
    if_pos hname, utf8Size_of_isNameChar hname, ← hsize]
  have hskip' : skip ≤ Text.byteSize (base ++ kept ++ [c]) := by
    rw [hsize]
    omega
  cases ht with
  | nothing =>
    have hkeep : Tracked base none ([c] ++ []) (some (base.byteSize, (base ++ [c]).byteSize)) :=
      .name (List.cons_ne_nil c []) (List.forall_mem_singleton.mpr hname) blank_nil
    rw [List.append_nil base] at hskip' ⊢
    exact h.scan hkeep (by simp) (by simp) hskip'
  | @name letters gap hne hletters hgap =>
    by_cases hnil : gap = []
    · subst hnil
      have hletters' : ∀ d ∈ letters ++ [c], isNameChar d = true := fun d hd =>
        (List.mem_append.mp hd).elim (hletters d) fun hd => List.mem_singleton.mp hd ▸ hname
      have hkeep : Tracked base none (letters ++ [c] ++ [])
          (some (base.byteSize, (base ++ (letters ++ [c])).byteSize)) :=
        .name (List.append_ne_nil_of_left_ne_nil hne [c]) hletters' blank_nil
      rw [List.append_nil letters] at hskip' ⊢
      rw [nameStart, if_pos rfl]
      rw [List.append_assoc] at hskip' ⊢
      refine (h.scan hkeep (by simp) (by simp) hskip').trans ?_
      simp
    · have hlater : (base ++ letters).byteSize ≠ (base ++ (letters ++ gap)).byteSize := by
        have hpos := mt Text.byteSize_eq_zero.mp hnil
        simp only [Text.byteSize_append]
        omega
      have hkept : Tracked base none (letters ++ gap) _ := .name hne hletters hgap
      have hblank (d : Char) (hd : d ∈ (letters ++ gap).getLast?) : isBlank d = true := by
        rw [List.getLast?_append_of_ne_nil _ hnil] at hd
        exact hgap d (List.mem_of_getLast? hd)
      have hdrop := hkept.drop (isBlank_of_isBare hbare) hopening (fun _ => hblank) rest
      have hkeep : Tracked (base ++ (letters ++ gap)) none ([c] ++ [])
          (some ((base ++ (letters ++ gap)).byteSize, (base ++ (letters ++ gap) ++ [c]).byteSize)) :=
        .name (List.cons_ne_nil c []) (List.forall_mem_singleton.mpr hname) blank_nil
      rw [nameStart, if_neg hlater, hdrop]
      exact h.scan hkeep (by simp) (by simp) hskip'

/-- A quote opens a literal. -/
theorem quote (hquote : isQuote c = true) : FindsAt base kept none tracked skip (c :: rest) := by
  have hname : isNameChar c = false := isNameChar_of_not_isBare (by simp [isBare, hquote])
  have hopening : c ≠ '(' := by
    rintro rfl
    cases hquote
  have hkeep : Tracked (base ++ kept) (some c) [c] none := .literal hquote List.not_mem_nil
  rw [FindsAt, scanCalls?, if_neg (Nat.not_lt.mpr hskip), if_neg (by simp [hquote]), quoteAfter,
    if_pos hquote, ht.drop (isBlank_of_isQuote hquote) hopening (by simp [hname]),
    ← byteSize_concat]
  exact h.scan hkeep (by simp) rfl (by rw [byteSize_concat]; omega)

end Outside

/-- A character of a literal, or its end. -/
theorem literal {q : Char} (ht : Tracked base (some q) kept tracked)
    (hskip : skip ≤ (base ++ kept).byteSize) :
    FindsAt base kept (some q) tracked skip (c :: rest) := by
  rw [FindsAt, scanCalls?, if_neg (Nat.not_lt.mpr hskip), if_neg (by simp), quoteAfter,
    ← byteSize_concat]
  have hskip' : skip ≤ Text.byteSize (base ++ kept ++ [c]) := by
    rw [byteSize_concat]
    omega
  cases ht with
  | @literal _ content hq hcontent =>
    by_cases hend : c = q
    · subst hend
      have hkeep : Tracked (base ++ (c :: content) ++ [c]) none [] none := .nothing
      have hlex : lex (c :: content ++ c :: rest) = ⟨[], .literal c content⟩ :: lex rest :=
        lex_quoted hq hcontent rest
      rw [if_pos rfl, hlex, callsFrom_skip rfl]
      refine (h.scan hkeep (by simp) (by simp) hskip').trans ?_
      rw [List.append_assoc, Text.byteSize_append]
      rfl
    · have hcontent' : q ∉ content ++ [c] := by simp [hcontent, Ne.symm hend]
      rw [if_neg hend]
      have hkeep : Tracked base (some q) (q :: (content ++ [c])) none := .literal hq hcontent'
      refine (h.scan hkeep (by simp) (by simp) hskip').trans ?_
      simp

end Finds

/-- The scan passes over what comes before `skip`. -/
theorem scanCalls?_skip (s : Text) {i skip : Nat} {quote : Option Char}
    {tracked : Option (Nat × Nat)} {a : Text} (h : i + a.byteSize ≤ skip) (t : Text) :
    scanCalls? s i quote tracked skip (a ++ t) =
      scanCalls? s (i + a.byteSize) quote tracked skip t := by
  induction a generalizing i with
  | nil => rfl
  | cons c a ih =>
    have hpos := c.utf8Size_pos
    rw [Text.byteSize] at h ⊢
    rw [List.cons_append, scanCalls?, if_pos (by omega), ih (by omega), Nat.add_assoc]

/-- The scan goes on after what it skips. -/
theorem Finds.resume {after : Text} (h : Finds after) (base inside : Text) :
    scanCalls? (base ++ (inside ++ after)) base.byteSize none none (base ++ inside).byteSize
      (inside ++ after) = some (callsFrom (base ++ inside).byteSize (lex after)) := by
  have hkeep : Tracked (base ++ inside) none [] none := .nothing
  have hreach := Text.byteSize_append base inside
  rw [scanCalls?_skip _ (Nat.le_of_eq hreach.symm) after, ← hreach]
  exact h.scan hkeep (by simp) (by simp) (Nat.le_refl _)

/-- A name, blanks and an opening parenthesis. -/
theorem lex_callHead {letters gap : Text} (hne : letters ≠ [])
    (hletters : ∀ c ∈ letters, isNameChar c = true) (hgap : Blank gap) (rest : Text) :
    lex (letters ++ (gap ++ '(' :: rest)) =
      ⟨[], .word letters⟩ :: ⟨gap, .opening⟩ :: lex rest := by
  have hopening := lex_gap hgap (lex_opening rest)
  rw [List.append_nil] at hopening
  rw [lex_word hne (fun c hc => isBare_of_isNameChar (hletters c hc))
    (by rw [hopening]; rintro _ ⟨⟩ ⟨⟩), hopening]

/-- What is found at an opening parenthesis after a name and blanks. -/
theorem callAt?_append (base : Text) {letters gap : Text} (hgap : Blank gap) (rest : Text) :
    callAt? (base ++ (letters ++ gap ++ '(' :: rest)) (base ++ (letters ++ gap)).byteSize
      (some (base.byteSize, (base ++ letters).byteSize)) =
    some (if isName letters ∧ Op.ofWord? letters = none then
      some (⟨letters, (closeGroup? 0 (lex rest)).map Group.text, base.byteSize⟩,
        (closeGroup? 0 (lex rest)).map fun g =>
          (base ++ (letters ++ gap)).byteSize + 1 + g.text.byteSize)
      else none) := by
  have hname : Text.slice? (base ++ (letters ++ gap ++ '(' :: rest)) base.byteSize
      (base ++ letters).byteSize = some letters := by
    rw [List.append_assoc]
    exact Text.slice?_append base letters (gap ++ '(' :: rest)
  have hbetween : Text.slice? (base ++ (letters ++ gap ++ '(' :: rest)) (base ++ letters).byteSize
      (base ++ (letters ++ gap)).byteSize = some gap := by
    rw [List.append_assoc, ← List.append_assoc, ← List.append_assoc base letters gap]
    exact Text.slice?_append (base ++ letters) gap ('(' :: rest)
  have htrim : gap.trim = [] := by
    calc gap.trim
      _ = (gap ++ [] ++ []).trim := by rw [List.append_nil, List.append_nil]
      _ = [] := Text.trim_append [] hgap blank_nil
  have hmatch := matchingParen?_append (base ++ (letters ++ gap)) rest
  rw [List.append_assoc] at hmatch
  simp only [callAt?, hname, hbetween, htrim, hmatch, true_and, Option.bind_eq_bind,
    Option.bind_some]
  by_cases hcall : isName letters = true ∧ Op.ofWord? letters = none
  · rw [if_pos hcall, if_pos hcall]
    cases hclose : closeGroup? 0 (lex rest) with
    | none => rfl
    | some g =>
      obtain ⟨after, rfl, -⟩ := exists_rest_of_closeGroup? hclose
      have hargs : Text.slice? (base ++ (letters ++ gap ++ '(' :: (g.text ++ ')' :: after)))
          ((base ++ (letters ++ gap)).byteSize + 1)
          ((base ++ (letters ++ gap)).byteSize + 1 + g.text.byteSize) = some g.text := by
        have hslice := Text.slice?_append (base ++ (letters ++ gap) ++ ['(']) g.text (')' :: after)
        rw [Text.byteSize_append _ g.text, byteSize_concat, List.append_assoc base,
          List.append_assoc base, List.append_assoc (letters ++ gap)] at hslice
        exact hslice
      simp only [Option.map_some, hargs, Option.bind_some]
      rfl
  · rw [if_neg hcall, if_neg hcall]
    rfl

theorem utf8Size_paren : '('.utf8Size = 1 ∧ ')'.utf8Size = 1 := ⟨rfl, rfl⟩

/-- An opening parenthesis. -/
theorem Finds.opening {base kept rest : Text} {tracked : Option (Nat × Nat)} {skip : Nat}
    (h : ∀ t, t <:+ rest → Finds t) (ht : Tracked base none kept tracked)
    (hskip : skip ≤ (base ++ kept).byteSize) :
    FindsAt base kept none tracked skip ('(' :: rest) := by
  have hrest := h rest List.suffix_rfl
  rw [FindsAt, scanCalls?, if_neg (Nat.not_lt.mpr hskip), if_pos ⟨rfl, rfl⟩, if_neg (by decide),
    if_pos rfl, ← byteSize_concat]
  have hskip' : skip ≤ Text.byteSize (base ++ kept ++ ['(']) := by
    rw [byteSize_concat]
    omega
  cases ht with
  | nothing =>
    have hkeep : Tracked (base ++ ['(']) none [] none := .nothing
    rw [List.nil_append, lex_opening, callsFrom_skip rfl]
    refine (hrest.scan hkeep (by simp) (by simp) hskip').trans ?_
    rw [Text.byteSize_append]
    rfl
  | @name letters gap hne hletters hgap =>
    have hlex : lex (letters ++ gap ++ '(' :: rest) =
        ⟨[], .word letters⟩ :: ⟨gap, .opening⟩ :: lex rest := by
      rw [List.append_assoc, lex_callHead hne hletters hgap]
    have hcallee : (Lexeme.word letters).callee? =
        if isName letters ∧ Op.ofWord? letters = none then some ([], letters) else none := by
      rw [Lexeme.callee?, nameEnd_eq_self hletters, beforeNameEnd_eq_nil hletters]
    rw [callAt?_append base hgap rest, Option.bind_some, hlex]
    by_cases hcall : isName letters = true ∧ Op.ofWord? letters = none
    · rw [if_pos hcall] at hcallee ⊢
      rw [callsFrom_opening hcallee]
      cases hclose : closeGroup? 0 (lex rest) with
      | none => rfl
      | some g =>
        obtain ⟨after, rfl, hafter⟩ := exists_rest_of_closeGroup? hclose
        have hlater := h after ((List.suffix_cons ')' after).trans (List.suffix_append ..))
        have hclose' : (base ++ (letters ++ gap)).byteSize + 1 + g.text.byteSize + 1 =
            (base ++ (letters ++ gap) ++ ['('] ++ (g.text ++ [')'])).byteSize := by
          rw [Text.byteSize_append _ (g.text ++ [')']), byteSize_concat, byteSize_concat,
            utf8Size_paren.1, utf8Size_paren.2]
          omega
        have hnext := hlater.resume (base ++ (letters ++ gap) ++ ['(']) (g.text ++ [')'])
        rw [← hclose', hafter, List.append_assoc g.text, List.append_assoc (base ++ _),
          List.append_assoc base] at hnext
        simp only [Option.map_some, List.singleton_append] at hnext ⊢
        rw [hnext, hclose']
        simp [Lexeme.text, Text.byteSize, Text.byteSize_append]
    · rw [if_neg hcall] at hcallee ⊢
      have hkeep : Tracked (base ++ (letters ++ gap) ++ ['(']) none [] none := .nothing
      rw [callsFrom_skip hcallee, callsFrom_skip rfl]
      refine (hrest.scan hkeep (by simp) (by simp) hskip').trans ?_
      simp [Placed.text, Lexeme.text, Text.byteSize, Text.byteSize_append, Nat.add_assoc]

/-- **Every text is scanned as it is swept.** The induction is on what is left, since a call is
skipped as a whole. -/
theorem finds (rest : Text) : Finds rest := by
  induction hlength : rest.length using Nat.strong_induction_on generalizing rest with
  | h n ih =>
    subst hlength
    cases rest with
    | nil => exact finds_nil
    | cons c rest =>
      intro base quote kept tracked skip ht hskip
      have h : Finds rest := ih rest.length (Nat.lt_succ_self _) rest rfl
      cases quote with
      | some q => exact h.literal ht hskip
      | none =>
        cases hquote : isQuote c with
        | true => exact h.quote ht hskip hquote
        | false =>
          cases hname : isNameChar c with
          | true => exact h.nameChar ht hskip hname
          | false =>
            cases hblank : isBlank c with
            | true => exact h.blank ht hskip hblank
            | false =>
              by_cases hopening : c = '('
              · subst hopening
                refine Finds.opening (fun t ht => ih t.length ?_ t rfl) ht hskip
                exact Nat.lt_succ_of_le ht.length_le
              · exact h.other ht hskip hname hopening hblank hquote

/-- The calls of a text, found by offsets; nothing if a slice on the way is not valid. -/
def callsByOffset? (s : Text) : Option (List Call) := scanCalls? s 0 none none 0 s

/-- **The scan finds the calls of the text**, with slices that are all valid. -/
theorem callsByOffset?_eq (s : Text) : callsByOffset? s = some (callsIn s) :=
  finds s [] none [] none 0 .nothing (Nat.le_refl 0)

end AccessRules
