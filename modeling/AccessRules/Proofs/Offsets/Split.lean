import AccessRules.Proofs.Grammar.Reading
import AccessRules.Proofs.Lexeme.Outside
import AccessRules.Proofs.Text.Slice

/-! Where a piece is cut, found by offsets in bytes.

The scan counts groups and, outside them, looks for a keyword wherever a word begins: at
the beginning of the piece and after the byte of a space. It notes the first keyword of each
operator and stops at the first `OR`. In a piece in tidy layout a keyword has a space on
each side, so that the offsets noted are those of the lexemes it could be cut at
(`findSplit?_render`). -/
namespace AccessRules

/-! ### One keyword -/

/-- The operator whose keyword begins with the letter. -/
def Op.ofLetter? : Char → Option Op
  | 'O' => some .or
  | 'A' => some .and
  | 'N' => some .not
  | _ => none

/-- Whether nothing or a space stands before offset `i`; nothing if the byte before it is out
of range. -/
def edgeAt? (s : Text) (i : Nat) : Option Bool :=
  if i = 0 then some true else s.bytes[i - 1]?.map (· == 0x20)

/-- Whether the keyword of `op` stands at offset `i`, with a space or nothing after it; nothing
if an offset is not valid. -/
def keywordAt? (s : Text) (i : Nat) (op : Op) : Option Bool := do
  let (_, here) ← s.splitAt? i
  if op.keyword.toList.isPrefixOf here then
    let (_, after) ← s.splitAt? (i + Text.byteSize op.keyword.toList)
    return after.head?.all (· == ' ')
  else return false

/-- A text that is empty or ends in a space. -/
def Edge (a : Text) : Prop := ∀ c ∈ a.getLast?, c = ' '

/-- The text begins with the keyword of `op`, with a space or nothing after it. -/
def Op.Begins (op : Op) (t : Text) : Prop :=
  ∃ after, t = op.keyword.toList ++ after ∧ ∀ c ∈ after.head?, c = ' '

theorem edgeAt?_append (a t : Text) :
    ∃ edge, edgeAt? (a ++ t) a.byteSize = some edge ∧ (edge = true ↔ Edge a) := by
  rcases List.eq_nil_or_concat a with rfl | ⟨a, c, rfl⟩
  · exact ⟨true, rfl, iff_of_true rfl nofun⟩
  · obtain ⟨byte, hbyte, hspace⟩ := Text.exists_byte_before a c t
    rw [List.concat_eq_append, edgeAt?, if_neg (mt Text.byteSize_eq_zero.mp (by simp)),
      List.append_assoc, List.singleton_append, hbyte]
    refine ⟨byte == 0x20, rfl, ?_⟩
    rw [beq_iff_eq, hspace, Edge, List.getLast?_concat]
    simp

theorem keywordAt?_append (a t : Text) (op : Op) :
    ∃ found, keywordAt? (a ++ t) a.byteSize op = some found ∧ (found = true ↔ op.Begins t) := by
  simp only [keywordAt?, Text.splitAt?_append, Option.bind_eq_bind, Option.bind_some]
  by_cases hbegin : op.keyword.toList.isPrefixOf t
  · obtain ⟨after, rfl⟩ := List.isPrefixOf_iff_prefix.mp hbegin
    have hafter : (a ++ (op.keyword.toList ++ after)).splitAt?
        (a.byteSize + Text.byteSize op.keyword.toList) = some (a ++ op.keyword.toList, after) := by
      rw [← List.append_assoc, ← Text.byteSize_append, Text.splitAt?_append]
    rw [if_pos hbegin, hafter]
    refine ⟨_, rfl, ?_⟩
    cases after <;> simp [Op.Begins]
  · rw [if_neg hbegin]
    refine ⟨false, rfl, iff_of_false Bool.false_ne_true ?_⟩
    rintro ⟨after, rfl, -⟩
    exact hbegin (List.isPrefixOf_iff_prefix.mpr (List.prefix_append ..))

/-! ### Where a keyword begins -/

theorem ne_of_isBare {c d : Char} (hc : isBare c = true) (hd : isBare d = false) : c ≠ d := by
  rintro rfl
  cases hc.symm.trans hd

theorem not_edge_of_isBare (a : Text) {c : Char} (hc : isBare c = true) : ¬Edge (a ++ [c]) := by
  rw [Edge, List.getLast?_concat]
  exact fun h => ne_of_isBare hc rfl (h c rfl)

theorem Op.isBare_keyword (op : Op) : ∀ c ∈ op.keyword.toList, isBare c = true :=
  op.legible_lexeme.2

theorem Op.Begins.head?_keyword {op : Op} {c : Char} {t : Text} (h : op.Begins (c :: t)) :
    op.keyword.toList.head? = some c := by
  obtain ⟨after, ht, -⟩ := h
  rw [← List.head?_append_of_ne_nil op.keyword.toList op.legible_lexeme.1, ← ht]
  rfl

theorem Op.Begins.isBare {op : Op} {c : Char} {t : Text} (h : op.Begins (c :: t)) :
    isBare c = true :=
  op.isBare_keyword c (List.mem_of_head? h.head?_keyword)

/-- A keyword begins where a word does only if it is the word. -/
theorem not_begins_word {op : Op} {letters t : Text} (hb : ∀ c ∈ letters, isBare c = true)
    (ht : ∀ c ∈ t.head?, isBare c = false) (hop : Op.ofWord? letters ≠ some op) :
    ¬op.Begins (letters ++ t) := by
  rintro ⟨after, heq, hafter⟩
  have hother : letters ≠ op.keyword.toList := fun h => hop (h ▸ op.op?_lexeme)
  rcases List.append_eq_append_iff.mp heq with ⟨more, hmore, rfl⟩ | ⟨more, rfl, rfl⟩
  · cases more with
    | nil => exact hother (by rw [hmore, List.append_nil])
    | cons d more =>
      exact ne_of_isBare (op.isBare_keyword d (by simp [hmore])) (ht d rfl) rfl
  · cases more with
    | nil => exact hother (List.append_nil _)
    | cons d more => exact ne_of_isBare (hb d (by simp)) rfl (hafter d rfl)

/-! ### The scan -/

/-- The offsets noted, when the letter `c` at offset `i` is read with `depth` groups open and
`found` are noted before; nothing if an offset is not valid. -/
def noteAt? (s : Text) (i depth : Nat) (c : Char) (found : Op → Option Nat) :
    Option (Op → Option Nat) := do
  let edge ← if depth = 0 then edgeAt? s i else some false
  match edge, Op.ofLetter? c with
  | true, some op =>
    let keyword ← if found op = none then keywordAt? s i op else some false
    return if keyword then Function.update found op (some i) else found
  | _, _ => return found

/-- The offsets of the first keyword of each operator outside every group, up to the first
`OR`, in what is left of the text `s` at offset `i`, when `quote` is open, `depth` groups are
open and `found` are noted before; nothing if an offset is not valid. -/
def scanSplit? (s : Text) (i : Nat) (quote : Option Char) (depth : Nat) (found : Op → Option Nat) :
    Text → Option (Op → Option Nat)
  | [] => some found
  | c :: rest =>
    if quote = none ∧ isQuote c = false then
      if c = '(' then scanSplit? s (i + c.utf8Size) none (depth + 1) found rest
      else if c = ')' then scanSplit? s (i + c.utf8Size) none (depth - 1) found rest
      else (noteAt? s i depth c found).bind fun found =>
        if found .or = none then scanSplit? s (i + c.utf8Size) none depth found rest
        else some found
    else scanSplit? s (i + c.utf8Size) (quoteAfter quote c) depth found rest

/-- The loosest operator that there is an offset for. -/
def loosest? (found : Op → Option Nat) : Option (Op × Nat) :=
  [Op.or, .and, .not].findSome? fun op => (found op).map (op, ·)

/-- The operator a text is cut at, with the offset of its keyword; nothing if an offset on
the way is not valid. -/
def findSplit? (s : Text) : Option (Option (Op × Nat)) :=
  (scanSplit? s 0 none 0 (fun _ => none) s).map loosest?

theorem loosest?_eq_none {found : Op → Option Nat} (h : ∀ op, found op = none) :
    loosest? found = none :=
  List.findSome?_eq_none_iff.mpr fun op _ => by rw [h op, Option.map_none]

theorem loosest?_eq_some {found : Op → Option Nat} {op : Op} {i : Nat} (h : found op = some i)
    (hlooser : ∀ op' ∉ op.scope, found op' = none) : loosest? found = some (op, i) := by
  cases op with
  | or => simp only [loosest?, List.findSome?_cons, h, Option.map_some]
  | and =>
    simp only [loosest?, List.findSome?_cons, hlooser .or (by decide), h, Option.map_none,
      Option.map_some]
  | not =>
    simp only [loosest?, List.findSome?_cons, hlooser .or (by decide), hlooser .and (by decide), h,
      Option.map_none, Option.map_some]

/-- The scan of what comes after `a`. -/
def scanSplitAfter? (a : Text) (quote : Option Char) (depth : Nat) (found : Op → Option Nat)
    (t : Text) : Option (Op → Option Nat) :=
  scanSplit? (a ++ t) a.byteSize quote depth found t

/-- The offsets noted once a keyword of `op` is read at offset `i`: only the first one counts. -/
def addNote (found : Op → Option Nat) (op : Op) (i : Nat) : Op → Option Nat :=
  Function.update found op ((found op).or (some i))

theorem addNote_self (found : Op → Option Nat) (op : Op) (i : Nat) :
    addNote found op i op = (found op).or (some i) := Function.update_self ..

theorem addNote_of_ne {op op' : Op} (h : op' ≠ op) (found : Op → Option Nat) (i : Nat) :
    addNote found op i op' = found op' := Function.update_of_ne h ..

theorem ofLetter?_keyword (op : Op) : op.keyword.toList.head?.bind Op.ofLetter? = some op := by
  cases op <;> rfl

/-- Nothing is noted where no keyword begins. -/
theorem noteAt?_pass {a t : Text} {c : Char} {depth : Nat}
    (h : depth = 0 → Edge a → ∀ op : Op, ¬op.Begins (c :: t)) (found : Op → Option Nat) :
    noteAt? (a ++ c :: t) a.byteSize depth c found = some found := by
  obtain ⟨edge, hedge, hedge'⟩ := edgeAt?_append a (c :: t)
  by_cases hdepth : depth = 0
  · rw [noteAt?, if_pos hdepth, hedge]
    cases edge with
    | false => rfl
    | true =>
      cases hop : Op.ofLetter? c with
      | none => rfl
      | some op =>
        obtain ⟨keyword, hkeyword, hkeyword'⟩ := keywordAt?_append a (c :: t) op
        obtain rfl : keyword = false :=
          Bool.eq_false_iff.mpr fun hk => h hdepth (hedge'.mp rfl) op (hkeyword'.mp hk)
        simp [hkeyword]
  · rw [noteAt?, if_neg hdepth]
    rfl

/-- A keyword is noted if none of its operator is noted before. -/
theorem noteAt?_keyword {a t : Text} {c : Char} {op : Op} (ha : Edge a)
    (hop : op.Begins (c :: t)) (found : Op → Option Nat) :
    noteAt? (a ++ c :: t) a.byteSize 0 c found = some (addNote found op a.byteSize) := by
  obtain ⟨edge, hedge, hedge'⟩ := edgeAt?_append a (c :: t)
  obtain ⟨keyword, hkeyword, hkeyword'⟩ := keywordAt?_append a (c :: t) op
  obtain rfl := hedge'.mpr ha
  obtain rfl := hkeyword'.mpr hop
  have hletter := ofLetter?_keyword op
  rw [hop.head?_keyword, Option.bind_some] at hletter
  rw [noteAt?, if_pos rfl, hedge, hletter, addNote]
  cases hfound : found op with
  | none => simp [hfound, hkeyword]
  | some i =>
    have hsame : Function.update found op (some i) = found := by
      rw [← hfound, Function.update_eq_self]
    simp [hfound, hsame]

section Scan
variable (a : Text) {depth : Nat} {found : Op → Option Nat} {c : Char} (t : Text)

theorem scanSplitAfter?_append (u : Text) (quote : Option Char) :
    scanSplitAfter? (a ++ u) quote depth found t =
      scanSplit? (a ++ (u ++ t)) (a.byteSize + u.byteSize) quote depth found t := by
  rw [scanSplitAfter?, List.append_assoc, Text.byteSize_append]

theorem scanSplitAfter?_quote {quote : Option Char} (h : ¬(quote = none ∧ isQuote c = false)) :
    scanSplitAfter? a quote depth found (c :: t) =
      scanSplitAfter? (a ++ [c]) (quoteAfter quote c) depth found t := by
  rw [scanSplitAfter?_append, scanSplitAfter?, scanSplit?, if_neg h]
  rfl

theorem scanSplitAfter?_opening : scanSplitAfter? a none depth found ('(' :: t) =
    scanSplitAfter? (a ++ ['(']) none (depth + 1) found t := by
  rw [scanSplitAfter?_append]
  rfl

theorem scanSplitAfter?_closing : scanSplitAfter? a none depth found (')' :: t) =
    scanSplitAfter? (a ++ [')']) none (depth - 1) found t := by
  rw [scanSplitAfter?_append]
  rfl

/-- Any other character outside literals is passed over, where no keyword begins. -/
theorem scanSplitAfter?_pass (hquote : isQuote c = false) (ho : c ≠ '(') (hc : c ≠ ')')
    (h : depth = 0 → Edge a → ∀ op : Op, ¬op.Begins (c :: t)) (hor : found .or = none) :
    scanSplitAfter? a none depth found (c :: t) =
      scanSplitAfter? (a ++ [c]) none depth found t := by
  rw [scanSplitAfter?_append, scanSplitAfter?, scanSplit?, if_pos ⟨rfl, hquote⟩, if_neg ho,
    if_neg hc, noteAt?_pass h, Option.bind_some, if_pos hor]
  rfl

/-- The first letter of a keyword is noted, and an `OR` ends the scan. -/
theorem scanSplitAfter?_note {op : Op} (ha : Edge a) (hop : op.Begins (c :: t)) :
    scanSplitAfter? a none 0 found (c :: t) =
      if addNote found op a.byteSize .or = none then
        scanSplitAfter? (a ++ [c]) none 0 (addNote found op a.byteSize) t
      else some (addNote found op a.byteSize) := by
  have hbare := hop.isBare
  rw [scanSplitAfter?_append, scanSplitAfter?, scanSplit?, if_pos ⟨rfl, isQuote_of_isBare hbare⟩,
    if_neg (ne_of_isBare hbare rfl), if_neg (ne_of_isBare hbare rfl), noteAt?_keyword ha hop,
    Option.bind_some]
  rfl

/-! ### One lexeme -/

theorem scanSplitAfter?_blanks {g : Text} (hg : Blank g) (hor : found .or = none) :
    scanSplitAfter? a none depth found (g ++ t) = scanSplitAfter? (a ++ g) none depth found t := by
  induction g generalizing a with
  | nil => rw [List.append_nil, List.nil_append]
  | cons c g ih =>
    obtain ⟨hc, hg⟩ := List.forall_mem_cons.mp hg
    have hnone (op : Op) : ¬op.Begins (c :: (g ++ t)) := fun hop => by
      cases hc.symm.trans (isBlank_of_isBare hop.isBare)
    have hopening : c ≠ '(' ∧ c ≠ ')' := by
      constructor <;> rintro rfl <;> cases hc
    rw [List.cons_append, scanSplitAfter?_pass a _ (isQuote_of_isBlank hc) hopening.1 hopening.2
      (fun _ _ => hnone) hor, ih (a ++ [c]) hg, List.append_assoc]
    rfl

/-- Letters that no word begins with. -/
theorem scanSplitAfter?_letters {letters : Text} (hb : ∀ c ∈ letters, isBare c = true)
    (hinside : depth = 0 → ¬Edge a) (hor : found .or = none) :
    scanSplitAfter? a none depth found (letters ++ t) =
      scanSplitAfter? (a ++ letters) none depth found t := by
  induction letters generalizing a with
  | nil => rw [List.append_nil, List.nil_append]
  | cons c letters ih =>
    obtain ⟨hc, hletters⟩ := List.forall_mem_cons.mp hb
    rw [List.cons_append, scanSplitAfter?_pass a _ (isQuote_of_isBare hc) (ne_of_isBare hc rfl)
      (ne_of_isBare hc rfl) (fun hdepth ha => absurd ha (hinside hdepth)) hor,
      ih (a ++ [c]) hletters (fun _ => not_edge_of_isBare a hc), List.append_assoc]
    rfl

/-- A word that is passed over. -/
theorem scanSplitAfter?_word {letters : Text} (hb : ∀ c ∈ letters, isBare c = true)
    (hop : depth = 0 → Op.ofWord? letters = none) (ht : ∀ c ∈ t.head?, isBare c = false)
    (hor : found .or = none) :
    scanSplitAfter? a none depth found (letters ++ t) =
      scanSplitAfter? (a ++ letters) none depth found t := by
  cases letters with
  | nil => rw [List.append_nil, List.nil_append]
  | cons c letters =>
    obtain ⟨hc, hletters⟩ := List.forall_mem_cons.mp hb
    have hnone (hdepth : depth = 0) (op : Op) : ¬op.Begins (c :: (letters ++ t)) :=
      not_begins_word hb ht (by rw [hop hdepth]; nofun)
    rw [List.cons_append, scanSplitAfter?_pass a _ (isQuote_of_isBare hc) (ne_of_isBare hc rfl)
      (ne_of_isBare hc rfl) (fun hdepth _ => hnone hdepth) hor,
      scanSplitAfter?_letters (a ++ [c]) t hletters (fun _ => not_edge_of_isBare a hc) hor,
      List.append_assoc]
    rfl

theorem scanSplitAfter?_content {q : Char} {content : Text} (h : q ∉ content) :
    scanSplitAfter? a (some q) depth found (content ++ t) =
      scanSplitAfter? (a ++ content) (some q) depth found t := by
  induction content generalizing a with
  | nil => rw [List.append_nil, List.nil_append]
  | cons c content ih =>
    obtain ⟨hc, hcontent⟩ := not_or.mp fun hm => h (List.mem_cons.mpr hm)
    rw [List.cons_append, scanSplitAfter?_quote a _ (by simp), quoteAfter, if_neg (Ne.symm hc),
      ih (a ++ [c]) hcontent, List.append_assoc]
    rfl

/-- A lexeme that is no keyword, or is in a group. -/
theorem scanSplitAfter?_lexeme {l : Lexeme} (hl : l.Legible) (hopen : l.isOpenLiteral = false)
    (hop : depth = 0 → l.op? = none) (ht : l.isWord = true → ∀ c ∈ t.head?, isBare c = false)
    (hor : found .or = none) :
    scanSplitAfter? a none depth found (l.text ++ t) =
      scanSplitAfter? (a ++ l.text) none ((l.nest? depth).getD 0) found t := by
  cases l with
  | word letters => exact scanSplitAfter?_word a t hl.2 hop (ht rfl) hor
  | opening => exact scanSplitAfter?_opening a t
  | closing =>
    have hdepth : (Lexeme.closing.nest? depth).getD 0 = depth - 1 := by cases depth <;> rfl
    rw [hdepth]
    exact scanSplitAfter?_closing a t
  | comma =>
    refine scanSplitAfter?_pass a t rfl (by decide) (by decide) (fun _ _ op hop => ?_) hor
    cases hop.isBare
  | literal q content =>
    have htext : (Lexeme.literal q content).text ++ t = q :: (content ++ q :: t) := by
      simp [Lexeme.text]
    rw [htext, scanSplitAfter?_quote a _ (by simp [hl.1]), quoteAfter, if_pos hl.1,
      scanSplitAfter?_content _ _ hl.2, scanSplitAfter?_quote _ _ (by simp), quoteAfter, if_pos rfl]
    simp [Lexeme.text, Lexeme.nest?]
  | openLiteral q content => cases hopen

/-- A keyword outside groups is noted. -/
theorem scanSplitAfter?_keyword {op : Op} (hop : op ≠ .or) (ha : Edge a)
    (ht : ∀ c ∈ t.head?, c = ' ') (hor : found .or = none) :
    scanSplitAfter? a none 0 found (op.keyword.toList ++ t) =
      scanSplitAfter? (a ++ op.keyword.toList) none 0 (addNote found op a.byteSize) t := by
  have hbegins : op.Begins (op.keyword.toList ++ t) := ⟨t, rfl, ht⟩
  have hor' : addNote found op a.byteSize .or = none := by
    rw [addNote_of_ne (Ne.symm hop), hor]
  obtain ⟨hne, hb⟩ := op.legible_lexeme
  obtain ⟨c, letters, hkeyword⟩ := List.exists_cons_of_ne_nil hne
  rw [hkeyword, List.cons_append] at hbegins
  rw [hkeyword] at hb ⊢
  obtain ⟨hc, hletters⟩ := List.forall_mem_cons.mp hb
  rw [List.cons_append, scanSplitAfter?_note a _ ha hbegins, if_pos hor',
    scanSplitAfter?_letters (a ++ [c]) t hletters (fun _ => not_edge_of_isBare a hc) hor',
    List.append_assoc]
  rfl

/-- The first `OR` outside groups ends the scan. -/
theorem scanSplitAfter?_or (ha : Edge a) (ht : ∀ c ∈ t.head?, c = ' ') :
    scanSplitAfter? a none 0 found (Op.or.keyword.toList ++ t) =
      some (addNote found .or a.byteSize) := by
  have hbegins : Op.or.Begins (Op.or.keyword.toList ++ t) := ⟨t, rfl, ht⟩
  obtain ⟨c, letters, hkeyword⟩ := List.exists_cons_of_ne_nil Op.or.legible_lexeme.1
  rw [hkeyword, List.cons_append] at hbegins ⊢
  rw [scanSplitAfter?_note a _ ha hbegins, addNote_self, if_neg (by simp)]

end Scan

/-! ### All lexemes -/

/-- The offset of the first keyword of `op` outside every group, among lexemes that begin
`offset` bytes into the text, when `depth` groups are open before them. -/
def keywordOffset? (op : Op) : Nat → Nat → List Placed → Option Nat
  | _, _, [] => none
  | depth, offset, p :: rest =>
    if depth = 0 ∧ p.lexeme.op? = some op then some (offset + p.gap.byteSize)
    else keywordOffset? op ((p.lexeme.nest? depth).getD 0) (offset + p.text.byteSize) rest

/-- The keyword found is the one that lexemes are cut at. -/
theorem keywordOffset?_eq (op : Op) (depth offset : Nat) (ls : List Placed) :
    (cutAt? op depth ls = none ∧ keywordOffset? op depth offset ls = none) ∨
    ∃ l p r, ls = l ++ p :: r ∧ cutAt? op depth ls = some (l, r) ∧
      keywordOffset? op depth offset ls = some (offset + (render l ++ p.gap).byteSize) := by
  induction ls generalizing depth offset with
  | nil => exact .inl ⟨rfl, rfl⟩
  | cons p ls ih =>
    rw [cutAt?, keywordOffset?]
    split
    · exact .inr ⟨[], p, ls, rfl, rfl, rfl⟩
    · rcases ih ((p.lexeme.nest? depth).getD 0) (offset + p.text.byteSize) with
        ⟨hcut, hnone⟩ | ⟨l, q, r, rfl, hcut, hoffset⟩
      · exact .inl ⟨Option.map_eq_none_iff.mpr hcut, hnone⟩
      · refine .inr ⟨p :: l, q, r, rfl, by rw [hcut]; rfl, ?_⟩
        rw [hoffset, Nat.add_assoc, ← Text.byteSize_append, render_cons, List.append_assoc _ (render l)]
        rfl

theorem head?_render {p : Placed} (hl : p.lexeme.Legible) (ls : List Placed) :
    (render (p :: ls)).head? = (p.gap ++ p.lexeme.text).head? := by
  have hne : p.gap ++ p.lexeme.text ≠ [] :=
    List.append_ne_nil_of_right_ne_nil _ (Lexeme.text_ne_nil hl)
  rw [render_cons, List.head?_append_of_ne_nil _ hne]

/-- A letter comes right after a lexeme only within a word. -/
theorem isBare_head?_render {p : Placed} {ls : List Placed} (h : Legible (p :: ls))
    (hword : p.lexeme.isWord = true) : ∀ c ∈ (render ls).head?, isBare c = false := by
  cases ls with
  | nil => nofun
  | cons q ls =>
    obtain ⟨hgap, hl, -⟩ := h.tail.head
    rw [head?_render hl]
    intro c hc
    by_cases hnil : q.gap = []
    · rw [hnil, List.nil_append] at hc
      have hq : q.lexeme.isWord = false :=
        Bool.eq_false_iff.mpr fun hq => (h.head.2.2 q rfl).words hword hq hnil
      obtain ⟨gap, l⟩ := q
      cases l with
      | word letters => cases hq
      | literal q content | openLiteral q content =>
        cases hc
        exact Bool.eq_false_iff.mpr fun hb => by cases hl.1.symm.trans (isQuote_of_isBare hb)
      | _ =>
        cases hc
        rfl
    · rw [List.head?_append_of_ne_nil _ hnil] at hc
      exact isBare_of_isBlank (hgap c (List.mem_of_head? hc))

/-- `noted` are the first keywords outside groups among lexemes that begin at offset `i`, after
`found`: all of them if none is an `OR`, and else the first `OR` at least. -/
structure Notes (depth i : Nat) (ls : List Placed) (found noted : Op → Option Nat) : Prop where
  or : noted .or = keywordOffset? .or depth i ls
  others : noted .or = none → ∀ op, noted op = (found op).or (keywordOffset? op depth i ls)

namespace Notes
variable {depth i : Nat} {p : Placed} {ls : List Placed} {found noted : Op → Option Nat}

theorem nil (hor : found .or = none) : Notes depth i [] found found :=
  ⟨hor, fun _ _ => (Option.or_none ..).symm⟩

theorem skip {op : Op} (h : ¬(depth = 0 ∧ p.lexeme.op? = some op)) :
    keywordOffset? op depth i (p :: ls) =
      keywordOffset? op ((p.lexeme.nest? depth).getD 0) (i + p.text.byteSize) ls := by
  rw [keywordOffset?, if_neg h]

/-- A lexeme that is no keyword, or is in a group. -/
theorem pass (h : Notes ((p.lexeme.nest? depth).getD 0) (i + p.text.byteSize) ls found noted)
    (hplain : depth = 0 → p.lexeme.op? = none) : Notes depth i (p :: ls) found noted := by
  have hskip (op : Op) : ¬(depth = 0 ∧ p.lexeme.op? = some op) := fun hop => by
    cases (hplain hop.1).symm.trans hop.2
  exact ⟨by rw [h.or, skip (hskip .or)], fun hnone op => by rw [h.others hnone, skip (hskip op)]⟩

/-- The keyword that ends the scan. -/
theorem stop (hor : found .or = none) (hop : p.lexeme.op? = some .or) :
    Notes 0 i (p :: ls) found (addNote found .or (i + p.gap.byteSize)) := by
  have hthis : addNote found .or (i + p.gap.byteSize) .or = some (i + p.gap.byteSize) := by
    rw [addNote_self, hor, Option.none_or]
  refine ⟨?_, fun hnone => ?_⟩
  · rw [hthis, keywordOffset?, if_pos ⟨rfl, hop⟩]
  · rw [hthis] at hnone
    cases hnone

/-- A keyword that does not end the scan. -/
theorem keyword {op : Op} (hor : op ≠ .or) (hop : p.lexeme.op? = some op)
    (h : Notes 0 (i + p.text.byteSize) ls (addNote found op (i + p.gap.byteSize)) noted) :
    Notes 0 i (p :: ls) found noted := by
  have hnest : (p.lexeme.nest? 0).getD 0 = 0 := by
    rw [(Lexeme.flat_of_op? (hop ▸ Option.some_ne_none op)).nest?, Option.getD_some]
  have hskip {op' : Op} (hother : op' ≠ op) : keywordOffset? op' 0 i (p :: ls) =
      keywordOffset? op' 0 (i + p.text.byteSize) ls := by
    rw [skip fun h => hother (Option.some.inj (h.2.symm.trans hop)), hnest]
  refine ⟨by rw [h.or, hskip (Ne.symm hor)], fun hnone op' => ?_⟩
  rw [h.others hnone op']
  by_cases hsame : op' = op
  · subst hsame
    rw [addNote_self, keywordOffset?, if_pos ⟨rfl, hop⟩, Option.or_assoc, Option.some_or]
  · rw [addNote_of_ne hsame, hskip hsame]

/-- Of the keywords noted the loosest one is the loosest there is. -/
theorem loosest?_eq (h : Notes depth i ls (fun _ => none) noted) :
    loosest? noted = loosest? fun op => keywordOffset? op depth i ls := by
  cases hor : noted .or with
  | none =>
    refine congrArg (List.findSome? · _) (funext fun op => ?_)
    rw [h.others hor op, Option.none_or]
  | some offset =>
    have hor' := h.or
    rw [hor] at hor'
    simp only [loosest?, List.findSome?_cons, hor, ← hor', Option.map_some]

end Notes

/-- **The scan notes the keywords that lexemes in tidy layout can be cut at**, and every offset
on the way is valid. -/
theorem scanSplitAfter?_render {a : Text} {depth : Nat} {found : Op → Option Nat}
    {ls : List Placed} (hlegible : Legible ls) (htidied : Tidied ls)
    (hclosed : endsInLiteral ls = false)
    (hedge : ∀ p ∈ ls.head?, p.lexeme.op? ≠ none → Edge (a ++ p.gap)) (hor : found .or = none) :
    ∃ noted, scanSplitAfter? a none depth found (render ls) = some noted ∧
      Notes depth a.byteSize ls found noted := by
  induction ls generalizing a depth found with
  | nil => exact ⟨found, rfl, .nil hor⟩
  | cons p ls ih =>
    obtain ⟨hgap, hl, -⟩ := hlegible.head
    rw [endsInLiteral_cons, Bool.or_eq_false_iff] at hclosed
    have hspaced := (List.isChain_cons.mp htidied.spaced).1
    have htidied' : Tidied ls := Tidied.right (a := [p]) htidied
    have hedge' : ∀ q ∈ ls.head?, q.lexeme.op? ≠ none → Edge (a ++ p.text ++ q.gap) := by
      intro q hq hop
      rw [hspaced q hq (.inr hop), Edge, List.getLast?_concat]
      simp
    have hrest (depth : Nat) (found : Op → Option Nat) (hor : found .or = none) :=
      @ih (a ++ p.text) depth found hlegible.tail htidied' hclosed.2 hedge' hor
    simp only [Text.byteSize_append] at hrest
    rw [render_cons, List.append_assoc, scanSplitAfter?_blanks a _ hgap hor]
    by_cases hkeyword : depth = 0 ∧ p.lexeme.op? ≠ none
    · obtain ⟨rfl, hne⟩ := hkeyword
      obtain ⟨op, hop⟩ := Option.ne_none_iff_exists'.mp hne
      have htext : p.lexeme.text = op.keyword.toList := by
        rw [htidied.spelled p (List.mem_cons_self ..) op hop]
        rfl
      have hbegin := hedge p rfl hne
      have ht : ∀ c ∈ (render ls).head?, c = ' ' := by
        intro c hc
        cases ls with
        | nil => cases hc
        | cons q ls =>
          rw [render_cons, hspaced q rfl (.inl hne)] at hc
          cases hc
          rfl
      by_cases hop' : op = .or
      · subst hop'
        rw [htext, scanSplitAfter?_or _ _ hbegin ht, Text.byteSize_append]
        exact ⟨_, rfl, .stop hor hop⟩
      · rw [htext, scanSplitAfter?_keyword _ _ hop' hbegin ht hor, Text.byteSize_append,
          List.append_assoc, ← htext]
        obtain ⟨noted, hscan, hnotes⟩ := hrest 0 (addNote found op (a.byteSize + p.gap.byteSize))
          (by rw [addNote_of_ne (Ne.symm hop'), hor])
        exact ⟨noted, hscan, hnotes.keyword hop' hop⟩
    · have hplain (hdepth : depth = 0) : p.lexeme.op? = none :=
        Decidable.not_not.mp fun h => hkeyword ⟨hdepth, h⟩
      rw [scanSplitAfter?_lexeme _ _ hl hclosed.1 hplain (isBare_head?_render hlegible) hor,
        List.append_assoc]
      obtain ⟨noted, hscan, hnotes⟩ := hrest _ found hor
      exact ⟨noted, hscan, hnotes.pass hplain⟩

/-! ### A piece -/

/-- The lexemes of a piece without the gap before the first one. -/
def flush : List Placed → List Placed
  | [] => []
  | p :: rest => ⟨[], p.lexeme⟩ :: rest

theorem render_flush (piece : List Placed) : render (flush piece) = phrase piece := by
  cases piece <;> rfl

theorem lexemes_flush (piece : List Placed) :
    (flush piece).map (·.lexeme) = piece.map (·.lexeme) := by
  cases piece <;> rfl

theorem cutAt?_flush (op : Op) (depth : Nat) (piece : List Placed) :
    cutAt? op depth (flush piece) = (cutAt? op depth piece).map fun (l, r) => (flush l, r) := by
  cases piece with
  | nil => rfl
  | cons p rest =>
    rw [flush, cutAt?, cutAt?]
    split
    · rfl
    · rw [Option.map_map]
      rfl

namespace WellCut

theorem flush {piece : List Placed} (h : WellCut piece) : WellCut (flush piece) := by
  cases piece with
  | nil => exact h
  | cons p rest =>
    obtain ⟨hfirst, hrest⟩ := List.forall_mem_cons.mp h.tidied.spelled
    obtain ⟨hspaced, hchain⟩ := List.isChain_cons.mp h.tidied.spaced
    exact ⟨h.legible.regap blank_nil, ⟨List.forall_mem_cons.mpr ⟨hfirst, hrest⟩,
      List.isChain_cons.mpr ⟨hspaced, hchain⟩⟩, h.balanced.congr (lexemes_flush (p :: rest))⟩

end WellCut

/-- The offset of the keyword that a piece is cut at. -/
theorem keywordOffset?_flush {piece : List Placed} (h : WellCut piece) (op : Op) :
    (cutAt? op 0 piece = none ∧ keywordOffset? op 0 0 (flush piece) = none) ∨
    ∃ l r gap, cutAt? op 0 piece = some (l, r) ∧ WellCut l ∧ WellCut r ∧ Blank gap ∧
      phrase piece = phrase l ++ gap ++ (op.keyword.toList ++ render r) ∧
      keywordOffset? op 0 0 (flush piece) = some (phrase l ++ gap).byteSize := by
  rcases keywordOffset?_eq op 0 0 (flush piece) with ⟨hcut, hnone⟩ | ⟨l, p, r, hls, hcut, hoffset⟩
  · rw [cutAt?_flush, Option.map_eq_none_iff] at hcut
    exact .inl ⟨hcut, hnone⟩
  · obtain ⟨gap, hls', -⟩ := h.flush.cut hcut
    obtain ⟨-, hp⟩ := List.append_inj (hls.symm.trans hls') rfl
    obtain rfl : p = ⟨gap, op.lexeme⟩ := (List.cons.inj hp).1
    rw [cutAt?_flush, Option.map_eq_some_iff] at hcut
    obtain ⟨⟨l, r⟩, hcut, hlr⟩ := hcut
    cases hlr
    obtain ⟨-, -, -, -, -, hl, hr⟩ := h.cut hcut
    refine .inr ⟨l, r, gap, hcut, hl, hr, h.flush.legible.gaps ⟨gap, op.lexeme⟩ (by simp [hls]), ?_, ?_⟩
    · rw [← render_flush, ← render_flush, hls, render_append, render_cons]
      simp [Op.lexeme, Lexeme.text]
    · rw [hoffset, render_flush, Nat.zero_add]

/-- **The scan finds where a piece is cut**, with offsets that are all valid. -/
theorem findSplit?_phrase {piece : List Placed} (h : WellCut piece) :
    (cut? piece = none ∧ findSplit? (phrase piece) = some none) ∨
    ∃ op l r gap, cut? piece = some (op, l, r) ∧ WellCut l ∧ WellCut r ∧ Blank gap ∧
      phrase piece = phrase l ++ gap ++ (op.keyword.toList ++ render r) ∧
      findSplit? (phrase piece) = some (some (op, (phrase l ++ gap).byteSize)) := by
  have hedge : ∀ p ∈ (flush piece).head?, p.lexeme.op? ≠ none → Edge ([] ++ p.gap) := by
    intro p hp _
    cases piece with
    | nil => cases hp
    | cons q rest =>
      cases hp
      nofun
  obtain ⟨noted, hscan, hnotes⟩ := @scanSplitAfter?_render [] 0 (fun _ => none) (flush piece)
    h.flush.legible h.flush.tidied h.flush.balanced.literals hedge rfl
  rw [render_flush] at hscan
  have hfind : findSplit? (phrase piece) =
      some (loosest? fun op => keywordOffset? op 0 0 (flush piece)) :=
    (congrArg (Option.map loosest?) hscan).trans (congrArg some hnotes.loosest?_eq)
  have hnone {op : Op} (hcut : cutAt? op 0 piece = none) :
      keywordOffset? op 0 0 (flush piece) = none := by
    rcases keywordOffset?_flush h op with ⟨-, hnone⟩ | ⟨l, r, gap, hcut', -⟩
    · exact hnone
    · cases hcut.symm.trans hcut'
  rw [hfind]
  cases hcut : cut? piece with
  | none => exact .inl ⟨rfl, congrArg some (loosest?_eq_none fun op => hnone (cut?_eq_none.mp hcut op))⟩
  | some cut =>
    obtain ⟨op, l, r⟩ := cut
    obtain ⟨hc, hlooser⟩ := cut?_eq_some.mp hcut
    rcases keywordOffset?_flush h op with ⟨hc', -⟩ | ⟨l', r', gap, hc', hl, hr, hgap, htext, hoffset⟩
    · cases hc.symm.trans hc'
    · cases hc.symm.trans hc'
      exact .inr ⟨op, l, r, gap, rfl, hl, hr, hgap, htext,
        congrArg some (loosest?_eq_some hoffset fun op' hop' => hnone (hlooser op' hop'))⟩

end AccessRules
