import AccessRules.Proofs.Grammar.Coverage
import AccessRules.Proofs.Lexeme.Outside

/-! Which calls are found in a text, well formed or not.

A `Site` is a place in a text where a name stands before an opening parenthesis, in terms of
characters alone; a `Spot` is the same place among lexemes. One step of the sweep either
passes a lexeme over or finds a call and goes on after its close (`callsFrom_step`), so
that the spots it finds are all there are but those in the arguments of another
(`exists_sweeps`). `callsIn_sites` carries this over to the text. -/
namespace AccessRules

/-! ### Places of calls -/

/-- A place in a text where a name stands before an opening parenthesis, with blanks between
them. -/
@[ext]
structure Site where
  before : Text
  name : Text
  gap : Text
  after : Text

namespace Site

/-- The text up to the parenthesis, which is the last character. -/
def head (o : Site) : Text := o.before ++ o.name ++ o.gap ++ ['(']

/-- The text that this is a place of. -/
def text (o : Site) : Text := o.head ++ o.after

/-- The name stands outside literals and is a longest run of name characters; it is a name and
no keyword, and nothing but blanks stands between it and the parenthesis. -/
structure Proper (o : Site) : Prop where
  outside : openQuote o.before = none
  longest : ∀ c ∈ o.before.getLast?, isNameChar c = false
  name : isName o.name = true
  plain : ∀ op : Op, o.name.map Char.toUpper ≠ op.keyword.toList
  blank : Blank o.gap

/-- The call of this place: its name, where that begins in UTF-8 bytes, and what stands between
its parentheses, if the one that closes them is there. -/
structure Reports (o : Site) (c : Call) : Prop where
  name : c.name = o.name
  start : c.start = o.before.byteSize
  args : ∀ a, c.args = some a ↔ ∃ rest, o.after = a ++ ')' :: rest ∧ Encloses a

/-- The other place comes after the close of the parenthesis of this one. -/
def Follows (o other : Site) : Prop :=
  ∃ a rest, o.after = a ++ ')' :: rest ∧ Encloses a ∧ o.head ++ a ++ [')'] <+: other.before

/-- The place is in the arguments at the outer one, which are the rest of the text if they are
never closed. -/
def Within (o outer : Site) : Prop :=
  outer.head <+: o.before ∧
    ∀ a rest, outer.after = a ++ ')' :: rest → Encloses a → o.head <+: outer.head ++ a

end Site

/-! ### Names at the end of a word -/

/-- The code points of the characters that names are made of. -/
def nameCodes : List Nat :=
  0x5F :: (List.range' 0x30 10 ++ List.range' 0x41 26 ++ List.range' 0x61 26)

theorem toNat_mem_nameCodes {c : Char} (h : isNameChar c = true) : c.toNat ∈ nameCodes := by
  have hval : c.val.toNat = c.toNat := rfl
  change (((decide (0x41 ≤ c.val ∧ c.val ≤ 0x5A) ||
    decide (0x61 ≤ c.val) && decide (c.val ≤ 0x7A)) ||
    decide (0x30 ≤ c.val) && decide (c.val ≤ 0x39)) || c == '_') = true at h
  simp only [Bool.or_eq_true, Bool.and_eq_true, decide_eq_true_eq, beq_iff_eq,
    UInt32.le_iff_toNat_le] at h
  rcases h with h | rfl
  · simp at h
    simp [nameCodes]
    omega
  · exact List.mem_cons_self ..

/-- Names are made of characters that words are made of. -/
theorem isBare_of_isNameChar {c : Char} (h : isNameChar c = true) : isBare c = true := by
  have hall : ∀ n ∈ nameCodes, isBare (Char.ofNat n) = true := by decide +kernel
  rw [← Char.ofNat_toNat c]
  exact hall _ (toNat_mem_nameCodes h)

theorem isNameChar_of_not_isBare {c : Char} (h : isBare c = false) : isNameChar c = false := by
  cases hname : isNameChar c with
  | false => rfl
  | true => cases h.symm.trans (isBare_of_isNameChar hname)

theorem beforeNameEnd_append (letters : Text) :
    beforeNameEnd letters ++ nameEnd letters = letters := by
  rw [beforeNameEnd, nameEnd, ← List.reverse_append, List.takeWhile_append_dropWhile,
    List.reverse_reverse]

/-- What a word ends in does not depend on what stands before a character that is in no name. -/
theorem nameEnd_append {front : Text} (h : ∀ c ∈ front.getLast?, isNameChar c = false)
    (letters : Text) : nameEnd (front ++ letters) = nameEnd letters ∧
      beforeNameEnd (front ++ letters) = front ++ beforeNameEnd letters := by
  have htake : front.reverse.takeWhile isNameChar = [] := by
    cases hreverse : front.reverse with
    | nil => rfl
    | cons c cs =>
      refine List.takeWhile_cons_of_neg ?_
      rw [h c (by rw [← List.head?_reverse, hreverse]; rfl)]
      exact Bool.false_ne_true
  have hend : nameEnd (front ++ letters) = nameEnd letters := by
    rw [nameEnd, List.reverse_append, List.takeWhile_append, htake, List.append_nil]
    split
    · rename_i hall
      rw [nameEnd, (List.takeWhile_prefix isNameChar).eq_of_length hall]
    · rfl
  refine ⟨hend, List.append_cancel_right (?_ : _ ++ nameEnd letters = _ ++ nameEnd letters)⟩
  rw [← hend, beforeNameEnd_append, List.append_assoc, hend, beforeNameEnd_append]

/-- Nothing stands before a name in a word that is made of it. -/
theorem beforeNameEnd_eq_nil {letters : Text} (h : ∀ c ∈ letters, isNameChar c = true) :
    beforeNameEnd letters = [] := by
  have hall := beforeNameEnd_append letters
  rwa [nameEnd_eq_self h, List.append_left_eq_self] at hall

/-- A call can be of a lexeme that is a word and ends in a name which is no keyword. -/
theorem callee?_eq_some {l : Lexeme} {front name : Text} : l.callee? = some (front, name) ↔
    l = .word (front ++ name) ∧ isName name = true ∧ Op.ofWord? name = none ∧
      ∀ c ∈ front.getLast?, isNameChar c = false := by
  constructor
  · intro h
    cases l with
    | word letters =>
      rw [Lexeme.callee?] at h
      split at h
      · rename_i hname
        cases h
        refine ⟨congrArg Lexeme.word (beforeNameEnd_append letters).symm, hname.1, hname.2,
          fun c hc => ?_⟩
        rw [beforeNameEnd, List.getLast?_reverse] at hc
        have hstop := List.head?_dropWhile_not isNameChar letters.reverse
        rw [hc] at hstop
        simpa using hstop
      · cases h
    | _ => cases h
  · rintro ⟨rfl, hname, hop, hfront⟩
    have hchars := isNameChar_of_isName hname
    obtain ⟨hends, hbegins⟩ := nameEnd_append hfront name
    rw [Lexeme.callee?, hends, hbegins, nameEnd_eq_self hchars, beforeNameEnd_eq_nil hchars,
      List.append_nil, if_pos ⟨hname, hop⟩]

/-! ### Places among lexemes -/

/-- A place of a call among lexemes: a word that ends in the name, before an opening
parenthesis. -/
@[ext]
structure Spot where
  before : List Placed
  gap : Text
  front : Text
  name : Text
  between : Text
  after : List Placed

namespace Spot

/-- The word that ends in the name. -/
def word (o : Spot) : Placed := ⟨o.gap, .word (o.front ++ o.name)⟩

/-- The parenthesis after it. -/
def opening (o : Spot) : Placed := ⟨o.between, .opening⟩

/-- The lexemes up to the parenthesis, which is the last. -/
def head (o : Spot) : List Placed := o.before ++ [o.word, o.opening]

/-- The lexemes up to the close of the group after the name. -/
def upTo (o : Spot) (g : Group) : List Placed := o.head ++ (g.inside ++ [⟨g.lastGap, .closing⟩])

/-- A place among these lexemes, with a name that a call can have. -/
structure Proper (ls : List Placed) (o : Spot) : Prop where
  placed : o.before ++ o.word :: o.opening :: o.after = ls
  callee : o.word.lexeme.callee? = some (o.front, o.name)

/-- The call of this place. -/
def call (o : Spot) : Call :=
  ⟨o.name, (closeGroup? 0 o.after).map Group.text,
    (render o.before ++ o.gap ++ o.front).byteSize⟩

/-- The other place comes after the close of the parenthesis of this one. -/
def Follows (o other : Spot) : Prop :=
  ∃ g, closeGroup? 0 o.after = some g ∧ o.upTo g <+: other.before

/-- The place is in the arguments at the outer one. -/
def Within (o outer : Spot) : Prop :=
  outer.head <+: o.before ∧
    ∀ g, closeGroup? 0 outer.after = some g → o.head <+: outer.head ++ g.inside

theorem head_append (o : Spot) (ls : List Placed) :
    o.head ++ ls = o.before ++ o.word :: o.opening :: ls := by
  rw [head, List.append_assoc]
  rfl

theorem upTo_append {o : Spot} {g : Group} (h : closeGroup? 0 o.after = some g) :
    o.upTo g ++ g.after = o.head ++ o.after := by
  rw [(closeGroup?_eq_some.mp h).1, upTo, List.append_assoc, List.append_assoc]
  rfl

theorem before_prefix_head (o : Spot) : o.before <+: o.head := List.prefix_append ..

/-- A place begins with the next lexeme, or after it. -/
theorem Proper.next {done ls : List Placed} {p : Placed} {o : Spot}
    (h : o.Proper (done ++ p :: ls)) (hdone : done <+: o.before) :
    (o.before = done ∧ o.word = p ∧ o.opening :: o.after = ls) ∨ done ++ [p] <+: o.before := by
  obtain ⟨rest, hrest⟩ := hdone
  have hplaced := h.placed
  rw [← hrest, List.append_assoc] at hplaced
  replace hplaced := List.append_cancel_left hplaced
  cases rest with
  | nil =>
    obtain ⟨hword, hopening⟩ := List.cons.inj hplaced
    exact .inl ⟨by rw [← hrest, List.append_nil], hword, hopening⟩
  | cons q rest =>
    obtain ⟨rfl, -⟩ := List.cons.inj hplaced
    exact .inr ⟨rest, by rw [← hrest, List.append_assoc]; rfl⟩

/-- A place that begins with the next lexeme is that lexeme and the one after it. -/
theorem Proper.first {ls : List Placed} {p : Placed} {o : Spot}
    (h : o.Proper (o.before ++ p :: ls)) : o.word = p ∧ o.opening :: o.after = ls :=
  List.cons.inj (List.append_cancel_left h.placed)

/-- Another place that does not begin before this one begins after its parenthesis. -/
theorem Proper.eq_or_after {ls : List Placed} {o other : Spot} (h : o.Proper ls)
    (hother : other.Proper ls) (hbefore : o.before <+: other.before) :
    other = o ∨ o.head <+: other.before := by
  have hnext : other.Proper (o.before ++ o.word :: o.opening :: o.after) := h.placed.symm ▸ hother
  rcases hnext.next hbefore with ⟨hsame, hword, hrest⟩ | hafter
  · left
    obtain ⟨hgap, -⟩ := Placed.mk.inj hword
    obtain ⟨hopening, hafter⟩ := List.cons.inj hrest
    have hcallee := h.callee
    rw [← hword, hother.callee] at hcallee
    obtain ⟨hfront, hname⟩ := Prod.mk.inj (Option.some.inj hcallee)
    exact Spot.ext hsame hgap hfront hname (Placed.mk.inj hopening).1 hafter
  · right
    rw [List.append_cons] at hnext
    rcases hnext.next hafter with ⟨-, hopening, -⟩ | hafter
    · cases (congrArg Placed.lexeme hopening :)
    · rwa [List.append_assoc] at hafter

/-- A place in the group after this one, or after it: no place has the close in its midst. -/
theorem Proper.inside_or_after {ls : List Placed} {o other : Spot} {g : Group} (h : o.Proper ls)
    (hother : other.Proper ls) (hbefore : o.head <+: other.before)
    (hclose : closeGroup? 0 o.after = some g) :
    other.head <+: o.head ++ g.inside ∨ o.upTo g <+: other.before := by
  obtain ⟨rest, hrest⟩ := hbefore
  have hplaced := hother.placed.trans h.placed.symm
  rw [← hrest, ← head_append o, (closeGroup?_eq_some.mp hclose).1, List.append_assoc] at hplaced
  rcases List.append_eq_append_iff.mp (List.append_cancel_left hplaced) with
    ⟨inside, hinside, hafter⟩ | ⟨between, hbefore, hafter⟩
  · left
    rcases inside with _ | ⟨q, _ | ⟨q', inside⟩⟩
    · cases (congrArg Placed.lexeme (List.cons.inj hafter).1 :)
    · cases (congrArg Placed.lexeme (List.cons.inj (List.cons.inj hafter).2).1 :)
    · obtain ⟨rfl, hopening⟩ := List.cons.inj hafter
      obtain ⟨rfl, -⟩ := List.cons.inj hopening
      refine ⟨inside, ?_⟩
      rw [head, ← hrest, hinside, List.append_assoc, List.append_assoc]
      rfl
  · right
    cases between with
    | nil => cases (congrArg Placed.lexeme (List.cons.inj hafter).1 :)
    | cons q between =>
      obtain ⟨rfl, -⟩ := List.cons.inj hafter
      refine ⟨between, ?_⟩
      rw [← hrest, hbefore, upTo, List.append_assoc, List.append_assoc]
      rfl

end Spot

/-! ### The sweep -/

/-- A lexeme is passed over unless it makes a call with an opening parenthesis after it. -/
theorem callsFrom_pass (offset : Nat) {p : Placed} {ls : List Placed}
    (h : ∀ q ∈ ls.head?, q.lexeme = .opening → p.lexeme.callee? = none) :
    callsFrom offset (p :: ls) = callsFrom (offset + p.text.byteSize) ls := by
  cases ls with
  | nil => simp [callsFrom]
  | cons q ls =>
    by_cases hq : q.lexeme = .opening
    · exact callsFrom_skip (h q rfl hq) offset (q :: ls)
    · rw [callsFrom]
      split
      · rename_i hopening _
        exact absurd hopening hq
      · rfl

/-- A call is found, closed or not, and the search goes on after its close. -/
theorem callsFrom_opening {l : Lexeme} {before name : Text} (h : l.callee? = some (before, name))
    (offset : Nat) (gap between : Text) (rest : List Placed) :
    callsFrom offset (⟨gap, l⟩ :: ⟨between, .opening⟩ :: rest) =
      ⟨name, (closeGroup? 0 rest).map Group.text, offset + gap.byteSize + before.byteSize⟩ ::
        match closeGroup? 0 rest with
        | none => []
        | some g =>
          callsFrom (offset + (gap ++ l.text ++ between ++ '(' :: (g.text ++ [')'])).byteSize)
            g.after := by
  cases hclose : closeGroup? 0 rest with
  | none =>
    rw [callsFrom]
    simp only [h]
    split
    · rfl
    · rename_i g hg
      cases hclose.symm.trans hg
  | some g =>
    obtain ⟨rfl, hinside⟩ := closeGroup?_eq_some.mp hclose
    exact callsFrom_call h hinside offset gap between g.lastGap g.after

/-- Where the sweep goes on after a call at this place; nowhere if the call is never closed. -/
def Spot.rest (o : Spot) : List Call :=
  match closeGroup? 0 o.after with
  | none => []
  | some g => callsFrom (render (o.upTo g)).byteSize g.after

/-- The sweep finds the call of a place that it comes to. -/
theorem Spot.callsFrom_eq {o : Spot} (h : o.word.lexeme.callee? = some (o.front, o.name)) :
    callsFrom (render o.before).byteSize (o.word :: o.opening :: o.after) = o.call :: o.rest := by
  have hend (g : Group) : (render o.before).byteSize +
      (o.gap ++ o.word.lexeme.text ++ o.between ++ '(' :: (g.text ++ [')'])).byteSize =
      (render (o.upTo g)).byteSize := by
    rw [← Text.byteSize_append]
    simp [upTo, head, word, opening, render_append, Lexeme.text, Group.text]
  have hcall := callsFrom_opening h (render o.before).byteSize o.gap o.between o.after
  simp only [hend] at hcall
  rw [call, rest, Text.byteSize_append, Text.byteSize_append]
  exact hcall

/-- **What one step of the sweep does**: it finds a call, or passes a lexeme over. -/
theorem callsFrom_step (done : List Placed) (p : Placed) (ls : List Placed) :
    (∃ o : Spot, o.Proper (done ++ p :: ls) ∧ o.before = done ∧
      o.after.length < ls.length ∧
      callsFrom (render done).byteSize (p :: ls) = o.call :: o.rest) ∨
    (∀ o : Spot, o.Proper (done ++ p :: ls) → o.before ≠ done) ∧
      callsFrom (render done).byteSize (p :: ls) =
        callsFrom (render (done ++ [p])).byteSize ls := by
  by_cases hspot : ∃ o : Spot, o.Proper (done ++ p :: ls) ∧ o.before = done
  · obtain ⟨o, ho, rfl⟩ := hspot
    obtain ⟨rfl, rfl⟩ := ho.first
    exact .inl ⟨o, ho, rfl, Nat.lt_succ_self _, Spot.callsFrom_eq ho.callee⟩
  · refine .inr ⟨fun o ho hbefore => hspot ⟨o, ho, hbefore⟩, ?_⟩
    have hsize : (render (done ++ [p])).byteSize = (render done).byteSize + p.text.byteSize := by
      rw [render_append, Text.byteSize_append]
      simp [Placed.text]
    rw [hsize]
    refine callsFrom_pass _ fun q hq hopening => ?_
    rcases hcallee : p.lexeme.callee? with _ | ⟨front, name⟩
    · rfl
    · exfalso
      obtain ⟨gap, l⟩ := p
      obtain ⟨between, l'⟩ := q
      obtain ⟨rfl, -⟩ := callee?_eq_some.mp hcallee
      cases (hopening : l' = .opening)
      obtain ⟨rest, rfl⟩ : ∃ rest, ls = ⟨between, .opening⟩ :: rest := by
        cases ls with
        | nil => cases hq
        | cons q' rest =>
          cases hq
          exact ⟨rest, rfl⟩
      exact hspot ⟨⟨done, gap, front, name, between, rest⟩, ⟨rfl, hcallee⟩, rfl⟩

/-- The sweep over `ls`, after `done`, finds these places. -/
structure Sweeps (done ls : List Placed) (spots : List Spot) : Prop where
  calls : callsFrom (render done).byteSize ls = spots.map Spot.call
  proper : ∀ o ∈ spots, o.Proper (done ++ ls) ∧ done <+: o.before
  follow : spots.Pairwise Spot.Follows
  complete : ∀ o : Spot, o.Proper (done ++ ls) → done <+: o.before →
    o ∈ spots ∨ ∃ outer ∈ spots, o.Within outer

namespace Sweeps

theorem nil (done : List Placed) : Sweeps done [] [] := by
  refine ⟨by simp [callsFrom], fun _ h => (nomatch h), .nil, fun o ho hdone => ?_⟩
  have hlength := congrArg List.length ho.placed
  have hle := hdone.length_le
  simp only [List.length_append, List.length_cons, List.length_nil] at hlength
  omega

variable {done ls : List Placed} {p : Placed} {spots : List Spot}

/-- A lexeme is passed over. -/
theorem pass (hpass : ∀ o : Spot, o.Proper (done ++ p :: ls) → o.before ≠ done)
    (hcalls : callsFrom (render done).byteSize (p :: ls) =
      callsFrom (render (done ++ [p])).byteSize ls)
    (h : Sweeps (done ++ [p]) ls spots) : Sweeps done (p :: ls) spots := by
  obtain ⟨hspots, hproper, hfollow, hall⟩ := h
  rw [List.append_assoc, List.singleton_append] at hproper hall
  refine ⟨hcalls.trans hspots, fun o ho => ?_, hfollow, fun o ho hdone => ?_⟩
  · exact ⟨(hproper o ho).1, (List.prefix_append done [p]).trans (hproper o ho).2⟩
  · rcases ho.next hdone with ⟨hbefore, -⟩ | hbefore
    · exact absurd hbefore (hpass o ho)
    · exact hall o ho hbefore

/-- A call that is never closed is the last. -/
theorem unclosed {o : Spot} (ho : o.Proper (o.before ++ ls)) (hclose : closeGroup? 0 o.after = none)
    (hcalls : callsFrom (render o.before).byteSize ls = o.call :: o.rest) :
    Sweeps o.before ls [o] := by
  rw [Spot.rest, hclose] at hcalls
  refine ⟨hcalls, by simpa using ho, List.pairwise_singleton ..,
    fun other hother hdone => ?_⟩
  rcases ho.eq_or_after hother hdone with rfl | hlater
  · exact .inl (List.mem_singleton_self _)
  · refine .inr ⟨o, List.mem_singleton_self _, hlater, fun g hg => ?_⟩
    cases hclose.symm.trans hg

/-- After a call the sweep goes on behind its close. -/
theorem closed {o : Spot} {g : Group} (ho : o.Proper (o.before ++ ls))
    (hclose : closeGroup? 0 o.after = some g)
    (hcalls : callsFrom (render o.before).byteSize ls = o.call :: o.rest)
    (h : Sweeps (o.upTo g) g.after spots) : Sweeps o.before ls (o :: spots) := by
  obtain ⟨hspots, hproper, hfollow, hall⟩ := h
  rw [Spot.upTo_append hclose, Spot.head_append, ho.placed] at hproper hall
  rw [Spot.rest, hclose] at hcalls
  have hlater : o.before <+: o.upTo g := o.before_prefix_head.trans (List.prefix_append ..)
  refine ⟨?_, ?_, .cons (fun other hother => ?_) hfollow, fun other hother hdone => ?_⟩
  · rw [hcalls, List.map_cons]
    exact congrArg (o.call :: ·) hspots
  · refine List.forall_mem_cons.mpr ⟨⟨ho, List.prefix_rfl⟩, fun other hother => ?_⟩
    exact ⟨(hproper other hother).1, hlater.trans (hproper other hother).2⟩
  · exact ⟨g, hclose, (hproper other hother).2⟩
  · rcases ho.eq_or_after hother hdone with rfl | hnext
    · exact .inl (List.mem_cons_self ..)
    · rcases ho.inside_or_after hother hnext hclose with hinside | hbehind
      · refine .inr ⟨o, List.mem_cons_self .., hnext, fun g' hg' => ?_⟩
        cases hclose.symm.trans hg'
        exact hinside
      · rcases hall other hother hbehind with hmem | ⟨outer, houter, hwithin⟩
        · exact .inl (List.mem_cons_of_mem _ hmem)
        · exact .inr ⟨outer, List.mem_cons_of_mem _ houter, hwithin⟩

end Sweeps

/-- **The sweep finds the places that are not in the arguments at another one**, in order, and
no two of them overlap. -/
theorem exists_sweeps (done ls : List Placed) : ∃ spots, Sweeps done ls spots := by
  induction hlength : ls.length using Nat.strong_induction_on generalizing done ls with
  | h n ih =>
    subst hlength
    cases ls with
    | nil => exact ⟨[], .nil done⟩
    | cons p ls =>
      rcases callsFrom_step done p ls with ⟨o, ho, rfl, hshorter, hcalls⟩ | ⟨hpass, hcalls⟩
      · cases hclose : closeGroup? 0 o.after with
        | none => exact ⟨[o], .unclosed ho hclose hcalls⟩
        | some g =>
          have hless := (length_after_lt hclose).trans (Nat.lt_succ_of_lt hshorter)
          obtain ⟨spots, hspots⟩ := ih g.after.length hless (o.upTo g) g.after rfl
          exact ⟨o :: spots, .closed ho hclose hcalls hspots⟩
      · obtain ⟨spots, hspots⟩ := ih ls.length (Nat.lt_succ_self _) (done ++ [p]) ls rfl
        exact ⟨spots, .pass hpass hcalls hspots⟩

/-! ### From lexemes to the text -/

/-- What a word touches is no character that words are made of. -/
theorem Legible.before_word {ls rest : List Placed} {letters : Text}
    (h : Legible (ls ++ ⟨[], .word letters⟩ :: rest)) :
    ∀ c ∈ (render ls).getLast?, isBare c = false := by
  rcases List.eq_nil_or_concat ls with rfl | ⟨init, last, rfl⟩
  · exact fun c hc => (nomatch hc)
  rw [List.concat_eq_append] at h ⊢
  have hapart : Apart last ⟨[], .word letters⟩ :=
    (List.isChain_append.mp h.apart).2.2 last (by simp) _ rfl
  have hlegible := h.left.lexemes last (by simp)
  have hlast : (render (init ++ [last])).getLast? = last.lexeme.text.getLast? := by
    rw [render_append, render_cons, render_nil, List.append_nil, ← List.append_assoc,
      List.getLast?_append_of_ne_nil _ (Lexeme.text_ne_nil hlegible)]
  rw [hlast]
  intro c hc
  obtain ⟨gap, l⟩ := last
  cases l with
  | word letters' => exact absurd rfl (hapart.words rfl rfl)
  | openLiteral quote content => cases hapart.closed
  | literal quote content =>
    obtain rfl : quote = c := by
      simpa [Lexeme.text, List.getLast?_cons] using hc
    simp [isBare, hlegible.1]
  | _ =>
    cases hc
    rfl

theorem render_mono {a b : List Placed} (h : a <+: b) : render a <+: render b := by
  obtain ⟨rest, rfl⟩ := h
  rw [render_append]
  exact List.prefix_append ..

namespace Spot

/-- The place in the text, which ends in these blanks. -/
def site (last : Text) (o : Spot) : Site :=
  ⟨render o.before ++ o.gap ++ o.front, o.name, o.between, render o.after ++ last⟩

theorem head_site (last : Text) (o : Spot) : (o.site last).head = render o.head := by
  simp [site, Site.head, head, word, opening, render_append, Lexeme.text]

theorem before_prefix_site {last : Text} (o : Spot) : render o.before <+: (o.site last).before := by
  simp [site]

variable {s : Text} {o : Spot} (h : o.Proper (lex s))
include h

theorem Proper.lex_after : lex (o.site (lastBlanks s)).after = o.after :=
  lex_rest (a := o.head) (by rw [head_append, h.placed])

theorem Proper.text_site : (o.site (lastBlanks s)).text = s := by
  calc (o.site (lastBlanks s)).text
    _ = render o.head ++ (render o.after ++ lastBlanks s) := by rw [Site.text, head_site]; rfl
    _ = render (lex s) ++ lastBlanks s := by
      rw [← List.append_assoc, ← render_append, head_append, h.placed]
    _ = s := (render_lex s).2

theorem Proper.proper_site : (o.site (lastBlanks s)).Proper := by
  have hlegible := legible_lex s
  rw [← h.placed] at hlegible
  obtain ⟨hword, hname, hop, hfront⟩ := callee?_eq_some.mp h.callee
  have hgap : Blank o.gap := hlegible.right.head.1
  have hbare : ∀ c ∈ o.front ++ o.name, isBare c = true := hlegible.right.head.2.1.2
  have hbefore : openQuote (render o.before) = none := by
    rw [← endsInLiteral_lex_eq_false, lex_render hlegible.left]
    exact hlegible.closed_before
  refine ⟨?_, fun c hc => ?_, hname, fun op hop' => ?_, hlegible.right.tail.head.1⟩
  · show openQuote (render o.before ++ o.gap ++ o.front) = none
    rw [List.append_assoc, openQuote_append hbefore]
    refine openQuoteFrom_plain fun c hc => ?_
    rcases List.mem_append.mp hc with hc | hc
    · exact isQuote_of_isBlank (hgap c hc)
    · exact isQuote_of_isBare (hbare c (List.mem_append_left _ hc))
  · -- The name reaches back to another part of its word, to the blanks before it, or, without
    -- these, to a lexeme that is no word.
    by_cases hnil : o.front = []
    · refine isNameChar_of_not_isBare ?_
      by_cases hnone : o.gap = []
      · have htouch := hlegible
        rw [Spot.word, hnone] at htouch
        refine htouch.before_word c ?_
        simpa [site, hnil, hnone] using hc
      · have hlast : c ∈ o.gap.getLast? := by
          simpa [site, hnil, List.getLast?_append_of_ne_nil _ hnone] using hc
        exact isBare_of_isBlank (hgap c (List.mem_of_getLast? hlast))
    · refine hfront c ?_
      rwa [site, List.getLast?_append_of_ne_nil _ hnil] at hc
  · cases hop.symm.trans (Op.ofWord?_eq_some.mpr hop')

theorem Proper.reports_site : (o.site (lastBlanks s)).Reports o.call := by
  refine ⟨rfl, rfl, fun a => ?_⟩
  rw [← closeGroup?_lex, h.lex_after]
  rfl

theorem Proper.follows_site {other : Spot} (hfollows : o.Follows other) :
    (o.site (lastBlanks s)).Follows (other.site (lastBlanks s)) := by
  obtain ⟨g, hg, hbegin⟩ := hfollows
  have hclose :
      (closeGroup? 0 (lex (o.site (lastBlanks s)).after)).map Group.text = some g.text := by
    rw [h.lex_after, hg]
    rfl
  obtain ⟨rest, hrest, hencloses⟩ := closeGroup?_lex.mp hclose
  refine ⟨g.text, rest, hrest, hencloses, ?_⟩
  have hupTo : (o.site (lastBlanks s)).head ++ g.text ++ [')'] = render (o.upTo g) := by
    rw [head_site, upTo, render_append o.head]
    simp [render_append, Group.text, Lexeme.text]
  rw [hupTo]
  exact (render_mono hbegin).trans other.before_prefix_site

theorem Proper.within_site {inner : Spot} (hwithin : inner.Within o) :
    (inner.site (lastBlanks s)).Within (o.site (lastBlanks s)) := by
  obtain ⟨hbefore, hinside⟩ := hwithin
  refine ⟨?_, fun a rest hafter ha => ?_⟩
  · rw [head_site]
    exact (render_mono hbefore).trans inner.before_prefix_site
  · have hclose := closeGroup?_lex.mpr ⟨rest, hafter, ha⟩
    rw [h.lex_after] at hclose
    obtain ⟨g, hg, rfl⟩ := Option.map_eq_some_iff.mp hclose
    rw [head_site, head_site, Group.text, ← List.append_assoc, ← render_append]
    exact (render_mono (hinside g hg)).trans (List.prefix_append ..)

end Spot

/-- Every place in a text is one among its lexemes. -/
theorem Site.Proper.exists_spot {o : Site} (h : o.Proper) :
    ∃ spot : Spot, spot.Proper (lex o.text) ∧ spot.site (lastBlanks o.text) = o := by
  have hname := isNameChar_of_isName h.name
  have hne : o.name ≠ [] := by
    intro hnil
    have hnone := h.name
    rw [hnil] at hnone
    cases hnone
  have hgap := lex_gap h.blank (lex_opening o.after)
  rw [List.append_nil] at hgap
  obtain ⟨ls, gap, front, hlex, hbefore⟩ := lex_append_word h.outside hne
    (fun c hc => isBare_of_isNameChar (hname c hc)) (t := o.gap ++ '(' :: o.after) (by
      rw [hgap]
      intro p hp hword
      cases hp
      cases hword)
  rw [hgap] at hlex
  have htext : o.before ++ (o.name ++ (o.gap ++ '(' :: o.after)) = o.text := by
    simp [Site.text, Site.head]
  rw [htext] at hlex
  have hop : Op.ofWord? o.name = none := by
    cases hop : Op.ofWord? o.name with
    | none => rfl
    | some op => exact absurd (Op.ofWord?_eq_some.mp hop) (h.plain op)
  have hfront : ∀ c ∈ front.getLast?, isNameChar c = false := by
    intro c hc
    refine h.longest c ?_
    rw [hbefore, List.getLast?_append, hc]
    rfl
  let spot : Spot := ⟨ls, gap, front, o.name, o.gap, lex o.after⟩
  have hspot : spot.Proper (lex o.text) :=
    ⟨hlex.symm, callee?_eq_some.mpr ⟨rfl, h.name, hop, hfront⟩⟩
  have hafter : (spot.site (lastBlanks o.text)).after = o.after := by
    have hhead : (spot.site (lastBlanks o.text)).head = o.head := by
      rw [Site.head, Site.head, hbefore]
      rfl
    have hsame := hspot.text_site
    rw [Site.text, hhead] at hsame
    exact List.append_cancel_left hsame
  exact ⟨spot, hspot, Site.ext hbefore.symm rfl rfl hafter⟩

/-! ### The calls of a text -/

theorem Site.Follows.before_lt {o other : Site} (h : o.Follows other) :
    o.before.byteSize < other.before.byteSize := by
  obtain ⟨a, rest, -, -, before, hbefore⟩ := h
  rw [← hbefore, Site.head]
  simp only [Text.byteSize_append]
  have hopening : Text.byteSize ['('] = 1 := rfl
  omega

/-- What stands between the parentheses of a call is what they enclose. -/
theorem encloses_of_callsIn {s : Text} {c : Call} (hc : c ∈ callsIn s) {a : Text}
    (ha : c.args = some a) : Encloses a := by
  obtain ⟨spots, hcalls, hproper, -⟩ := exists_sweeps [] (lex s)
  replace hcalls : callsIn s = spots.map Spot.call := hcalls
  rw [hcalls] at hc
  obtain ⟨o, ho, rfl⟩ := List.mem_map.mp hc
  obtain ⟨-, -, henclosed⟩ := (hproper o ho).1.reports_site.args a |>.mp ha
  exact henclosed

/-- **The calls of a text, well formed or not**, are reported in order, each with its name, the
offset of that and what its parentheses enclose; and every place where a name stands
before an opening parenthesis is one of them, unless it is in the arguments of another. -/
theorem callsIn_sites (s : Text) : ∃ sites : List Site,
    List.Forall₂ Site.Reports sites (callsIn s) ∧
    (∀ o ∈ sites, o.text = s ∧ o.Proper) ∧
    sites.Pairwise Site.Follows ∧
    (∀ o : Site, o.text = s → o.Proper → o ∈ sites ∨ ∃ outer ∈ sites, o.Within outer) ∧
    (callsIn s).Pairwise (·.start < ·.start) ∧
    ∀ c ∈ (callsIn s).dropLast, c.args ≠ none := by
  obtain ⟨spots, hcalls, hproper, hfollow, hcomplete⟩ := exists_sweeps [] (lex s)
  replace hcalls : callsIn s = spots.map Spot.call := hcalls
  rw [List.nil_append] at hproper hcomplete
  have hsites : spots.Pairwise fun o other =>
      (o.site (lastBlanks s)).Follows (other.site (lastBlanks s)) :=
    hfollow.imp_of_mem fun ho _ h => (hproper _ ho).1.follows_site h
  refine ⟨spots.map (Spot.site (lastBlanks s)), ?_, fun o ho => ?_, List.pairwise_map.mpr hsites,
    ?_, ?_, ?_⟩
  · rw [hcalls, List.forall₂_map_left_iff, List.forall₂_map_right_iff, List.forall₂_same]
    exact fun o ho => (hproper o ho).1.reports_site
  · obtain ⟨spot, hspot, rfl⟩ := List.mem_map.mp ho
    exact ⟨(hproper spot hspot).1.text_site, (hproper spot hspot).1.proper_site⟩
  · intro o htext ho
    obtain ⟨spot, hspot, hsite⟩ := ho.exists_spot
    rw [htext] at hspot hsite
    rw [← hsite]
    rcases hcomplete spot hspot List.nil_prefix with hmem | ⟨outer, houter, hwithin⟩
    · exact .inl (List.mem_map_of_mem hmem)
    · exact .inr ⟨_, List.mem_map_of_mem houter, (hproper outer houter).1.within_site hwithin⟩
  · rw [hcalls, List.pairwise_map]
    exact hsites.imp Site.Follows.before_lt
  · rw [hcalls, ← List.map_dropLast]
    rintro c hc
    obtain ⟨o, ho, rfl⟩ := List.mem_map.mp hc
    -- A call that is not the last has another after its close.
    rcases List.eq_nil_or_concat spots with rfl | ⟨init, last, rfl⟩
    · cases ho
    · rw [List.concat_eq_append] at ho hfollow
      rw [List.dropLast_concat] at ho
      obtain ⟨g, hg, -⟩ :=
        (List.pairwise_append.mp hfollow).2.2 o ho last (List.mem_singleton_self _)
      simp [Spot.call, hg]

/-- Offsets are in bytes, and nothing in a call is reported, the last one being never closed. -/
example : callsIn "éa (f(x)) AND g('".toList =
    [⟨"a".toList, some "f(x)".toList, 2⟩, ⟨"g".toList, none, 15⟩] := by
  decide +kernel

end AccessRules
