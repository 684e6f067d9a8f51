import AccessRules.Proofs.Offsets.Split

/-! The counter of open groups, all along the scan for a cut.

`ScanAt` are the states that the scan passes through, with a constructor for each way in which
it goes on. The scan takes one off at a close, and nothing at a count of zero. Where nothing
closes before it opens, the latter never happens, so that the counter is at each place the
number of groups that are open there (`ScanAt.counted`). The scan comes to every place in the
text, unless it has ended before at an `OR` (`exists_scanAt`). -/
namespace AccessRules

/-- The scan of `s` comes to `rest`, at offset `i`, when `quote` is open, `depth` groups are
counted and `found` are noted. -/
inductive ScanAt (s : Text) : (i : Nat) → (quote : Option Char) → (depth : Nat) →
    (found : Op → Option Nat) → (rest : Text) → Prop
  | start : ScanAt s 0 none 0 (fun _ => none) s
  | literal {i depth : Nat} {quote : Option Char} {found : Op → Option Nat} {c : Char} {rest : Text}
    (h : ScanAt s i quote depth found (c :: rest)) (hc : ¬(quote = none ∧ isQuote c = false)) :
    ScanAt s (i + c.utf8Size) (quoteAfter quote c) depth found rest
  | opening {i depth : Nat} {found : Op → Option Nat} {rest : Text}
    (h : ScanAt s i none depth found ('(' :: rest)) :
    ScanAt s (i + '('.utf8Size) none (depth + 1) found rest
  | closing {i depth : Nat} {found : Op → Option Nat} {rest : Text}
    (h : ScanAt s i none depth found (')' :: rest)) :
    ScanAt s (i + ')'.utf8Size) none (depth - 1) found rest
  | other {i depth : Nat} {found noted : Op → Option Nat} {c : Char} {rest : Text}
    (h : ScanAt s i none depth found (c :: rest)) (hc : isQuote c = false) (ho : c ≠ '(')
    (hcl : c ≠ ')') (hnote : noteAt? s i depth c found = some noted) (hor : noted .or = none) :
    ScanAt s (i + c.utf8Size) none depth noted rest

/-- The number of groups that are open at the end of the text is `depth`: those outside literals
that open, less those that close. -/
def Opens (a : Text) (depth : Nat) : Prop :=
  (outside a).count '(' = depth + (outside a).count ')'

section Opens
variable {a : Text} {depth : Nat} (h : Opens a depth)
include h

/-- In a literal nothing opens or closes. -/
theorem Opens.literal {c : Char} (hc : ¬(openQuote a = none ∧ isQuote c = false)) :
    Opens (a ++ [c]) depth := by
  rwa [Opens, outside, outsideFrom_append, ← openQuote, outsideFrom_quote _ hc, outsideFrom,
    List.append_nil]

variable (ha : openQuote a = none)
include ha

theorem Opens.opening : Opens (a ++ ['(']) (depth + 1) := by
  have hone : (outside ['(']).count '(' = 1 ∧ (outside ['(']).count ')' = 0 := ⟨rfl, rfl⟩
  rw [Opens] at h ⊢
  rw [outside_append ha, List.count_append, List.count_append, hone.1, hone.2, h]
  omega

/-- A close takes one off, which is there if what closes has been opened. -/
theorem Opens.closing
    (hmatch : (outside (a ++ [')'])).count ')' ≤ (outside (a ++ [')'])).count '(') :
    depth ≠ 0 ∧ Opens (a ++ [')']) (depth - 1) := by
  have hone : (outside [')']).count '(' = 0 ∧ (outside [')']).count ')' = 1 := ⟨rfl, rfl⟩
  rw [Opens] at h ⊢
  rw [outside_append ha, List.count_append, List.count_append, hone.1, hone.2] at hmatch ⊢
  omega

theorem Opens.other {c : Char} (hc : isQuote c = false) (ho : c ≠ '(') (hcl : c ≠ ')') :
    Opens (a ++ [c]) depth := by
  rw [Opens] at h ⊢
  rw [outside_append ha, outside_plain (List.forall_mem_singleton.mpr hc), List.count_append,
    List.count_append, h, List.count_singleton, List.count_singleton]
  simp [ho, hcl]

end Opens

/-- What the scan knows of the text before it. -/
structure Counted (s : Text) (i : Nat) (quote : Option Char) (depth : Nat) (rest before : Text) :
    Prop where
  text : s = before ++ rest
  offset : i = before.byteSize
  quote : quote = openQuote before
  depth : Opens before depth

section Scan
variable {s rest : Text} {i depth : Nat} {quote : Option Char} {found : Op → Option Nat}

/-- From each of its states on the scan gives what it gives as a whole. -/
theorem ScanAt.scan_eq (h : ScanAt s i quote depth found rest) :
    scanSplit? s 0 none 0 (fun _ => none) s = scanSplit? s i quote depth found rest := by
  induction h with
  | start => rfl
  | literal h hc ih => rw [ih, scanSplit?, if_neg hc]
  | opening h ih => rw [ih]; rfl
  | closing h ih => rw [ih]; rfl
  | other h hc ho hcl hnote hor ih =>
    rw [ih, scanSplit?, if_pos ⟨rfl, hc⟩, if_neg ho, if_neg hcl, hnote, Option.bind_some, if_pos hor]

section Counted
variable {before : Text} {c : Char} (h : Counted s i quote depth (c :: rest) before)
include h

theorem Counted.next_prefix : before ++ [c] <+: s :=
  ⟨rest, by rw [h.text, List.append_assoc, List.singleton_append]⟩

theorem Counted.next {depth' : Nat} (hdepth : Opens (before ++ [c]) depth') :
    Counted s (i + c.utf8Size) (quoteAfter quote c) depth' rest (before ++ [c]) where
  text := by rw [h.text, List.append_assoc, List.singleton_append]
  offset := by
    rw [h.offset, Text.byteSize_append]
    rfl
  quote := by
    rw [h.quote, openQuote, openQuote, openQuoteFrom_append]
    rfl
  depth := hdepth

end Counted

/-- **The counter is the number of open groups**, where nothing closes before it opens. -/
theorem ScanAt.counted (h : ScanAt s i quote depth found rest) (hs : ClosesMatch s) :
    ∃ before, Counted s i quote depth rest before := by
  induction h with
  | start => exact ⟨[], rfl, rfl, rfl, rfl⟩
  | literal h hc ih =>
    obtain ⟨before, hbefore⟩ := ih
    exact ⟨_, hbefore.next (hbefore.depth.literal (hbefore.quote ▸ hc))⟩
  | opening h ih =>
    obtain ⟨before, hbefore⟩ := ih
    exact ⟨_, hbefore.next (hbefore.depth.opening hbefore.quote.symm)⟩
  | closing h ih =>
    obtain ⟨before, hbefore⟩ := ih
    exact ⟨_, hbefore.next (hbefore.depth.closing hbefore.quote.symm (hs _ hbefore.next_prefix)).2⟩
  | other h hc ho hcl hnote hor ih =>
    obtain ⟨before, hbefore⟩ := ih
    rw [← quoteAfter_plain hc]
    exact ⟨_, hbefore.next (hbefore.depth.other hbefore.quote.symm hc ho hcl)⟩

/-- At a close that is counted there is a group open. -/
theorem ScanAt.depth_ne_zero (h : ScanAt s i none depth found (')' :: rest))
    (hs : ClosesMatch s) : depth ≠ 0 := by
  obtain ⟨before, hbefore⟩ := h.counted hs
  exact (hbefore.depth.closing hbefore.quote.symm (hs _ hbefore.next_prefix)).1

/-- No `OR` is noted as long as the scan goes on. -/
theorem ScanAt.or_eq_none (h : ScanAt s i quote depth found rest) : found .or = none := by
  induction h with
  | start => rfl
  | literal h hc ih => exact ih
  | opening h ih => exact ih
  | closing h ih => exact ih
  | other h hc ho hcl hnote hor ih => exact hor

/-- A step of the scan has its answer, and an `OR` that it notes begins there. -/
theorem exists_noteAt? (a t : Text) (depth : Nat) (c : Char) (hfound : found .or = none) :
    ∃ noted, noteAt? (a ++ c :: t) a.byteSize depth c found = some noted ∧
      ∀ i ∈ noted .or, i = a.byteSize := by
  by_cases h : depth = 0 ∧ Edge a ∧ ∃ op : Op, op.Begins (c :: t)
  · obtain ⟨rfl, ha, op, hop⟩ := h
    refine ⟨_, noteAt?_keyword ha hop found, fun i hi => ?_⟩
    by_cases hor : op = .or
    · subst hor
      rw [addNote_self, hfound] at hi
      exact (Option.some.inj hi).symm
    · rw [addNote_of_ne (Ne.symm hor), hfound] at hi
      cases hi
  · refine ⟨found, noteAt?_pass (fun hdepth ha op hop => h ⟨hdepth, ha, op, hop⟩) found, ?_⟩
    rw [hfound]
    nofun

/-- **The scan comes to every place in the text**, if it does not end before, at an `OR`. -/
theorem exists_scanAt (a b : Text) :
    (∃ depth found, ScanAt (a ++ b) a.byteSize (openQuote a) depth found b) ∨
    ∃ found i, scanSplit? (a ++ b) 0 none 0 (fun _ => none) (a ++ b) = some found ∧
      found .or = some i ∧ i < a.byteSize := by
  induction a using List.reverseRecOn generalizing b with
  | nil => exact .inl ⟨0, fun _ => none, .start⟩
  | append_singleton a c ih =>
    have hsize : Text.byteSize (a ++ [c]) = Text.byteSize a + c.utf8Size :=
      Text.byteSize_append a [c]
    have hquote : openQuote (a ++ [c]) = quoteAfter (openQuote a) c :=
      openQuoteFrom_append none a [c]
    rw [hsize, hquote, List.append_assoc, List.singleton_append]
    rcases ih (c :: b) with ⟨depth, found, h⟩ | ⟨found, i, hscan, hor, hi⟩
    · by_cases hc : openQuote a = none ∧ isQuote c = false
      · obtain ⟨ha, hc⟩ := hc
        rw [ha] at h ⊢
        rw [quoteAfter_plain hc]
        by_cases ho : c = '('
        · subst ho
          exact .inl ⟨_, _, h.opening⟩
        by_cases hcl : c = ')'
        · subst hcl
          exact .inl ⟨_, _, h.closing⟩
        obtain ⟨noted, hnote, hor⟩ := exists_noteAt? a b depth c h.or_eq_none
        cases hnoted : noted .or with
        | none => exact .inl ⟨_, _, h.other hc ho hcl hnote hnoted⟩
        | some i =>
          have hstop := h.scan_eq
          rw [scanSplit?, if_pos ⟨rfl, hc⟩, if_neg ho, if_neg hcl, hnote, Option.bind_some,
            if_neg (hnoted ▸ Option.some_ne_none i)] at hstop
          refine .inr ⟨noted, i, hstop, hnoted, ?_⟩
          rw [hor i hnoted]
          exact Nat.lt_add_of_pos_right c.utf8Size_pos
      · exact .inl ⟨_, _, h.literal hc⟩
    · exact .inr ⟨found, i, hscan, hor, Nat.lt_add_right _ hi⟩

end Scan
end AccessRules
