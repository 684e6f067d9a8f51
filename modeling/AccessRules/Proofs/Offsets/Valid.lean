import AccessRules.Proofs.Grammar.Inventory
import AccessRules.Proofs.Offsets.Reading
import AccessRules.Query
import AccessRules.Report.Inspect

/-! No slice and no index is ever out of range.

What is left of the library is done by offsets too: an inspection, the content of a
parameter, which is sliced out between its quotes, and the query of a call, which looks its
parameters up by index. Only the dividing of arguments takes no offset, since it collects
characters. Each of the others would give nothing if one offset or index were not valid, and
each gives what the library does (`slices_valid`). -/
namespace AccessRules

/-! ### An inspection -/

/-- The faults of a text; nothing if an offset is not valid. -/
def faultsByOffset? (s : Text) : Option (List Fault) :=
  if tidyText s = [] then some [.empty]
  else do
    let calls ← callsByOffset? (tidyText s)
    let ls := lex (tidyText s)
    match balanceFaults ls ++ calls.flatMap Call.faults ++ operatorFaults none ls with
    | [] =>
      match ← (parseByOffset? s).run with
      | .ok _ => return []
      | .error error => return [.unreadable error]
    | found => return found

/-- Everything found in a text; nothing if an offset is not valid. -/
def inspectByOffset? (s : Text) : Option Report := do
  let found ← faultsByOffset? s
  let calls ← callsByOffset? (tidyText s)
  return ⟨found.map Fault.message, (calls.flatMap Call.warnings).map Warning.message⟩

theorem faultsByOffset?_eq (s : Text) : faultsByOffset? s = some (faults s) := by
  have hnil : tidyText s = [] ↔ tidyLex s = [] := by
    rw [tidyText_eq_phrase, phrase_eq_nil (legible_tidyLex s)]
  simp only [faultsByOffset?, faults, hnil, callsByOffset?_eq, callsIn_tidyText, lex_tidyText,
    Option.bind_eq_bind, Option.bind_some, parseByOffset?_eq]
  split
  · rfl
  · show (match structureFaults (tidyLex s) with | [] => _ | found => _) = _
    cases structureFaults (tidyLex s) with
    | nil => cases hparse : parse s <;> rfl
    | cons f found => rfl

/-- **Inspecting by offsets is inspecting**, and every offset on the way is valid. -/
theorem inspectByOffset?_eq (s : Text) : inspectByOffset? s = some (inspect s) := by
  simp only [inspectByOffset?, faultsByOffset?_eq, callsByOffset?_eq, callsIn_tidyText,
    Option.bind_eq_bind, Option.bind_some]
  rfl

/-! ### Parameters -/

/-- The quote that a text begins and ends with. -/
def quoteAround? (s : Text) : Option Char :=
  ['\'', '"'].find? fun q => 2 ≤ s.byteSize ∧ s.head? = some q ∧ s.getLast? = some q

/-- The content of a parameter; nothing if an offset is not valid. -/
def unquoteByOffset? (param : Text) : Option Text :=
  match quoteAround? param.trim with
  | some _ => do param.trim.slice? 1 (← pred? param.trim.byteSize)
  | none => some param.trim

/-- The query of a call, unless it has too few parameters; nothing if an index is out of range
or an offset not valid. -/
def Check.queryByIndex? (check : Check) (params : List Text) : Option (Option Query) :=
  let param (i : Nat) : Option Text := do unquoteByOffset? (← params[i]?)
  if params.length < check.arity then some none
  else match check with
    | permission => do return some (.permission (← param 0))
    | role => do return some (.role (← param 0))
    | resource => do return some (.resource (← param 0) (← param 1))
    | conditional => do return some (.conditional (← param 0) (← param 1) (← param 2))

theorem utf8Size_of_isQuote {q : Char} (h : isQuote q = true) : q.utf8Size = 1 := by
  rcases isQuote_iff.mp h with rfl | rfl <;> rfl

theorem quoteAround?_eq_some {s : Text} {q : Char} : quoteAround? s = some q ↔
    isQuote q = true ∧ 2 ≤ s.byteSize ∧ s.head? = some q ∧ s.getLast? = some q := by
  have hmem (c : Char) : c ∈ ['\'', '"'] ↔ isQuote c = true := List.mem_pair.trans isQuote_iff.symm
  have hends {c : Char} (h : quoteAround? s = some c) :
      2 ≤ s.byteSize ∧ s.head? = some c ∧ s.getLast? = some c := by
    have hfound := List.find?_some h
    exact of_decide_eq_true hfound
  constructor
  · exact fun h => ⟨(hmem q).mp (List.mem_of_find?_eq_some h), hends h⟩
  · rintro ⟨hq, hquoted⟩
    obtain ⟨c, hc⟩ : ∃ c, quoteAround? s = some c := Option.isSome_iff_exists.mp
      (List.find?_isSome.mpr ⟨q, (hmem q).mpr hq, decide_eq_true hquoted⟩)
    rw [hc, ← (hends hc).2.1, hquoted.2.1]

/-- The content of a text in quotes is sliced out between its first and its last byte. -/
theorem slice?_quoted {q : Char} (hq : isQuote q = true) (content : Text) :
    (do Text.slice? (q :: (content ++ [q])) 1 (← pred? (Text.byteSize (q :: (content ++ [q]))))) =
      some content := by
  have hone := utf8Size_of_isQuote hq
  have hlast : pred? (Text.byteSize (q :: (content ++ [q]))) = some (1 + content.byteSize) := by
    rw [Text.byteSize, byteSize_concat, hone, ← Nat.add_assoc, pred?]
  have hslice := Text.slice?_append [q] content [q]
  rw [Text.byteSize_append, show Text.byteSize [q] = 1 from hone] at hslice
  rw [hlast]
  exact hslice

/-- **Unquoting by offsets is unquoting**, and the offsets are valid. -/
theorem unquoteByOffset?_eq (param : Text) : unquoteByOffset? param = some (unquote param) := by
  rw [unquoteByOffset?, unquote]
  match param.trim with
  | [] => rfl
  | [c] =>
    -- A quote alone is around nothing.
    have hnone : quoteAround? [c] = none := by
      refine Option.eq_none_iff_forall_ne_some.mpr fun q hq => ?_
      obtain ⟨hquote, hsize, hfirst, -⟩ := quoteAround?_eq_some.mp hq
      cases hfirst
      have hone : Text.byteSize [c] = 1 := utf8Size_of_isQuote hquote
      omega
    simp only [hnone]
  | c :: d :: s =>
    by_cases hends : isQuote c = true ∧ (d :: s).getLast? = some c
    · have hinner : (d :: s).dropLast ++ [c] = d :: s := List.dropLast_append_getLast? c hends.2
      have hsize : 2 ≤ Text.byteSize (c :: d :: s) := by
        have hpos := c.utf8Size_pos
        have hpos' := d.utf8Size_pos
        rw [Text.byteSize, Text.byteSize]
        omega
      have hsome : quoteAround? (c :: d :: s) = some c := quoteAround?_eq_some.mpr
        ⟨hends.1, hsize, rfl, by rw [List.getLast?_cons_cons]; exact hends.2⟩
      simp only [hsome, if_pos hends]
      rw [← hinner, List.dropLast_concat]
      exact slice?_quoted hends.1 _
    · have hnone : quoteAround? (c :: d :: s) = none := by
        refine Option.eq_none_iff_forall_ne_some.mpr fun q hq => hends ?_
        obtain ⟨hquote, -, hfirst, hlast⟩ := quoteAround?_eq_some.mp hq
        cases hfirst
        exact ⟨hquote, by rwa [List.getLast?_cons_cons] at hlast⟩
      simp only [hnone, if_neg hends]

/-- **The parameters that a check looks up are there.** -/
theorem Check.queryByIndex?_eq (check : Check) (params : List Text) :
    check.queryByIndex? params = some (check.query? params) := by
  match params with
  | [] | [_] | [_, _] | _ :: _ :: _ :: _ =>
    cases check <;> simp [queryByIndex?, query?, arity, unquoteByOffset?_eq]

/-! ### All of it -/

/-- **No slice and no index is ever out of range.** A text is cut at an offset only if that is a
valid position of the string, and a slice has two such ends, in order. Reading a text,
inspecting it, finding its calls, unquoting a parameter and putting a query by such cuts and
slices, by bytes and parameters at an index and by what is one less than an offset gives for
every text, parameter and call what the library does, and never nothing; and the end of a text
without the blanks at its end is a valid offset. -/
theorem slices_valid :
    (∀ (s : Text) n, (s.splitAt? n).isSome ↔ (String.Pos.Raw.mk n).IsValid (String.ofList s)) ∧
    (∀ (s : Text) start stop, (s.slice? start stop).isSome ↔ start ≤ stop ∧
      (String.Pos.Raw.mk start).IsValid (String.ofList s) ∧
      (String.Pos.Raw.mk stop).IsValid (String.ofList s)) ∧
    (∀ s, (parseByOffset? s).run = some (parse s)) ∧
    (∀ s, inspectByOffset? s = some (inspect s)) ∧
    (∀ s, callsByOffset? s = some (callsIn s)) ∧
    (∀ param, unquoteByOffset? param = some (unquote param)) ∧
    (∀ (check : Check) params, check.queryByIndex? params = some (check.query? params)) ∧
    ∀ s : Text, ∃ last, s.splitAt? s.trimEnd.byteSize = some (s.trimEnd, last) := by
  refine ⟨fun _ _ => Text.isSome_splitAt?, fun _ _ _ => Text.isSome_slice?, fun s => ?_,
    inspectByOffset?_eq, callsByOffset?_eq, unquoteByOffset?_eq, Check.queryByIndex?_eq, fun s => ?_⟩
  · rw [parseByOffset?_eq]
    rfl
  · obtain ⟨last, -, hs⟩ := s.exists_trimEnd_append
    exact ⟨last, Text.splitAt?_eq_some.mpr ⟨hs, rfl⟩⟩

/-- Offsets are in bytes: the name of the call stands after a letter of two. -/
example : callsByOffset? "é(hasRole('ü)', x)".toList =
    some [⟨"hasRole".toList, some "'ü)', x".toList, 3⟩] := by
  decide +kernel

end AccessRules
