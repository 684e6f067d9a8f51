import AccessRules.Text.Basic

/-! Cutting a text at offsets in UTF-8 bytes.

An offset is valid when it is not past the end and not inside a character. `splitAt?` cuts
a text at an offset, and gives nothing if it is not valid; slices are made of two such
cuts. The valid offsets are the sizes of what the text begins with
(`splitAt?_eq_some`), which are the valid positions of a string (`isSome_splitAt?`). -/
namespace AccessRules
namespace Text

theorem byteSize_append (a b : Text) : byteSize (a ++ b) = byteSize a + byteSize b := by
  induction a with
  | nil => simp [byteSize]
  | cons c a ih => simp [byteSize, ih, Nat.add_assoc]

theorem byteSize_eq_zero {s : Text} : s.byteSize = 0 ↔ s = [] := by
  cases s with
  | nil => exact iff_of_true rfl rfl
  | cons c s =>
    have hpos := c.utf8Size_pos
    exact iff_of_false (by rw [byteSize]; omega) (List.cons_ne_nil c s)

/-! ### Cuts -/

/-- What stands before and after an offset in bytes; nothing if the text has no such offset,
or it lies inside a character. -/
def splitAt? : Nat → Text → Option (Text × Text)
  | 0, s => some ([], s)
  | _ + 1, [] => none
  | n + 1, c :: s =>
    if c.utf8Size ≤ n + 1 then
      (splitAt? (n + 1 - c.utf8Size) s).map fun (before, after) => (c :: before, after)
    else none

/-- The text from one offset to another, which comes no earlier. -/
def slice? (s : Text) (start stop : Nat) : Option Text :=
  if start ≤ stop then do
    let (_, rest) ← s.splitAt? start
    let (middle, _) ← rest.splitAt? (stop - start)
    return middle
  else none

theorem splitAt?_append (a b : Text) : (a ++ b).splitAt? a.byteSize = some (a, b) := by
  induction a with
  | nil => rw [byteSize, splitAt?, List.nil_append]
  | cons c a ih =>
    obtain ⟨n, hn⟩ : ∃ n, c.utf8Size + byteSize a = n + 1 :=
      Nat.exists_eq_add_one.mpr (Nat.add_pos_left c.utf8Size_pos _)
    rw [byteSize, hn, List.cons_append, splitAt?, ← hn, if_pos (Nat.le_add_right ..),
      Nat.add_sub_cancel_left, ih]
    rfl

/-- **An offset is valid if it is the size of what the text begins with.** -/
theorem splitAt?_eq_some {n : Nat} {s a b : Text} :
    s.splitAt? n = some (a, b) ↔ s = a ++ b ∧ n = a.byteSize := by
  constructor
  · intro h
    induction s generalizing n a with
    | nil =>
      cases n with
      | zero =>
        cases h
        exact ⟨rfl, rfl⟩
      | succ n => cases h
    | cons c s ih =>
      cases n with
      | zero =>
        cases h
        exact ⟨rfl, rfl⟩
      | succ n =>
        rw [splitAt?] at h
        split at h
        · rename_i hle
          obtain ⟨⟨before, after⟩, hrest, hab⟩ := Option.map_eq_some_iff.mp h
          cases hab
          obtain ⟨rfl, hsize⟩ := ih hrest
          exact ⟨rfl, by rw [byteSize]; omega⟩
        · cases h
  · rintro ⟨rfl, rfl⟩
    exact splitAt?_append a b

theorem utf8ByteSize_ofList (s : Text) : (String.ofList s).utf8ByteSize = s.byteSize := by
  induction s with
  | nil => rfl
  | cons c s ih =>
    have hcons : String.ofList (c :: s) = String.singleton c ++ String.ofList s := by
      rw [String.singleton_eq_ofList, ← String.ofList_append]
      rfl
    rw [hcons, String.utf8ByteSize_append, String.utf8ByteSize_singleton, ih, byteSize]

/-- **The valid offsets of a text are the valid positions of the string.** -/
theorem isSome_splitAt? {n : Nat} {s : Text} :
    (s.splitAt? n).isSome ↔ (String.Pos.Raw.mk n).IsValid (String.ofList s) := by
  rw [String.Pos.Raw.isValid_iff_exists_append, Option.isSome_iff_exists]
  constructor
  · rintro ⟨⟨a, b⟩, h⟩
    obtain ⟨rfl, rfl⟩ := splitAt?_eq_some.mp h
    exact ⟨String.ofList a, String.ofList b, String.ofList_append,
      congrArg String.Pos.Raw.mk (utf8ByteSize_ofList a).symm⟩
  · rintro ⟨a, b, hs, hn⟩
    refine ⟨(a.toList, b.toList), splitAt?_eq_some.mpr ⟨?_, ?_⟩⟩
    · rw [← String.toList_append, ← hs, String.toList_ofList]
    · rw [← utf8ByteSize_ofList, String.ofList_toList]
      exact congrArg String.Pos.Raw.byteIdx hn

theorem slice?_append (a m b : Text) :
    (a ++ (m ++ b)).slice? a.byteSize (a ++ m).byteSize = some m := by
  rw [slice?, byteSize_append, if_pos (Nat.le_add_right ..), splitAt?_append,
    Nat.add_sub_cancel_left]
  show ((m ++ b).splitAt? m.byteSize).bind _ = _
  rw [splitAt?_append]
  rfl

/-- A slice is a part of the text, between the sizes of what stands before and after its
beginning. -/
theorem slice?_eq_some {s m : Text} {start stop : Nat} :
    s.slice? start stop = some m ↔
      ∃ a b, s = a ++ (m ++ b) ∧ start = a.byteSize ∧ stop = (a ++ m).byteSize := by
  constructor
  · intro h
    rw [slice?] at h
    split at h
    · rename_i hle
      obtain ⟨⟨a, rest⟩, ha, h⟩ := Option.bind_eq_some_iff.mp h
      obtain ⟨⟨m', b⟩, hm, h⟩ := Option.bind_eq_some_iff.mp h
      cases h
      obtain ⟨rfl, rfl⟩ := splitAt?_eq_some.mp ha
      obtain ⟨rfl, hsize⟩ := splitAt?_eq_some.mp hm
      exact ⟨a, b, rfl, rfl, by rw [byteSize_append]; omega⟩
    · cases h
  · rintro ⟨a, b, rfl, rfl, rfl⟩
    exact slice?_append a m b

/-- **A slice is there if its ends are valid positions of the string**, in order. -/
theorem isSome_slice? {s : Text} {start stop : Nat} : (s.slice? start stop).isSome ↔
    start ≤ stop ∧ (String.Pos.Raw.mk start).IsValid (String.ofList s) ∧
      (String.Pos.Raw.mk stop).IsValid (String.ofList s) := by
  rw [← isSome_splitAt?, ← isSome_splitAt?, Option.isSome_iff_exists, Option.isSome_iff_exists,
    Option.isSome_iff_exists]
  constructor
  · rintro ⟨m, h⟩
    obtain ⟨a, b, rfl, rfl, rfl⟩ := slice?_eq_some.mp h
    refine ⟨by rw [byteSize_append]; exact Nat.le_add_right .., ⟨_, splitAt?_append a _⟩, ?_⟩
    rw [← List.append_assoc]
    exact ⟨_, splitAt?_append (a ++ m) b⟩
  · rintro ⟨hle, ⟨⟨a, b⟩, hstart⟩, ⟨a', b'⟩, hstop⟩
    obtain ⟨rfl, rfl⟩ := splitAt?_eq_some.mp hstart
    obtain ⟨hs, rfl⟩ := splitAt?_eq_some.mp hstop
    rcases List.append_eq_append_iff.mp hs with ⟨m, rfl, rfl⟩ | ⟨m, rfl, rfl⟩
    · exact ⟨m, slice?_append a m b'⟩
    · obtain rfl : m = [] := by
        rw [← byteSize_eq_zero]
        rw [byteSize_append] at hle
        omega
      refine ⟨[], slice?_eq_some.mpr ⟨a', b, ?_, ?_, ?_⟩⟩ <;> simp

/-! ### Bytes -/

/-- The text in UTF-8. -/
def bytes (s : Text) : List UInt8 := s.flatMap String.utf8EncodeChar

theorem length_bytes (s : Text) : s.bytes.length = s.byteSize := by
  induction s with
  | nil => rfl
  | cons c s ih =>
    rw [bytes, List.flatMap_cons, List.length_append, String.length_utf8EncodeChar, ← bytes, ih]
    rfl

/-- A character ends in the byte of a space only if it is one. -/
theorem getLast?_utf8EncodeChar (c : Char) :
    ∃ byte, (String.utf8EncodeChar c).getLast? = some byte ∧ (byte = 0x20 ↔ c = ' ') := by
  have hspace : c = ' ' ↔ c.val.toNat = 0x20 := by
    rw [← Char.val_inj, ← UInt32.toNat_inj]
    rfl
  have hlater (n : Nat) : ¬UInt8.ofNat (n % 64 + 128) = 0x20 := by
    rw [← UInt8.toNat_inj]
    simp
    omega
  rw [hspace, String.utf8EncodeChar]
  split
  · refine ⟨UInt8.ofNat c.val.toNat, rfl, ?_⟩
    have hsmall : c.val.toNat % 2 ^ 8 = c.val.toNat := Nat.mod_eq_of_lt (by omega)
    rw [← UInt8.toNat_inj, UInt8.toNat_ofNat', hsmall]
    rfl
  · refine ⟨UInt8.ofNat (c.val.toNat % 64 + 128), ?_, iff_of_false (hlater _) (by omega)⟩
    split
    · rfl
    · split <;> rfl

/-- The byte before an offset is that of a space if the character there is one. -/
theorem exists_byte_before (a : Text) (c : Char) (b : Text) :
    ∃ byte, (a ++ c :: b).bytes[(a ++ [c]).byteSize - 1]? = some byte ∧
      (byte = 0x20 ↔ c = ' ') := by
  obtain ⟨byte, hlast, hbyte⟩ := getLast?_utf8EncodeChar c
  refine ⟨byte, ?_, hbyte⟩
  have hend : (a ++ [c]).bytes.getLast? = some byte := by
    simp [bytes, hlast]
  have hsplit : (a ++ c :: b).bytes = (a ++ [c]).bytes ++ b.bytes := by simp [bytes]
  have hpos : (a ++ [c]).bytes.length - 1 < (a ++ [c]).bytes.length := by
    refine Nat.sub_one_lt fun hnil => ?_
    rw [List.length_eq_zero_iff.mp hnil] at hend
    cases hend
  rw [hsplit, ← length_bytes, List.getElem?_append_left hpos, ← List.getLast?_eq_getElem?, hend]

end Text
end AccessRules
