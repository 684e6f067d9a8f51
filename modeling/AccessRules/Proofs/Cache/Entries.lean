import AccessRules.Cache.Step

/-! What the entries of a cache are.

`Holds P` says that every entry is one that `P` allows for its text. Dropping entries
keeps it, and publishing keeps it when the published tree is allowed. A compiling that
leaves the cache alone, and agrees with the entries there are, is answered as if there
were no cache (`Holds.fetchWith`). Of any other, `first_tree_wins` says what it leaves. -/
namespace AccessRules

theorem value_parseLogged (text : Text) : (parseLogged text).value = parse text := by
  unfold parseLogged
  cases parse text <;> rfl

namespace Cache

/-- Reading a text, as a compiling that leaves the cache alone. -/
theorem value_reading (text : Text) (c : Cache) :
    Logged.value (do return ((), ← parseLogged text, c)) = ((), parse text, c) := by
  simp only [Logged.value_bind, Logged.value_pure, value_parseLogged]

/-! ### Entries by text -/

section Entries
variable (c : Cache) (text other : Text) (tree : Expr)

theorem get?_ofCapacity (limit : Nat) : (ofCapacity limit).get? text = none := by
  simp [ofCapacity, get?]

theorem get?_clear : c.clear.get? text = none := by
  simp [clear, get?]

theorem get?_erase : (c.erase text).get? other = if text = other then none else c.get? other := by
  simp [erase, get?, Std.TreeMap.getElem?_erase]

theorem get?_insert :
    (c.insert text tree).get? other = if text = other then some tree else c.get? other := by
  simp [insert, get?, Std.TreeMap.getElem?_insert]

end Entries

/-- Every entry is one that `P` allows for its text. -/
def Holds (P : Text → Expr → Prop) (c : Cache) : Prop :=
  ∀ text tree, c.get? text = some tree → P text tree

namespace Holds
variable {P : Text → Expr → Prop} {c : Cache}

theorem ofCapacity (limit : Nat) : (ofCapacity limit).Holds P := by
  intro text tree h
  rw [get?_ofCapacity] at h
  cases h

theorem clear (c : Cache) : c.clear.Holds P := by
  intro text tree h
  rw [get?_clear] at h
  cases h

theorem erase (h : c.Holds P) (text : Text) : (c.erase text).Holds P := by
  intro other tree hget
  rw [get?_erase] at hget
  split at hget
  · cases hget
  · exact h other tree hget

theorem insert (h : c.Holds P) {text : Text} {tree : Expr} (hp : P text tree) :
    (c.insert text tree).Holds P := by
  intro other tree' hget
  rw [get?_insert] at hget
  split at hget
  · rename_i heq
    cases hget
    exact heq ▸ hp
  · exact h other tree' hget

end Holds

/-! ### Publishing -/

section Publish
variable {c : Cache} {text : Text}

/-- The first tree published for a text stays. -/
theorem publish_of_some {kept : Expr} (h : c.get? text = some kept) (tree : Expr) :
    (c.publish text tree).value = (kept, c) := by
  simp only [publish, h]
  rfl

/-- A text without an entry gets one, in a cache that is emptied first if it is full. -/
theorem publish_of_none (h : c.get? text = none) (tree : Expr) :
    (c.publish text tree).value =
      (tree, (if c.size < c.capacity then c else c.clear).insert text tree) := by
  simp only [publish, h]
  split <;> rfl

/-- What is published is the entry afterwards. -/
theorem get?_publish (c : Cache) (text : Text) (tree : Expr) :
    (c.publish text tree).value.2.get? text = some (c.publish text tree).value.1 := by
  cases hget : c.get? text with
  | some kept =>
    rw [publish_of_some hget]
    exact hget
  | none =>
    rw [publish_of_none hget, get?_insert, if_pos rfl]

theorem Holds.publish {P : Text → Expr → Prop} (h : c.Holds P) {tree : Expr} (hp : P text tree) :
    (c.publish text tree).value.2.Holds P := by
  cases hget : c.get? text with
  | some kept =>
    rw [publish_of_some hget]
    exact h
  | none =>
    rw [publish_of_none hget]
    refine Holds.insert ?_ hp
    split
    · exact h
    · exact Holds.clear c

end Publish

/-! ### Compiling -/

section Compile
variable {α : Type} {c : Cache} {text : Text}
  {compile : Text → Cache → Logged (α × Except ParseError Expr × Cache)}

theorem fetchWith_of_some {tree : Expr} (h : c.get? text = some tree) :
    (c.fetchWith text compile).value = ⟨none, .ok tree, c⟩ := by
  simp only [fetchWith, h]
  rfl

theorem fetchWith_error {brought : α} {error : ParseError} {after : Cache}
    (h : c.get? text = none) (hc : (compile text c).value = (brought, .error error, after)) :
    (c.fetchWith text compile).value = ⟨some brought, .error error, after⟩ := by
  simp only [fetchWith, h, Logged.value_bind, hc, Logged.value_pure]

theorem fetchWith_ok {brought : α} {tree : Expr} {after : Cache}
    (h : c.get? text = none) (hc : (compile text c).value = (brought, .ok tree, after)) :
    (c.fetchWith text compile).value =
      ⟨some brought, .ok (after.publish text tree).value.1,
        (after.publish text tree).value.2⟩ := by
  simp only [fetchWith, h, Logged.value_bind, hc, Logged.value_pure]

/-- When the entries are those that compiling gives, and compiling leaves the cache
alone, the cache cannot be told from the answer. -/
theorem Holds.fetchWith {P : Text → Expr → Prop} (h : c.Holds P) {brought : α}
    {result : Except ParseError Expr} (hc : (compile text c).value = (brought, result, c))
    (hresult : ∀ tree, P text tree ↔ result = .ok tree) :
    (c.fetchWith text compile).value.answer = result ∧
      (c.fetchWith text compile).value.cache.Holds P := by
  cases hget : c.get? text with
  | some tree =>
    rw [fetchWith_of_some hget]
    exact ⟨((hresult tree).mp (h text tree hget)).symm, h⟩
  | none =>
    cases result with
    | error error =>
      rw [fetchWith_error hget hc]
      exact ⟨rfl, h⟩
    | ok tree =>
      rw [fetchWith_ok hget hc]
      refine ⟨?_, h.publish ((hresult tree).mpr rfl)⟩
      rw [publish_of_none hget]

/-- A tree that is answered is the entry of the text afterwards. -/
theorem get?_fetchWith {tree : Expr} (h : (c.fetchWith text compile).value.answer = .ok tree) :
    (c.fetchWith text compile).value.cache.get? text = some tree := by
  obtain ⟨⟨brought, result, left⟩, hc⟩ : ∃ r, (compile text c).value = r := ⟨_, rfl⟩
  cases hget : c.get? text with
  | some kept =>
    rw [fetchWith_of_some hget] at h ⊢
    cases h
    exact hget
  | none =>
    cases result with
    | error error =>
      rw [fetchWith_error hget hc] at h
      cases h
    | ok made =>
      rw [fetchWith_ok hget hc] at h ⊢
      cases h
      exact get?_publish left text made

/-- The compiling is done for a text without an entry, and for no other. -/
theorem compiling_fetchWith : (c.fetchWith text compile).value.compiling =
    if c.get? text = none then some (compile text c).value.1 else none := by
  obtain ⟨⟨brought, result, left⟩, hc⟩ : ∃ r, (compile text c).value = r := ⟨_, rfl⟩
  cases hget : c.get? text with
  | some kept =>
    rw [fetchWith_of_some hget]
    rfl
  | none =>
    rw [hc]
    cases result with
    | error error =>
      rw [fetchWith_error hget hc]
      rfl
    | ok tree =>
      rw [fetchWith_ok hget hc]
      rfl

/-- A compiling that fails adds nothing to what it did to the cache. -/
theorem cache_fetchWith_of_error {brought : α} {error : ParseError} {left : Cache}
    (hc : (compile text c).value = (brought, .error error, left)) :
    (c.fetchWith text compile).value.cache = if c.get? text = none then left else c := by
  cases hget : c.get? text with
  | some kept =>
    rw [fetchWith_of_some hget]
    rfl
  | none =>
    rw [fetchWith_error hget hc]
    rfl

end Compile

/-! ### The first tree wins -/

/-- **A use of the cache answers what is then in it, and the first tree wins.** A text is
compiled when it has no entry, whatever the compiling does to the cache in the meantime, and
what is compiled is this text. A
tree that is answered is the entry afterwards. When the compiling fails, the cache stays as
it left it. When it succeeds and the text has got an entry by then, that entry is the answer
and nothing changes; otherwise the new tree is the answer, and the other entries stay if
there is room for one more and are dropped if there is none. -/
theorem first_tree_wins {α : Type} (c : Cache) (text : Text)
    (compile : Text → Cache → Logged (α × Except ParseError Expr × Cache)) :
    let l := (c.fetchWith text compile).value
    let brought := (compile text c).value.1
    let result := (compile text c).value.2.1
    let left := (compile text c).value.2.2
    l.compiling = (if c.get? text = none then some brought else none) ∧
    (∀ kept, c.get? text = some kept → l.answer = .ok kept ∧ l.cache = c) ∧
    (∀ tree, l.answer = .ok tree → l.cache.get? text = some tree) ∧
    (c.get? text = none →
      (∀ error, result = .error error → l.answer = .error error ∧ l.cache = left) ∧
      ∀ tree, result = .ok tree →
        (∀ first, left.get? text = some first → l.answer = .ok first ∧ l.cache = left) ∧
        (left.get? text = none → l.answer = .ok tree ∧ ∀ other, other ≠ text →
          l.cache.get? other = if left.size < left.capacity then left.get? other else none)) := by
  intro l brought result left
  refine ⟨compiling_fetchWith, fun kept hget => ?_, fun tree => get?_fetchWith,
    fun hget => ⟨fun error herror => ?_, fun tree htree => ?_⟩⟩
  · simp only [l, fetchWith_of_some hget, and_self]
  · have hc : (compile text c).value = (brought, .error error, left) := by rw [← herror]
    simp only [l, fetchWith_error hget hc, and_self]
  · have hc : (compile text c).value = (brought, .ok tree, left) := by rw [← htree]
    simp only [l, fetchWith_ok hget hc]
    refine ⟨fun first hfirst => ?_, fun hnone => ?_⟩
    · rw [publish_of_some hfirst]
      exact ⟨rfl, rfl⟩
    · rw [publish_of_none hnone]
      refine ⟨rfl, fun other hother => ?_⟩
      rw [get?_insert, if_neg (Ne.symm hother)]
      split
      · rfl
      · exact get?_clear left other

theorem first_tree_wins_in_full_cache :
    let a := "hasRole(a)".toList
    let b := "hasRole(b)".toList
    let tree := Expr.call .role ["b".toList]
    let compile (given : Text) (c : Cache) :
        Logged (List Reply × Except ParseError Expr × Cache) := do
      let (replies, c) ← run [.fetch a] c
      return (replies, parse given, c)
    let c := ofCapacity 0
    let left := (compile b c).value.2.2
    c.get? b = none ∧ left.get? b = none ∧ left.get? a ≠ none ∧ ¬left.size < left.capacity ∧
      (c.fetchWith b compile).value.answer = .ok tree ∧
      (c.fetchWith b compile).value.cache.get? a = none := by
  intro a b tree compile c left
  have hmiss : c.get? b = none := get?_ofCapacity b 0
  have hparse : parse b = .ok tree := rfl
  have hleft : left.get? b = none := by decide +kernel
  have hfull : ¬left.size < left.capacity := by decide +kernel
  obtain ⟨hanswer, hothers⟩ := (((first_tree_wins c b compile).2.2.2 hmiss).2 tree hparse).2 hleft
  refine ⟨hmiss, hleft, by decide +kernel, hfull, hanswer, ?_⟩
  rw [hothers a (by decide), if_neg hfull]

end Cache
end AccessRules
