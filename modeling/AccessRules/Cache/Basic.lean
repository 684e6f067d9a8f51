import AccessRules.Log.Parse
import Std.Data.TreeMap

/-! A cache of expressions by the text they were read from.

The cache holds a limited number of entries. When it is full and a new one arrives,
everything in it is dropped first. Compiling a text may itself use the cache; if the
text has got an entry by the time it is compiled, that entry is kept, and it is the
answer. Failures leave no entry. -/
namespace AccessRules

/-- The expressions read so far. -/
structure Cache where
  capacity : Nat
  entries : Std.TreeMap Text Expr

namespace Cache

/-- The capacity of a cache for which none is asked. -/
def defaultCapacity : Nat := 1024

/-- A cache without entries, for up to `limit` of them but at least for one. -/
def ofCapacity (limit : Nat) : Cache := ⟨max limit 1, ∅⟩

/-- The number of entries. -/
def size (c : Cache) : Nat := c.entries.size

/-- The entry of a text. -/
def get? (c : Cache) (text : Text) : Option Expr := c.entries[text]?

/-- The cache without the entry of a text. -/
def erase (c : Cache) (text : Text) : Cache := ⟨c.capacity, c.entries.erase text⟩

/-- The cache without entries. -/
def clear (c : Cache) : Cache := ⟨c.capacity, ∅⟩

/-- The cache with an entry for a text that had none. -/
def insert (c : Cache) (text : Text) (tree : Expr) : Cache :=
  ⟨c.capacity, c.entries.insert text tree⟩

open Logged (note)

/-- Gives a text an entry unless it has one; the answer is its entry. -/
def publish (c : Cache) (text : Text) (tree : Expr) : Logged (Expr × Cache) :=
  match c.get? text with
  | some kept => pure (kept, c)
  | none =>
    if c.size < c.capacity then pure (tree, c.insert text tree)
    else do
      note (.cacheFull c.size)
      return (tree, c.clear.insert text tree)

/-- What a use of the cache for one text comes to: what the compiling brought besides
the expression, if there was any compiling; the answer; and the cache afterwards. -/
structure Lookup (α : Type) where
  compiling : Option α
  answer : Except ParseError Expr
  cache : Cache

/-- The entry of a text, or what `compile` makes of the text and the cache if there is none. -/
def fetchWith {α : Type} (c : Cache) (text : Text)
    (compile : Text → Cache → Logged (α × Except ParseError Expr × Cache)) : Logged (Lookup α) :=
  match c.get? text with
  | some tree => do
    note (.cacheHit text)
    return ⟨none, .ok tree, c⟩
  | none => do
    note (.cacheMiss text)
    let (brought, result, c) ← compile text c
    match result with
    | .error error => return ⟨some brought, .error error, c⟩
    | .ok tree =>
      let (published, c) ← c.publish text tree
      return ⟨some brought, .ok published, c⟩

/-- The entry of a text, or what reading the text gives if there is none. -/
def fetch (c : Cache) (text : Text) : Logged (Lookup Unit) :=
  c.fetchWith text fun given c => do
    return ((), ← parseLogged given, c)

end Cache
end AccessRules
