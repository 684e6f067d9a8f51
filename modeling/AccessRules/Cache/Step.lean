import AccessRules.Cache.Basic

/-! Steps on a cache, as its users take them one after another.

A compiling step is given the text, and what it comes to can be anything that depends on the
text. It can have steps of its own, on the same cache, that come between the look-up and the
publishing: what other users do in the meantime. -/
namespace AccessRules.Cache

/-- One use of a cache. -/
inductive Step
  | get (text : Text)
  | fetch (text : Text)
  | fetchWith (text : Text) (meanwhile : List Step) (outcome : Text → Except ParseError Expr)
  | drop (text : Text)
  | clear
  | capacity

/-- What a step answers, with the number of entries after it. The steps taken in the
meantime have answers of their own. -/
inductive Reply
  | found (tree : Option Expr) (size : Nat)
  | parsed (answer : Except ParseError Expr) (size : Nat)
  | compiled (ran : Bool) (meanwhile : List Reply) (answer : Except ParseError Expr) (size : Nat)
  | dropped (removed : Bool) (size : Nat)
  | cleared (size : Nat)
  | capacity (limit size : Nat)

/-- The number of entries after the step. -/
def Reply.size : Reply → Nat
  | found _ n | parsed _ n | compiled _ _ _ n | dropped _ n | cleared n | capacity _ n => n

mutual

/-- Takes one step. -/
def step : Step → Cache → Logged (Reply × Cache)
  | .get text, c => pure (.found (c.get? text) c.size, c)
  | .fetch text, c => do
    let l ← c.fetch text
    return (.parsed l.answer l.cache.size, l.cache)
  | .fetchWith text meanwhile outcome, c => do
    let l ← c.fetchWith text fun given c => do
      let (replies, c) ← run meanwhile c
      return (replies, outcome given, c)
    return (.compiled l.compiling.isSome (l.compiling.getD []) l.answer l.cache.size, l.cache)
  | .drop text, c =>
    let after := c.erase text
    pure (.dropped (c.get? text).isSome after.size, after)
  | .clear, c => pure (.cleared c.clear.size, c.clear)
  | .capacity, c => pure (.capacity c.capacity c.size, c)

/-- Takes steps in order. -/
def run : List Step → Cache → Logged (List Reply × Cache)
  | [], c => pure ([], c)
  | s :: rest, c => do
    let (reply, c) ← step s c
    let (replies, c) ← run rest c
    return (reply :: replies, c)

end

end AccessRules.Cache
