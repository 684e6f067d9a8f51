import AccessRules.Cache.Step
import AccessRules.Decision
import AccessRules.Report.Inspect

/-! Enforcers: rules compiled and decided under one configuration.

A strict enforcer compiles only what has no errors, and answers with all of them. A
lenient one answers with the first problem that reading finds. An enforcer may keep
what it has compiled in a cache. -/
namespace AccessRules

/-- How rules are compiled. -/
structure Config where
  cacheEnabled : Bool := true
  cacheCapacity : Nat := Cache.defaultCapacity
  strict : Bool := false
  deriving DecidableEq

namespace Config

open Logged (note)

/-- The empty cache that an enforcer of this configuration starts with. -/
def newCache? (config : Config) : Option Cache :=
  if config.cacheEnabled then some (.ofCapacity config.cacheCapacity) else none

/-- Compiles a text without looking at a cache. -/
def compileFresh (config : Config) (text : Text) : Logged (Except ParseError Expr) :=
  if config.strict then do
    let report ← inspectLogged text
    if report.valid then parseLogged text else return .error (.invalid report.errors)
  else parseLogged text

/-- Compiles a text, or takes it from the cache if there is one and it has it. -/
def compileIn (config : Config) (text : Text) :
    Option Cache → Logged (Except ParseError Expr × Option Cache)
  | none => do
    return (← config.compileFresh text, none)
  | some c => do
    let l ← c.fetchWith text fun given c => do
      return ((), ← config.compileFresh given, c)
    return (l.answer, some l.cache)

/-- Compiles a text as `compileIn` does, and notes a failure. -/
def compile (config : Config) (text : Text) (cache : Option Cache) :
    Logged (Except ParseError Expr × Option Cache) := do
  let (result, cache) ← config.compileIn text cache
  if let .error error := result then note (.compileFailed text error)
  return (result, cache)

end Config
end AccessRules
