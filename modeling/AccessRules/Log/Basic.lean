import AccessRules.ParseError

/-! The log: what the library reports while it works.

`Logged α` is an `α` together with the entries noted on the way to it, oldest first.
Nothing ever reads the log, so values do not depend on it. -/
namespace AccessRules

/-- How much an entry matters. -/
inductive LogLevel
  | trace
  | debug
  | warn
  deriving DecidableEq

/-- The level's name. -/
def LogLevel.name : LogLevel → String
  | trace => "TRACE"
  | debug => "DEBUG"
  | warn => "WARN"

/-- Something worth reporting. -/
inductive LogEntry
  | parsed (text : Text) (nodeCount : Nat)
  | cacheHit (text : Text)
  | cacheMiss (text : Text)
  | cacheFull (size : Nat)
  | evaluating (check : Check) (params : List Text)
  | tooFewParameters (check : Check) (got : Nat)
  | notWithoutOperand
  | missingOperand
  | compileFailed (text : Text) (error : ParseError)
  deriving DecidableEq

namespace LogEntry

/-- The level the entry is reported at. -/
def level : LogEntry → LogLevel
  | parsed _ _ | cacheHit _ | cacheMiss _ | cacheFull _ => .debug
  | evaluating _ _ => .trace
  | tooFewParameters _ _ | notWithoutOperand | missingOperand | compileFailed _ _ => .warn

/-- The entry in words. -/
def message : LogEntry → String
  | parsed text n => s!"parsed permission expression '{text.shown}' ({n} nodes)"
  | cacheHit text => s!"expression cache hit for '{text.shown}'"
  | cacheMiss text => s!"expression cache miss for '{text.shown}'"
  | cacheFull n => s!"expression cache full ({n} entries), clearing"
  | evaluating check params =>
    s!"evaluating {check.name}(" ++ String.intercalate ", " (params.map Text.shown) ++ ")"
  | tooFewParameters check got =>
    s!"{check.name} expects {check.arity} parameter(s) but got {got}, denying"
  | notWithoutOperand => "NOT node without an operand, denying"
  | missingOperand => "logical operator missing an operand, treating it as false"
  | compileFailed text error =>
    s!"failed to compile permission expression '{text.shown}': {error.message}"

end LogEntry

/-- A value and the entries noted on the way to it. -/
structure Logged (α : Type) where
  value : α
  log : List LogEntry

namespace Logged

/-- Notes one entry. -/
def note (entry : LogEntry) : Logged Unit := ⟨(), [entry]⟩

instance : Monad Logged where
  pure a := ⟨a, []⟩
  bind m f :=
    let r := f m.value
    ⟨r.value, m.log ++ r.log⟩

variable {α β : Type}

@[simp]
theorem value_pure (a : α) : (pure a : Logged α).value = a := rfl

@[simp]
theorem log_pure (a : α) : (pure a : Logged α).log = [] := rfl

@[simp]
theorem value_bind (m : Logged α) (f : α → Logged β) : (m >>= f).value = (f m.value).value := rfl

@[simp]
theorem log_bind (m : Logged α) (f : α → Logged β) :
    (m >>= f).log = m.log ++ (f m.value).log := rfl

@[simp]
theorem log_note (entry : LogEntry) : (note entry).log = [entry] := rfl

end Logged
end AccessRules
