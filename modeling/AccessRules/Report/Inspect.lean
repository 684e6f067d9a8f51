import AccessRules.Log.Parse
import AccessRules.Report.Basic

/-! Inspection: finding everything that is wrong with a rule, not only the first thing.

Three passes over the tidy layout look at the parentheses, at each call, and at the
neighbours of each operator. Only if they find no fault is the text read as an
expression, and what the reading says is then the one fault there is. -/
namespace AccessRules

/-- What is wrong with the parentheses. -/
def balanceFaults (ls : List Placed) : List Fault :=
  match balance ls with
  | .balanced => []
  | .unmatchedClose => [.unmatchedClose]
  | .unmatchedOpen count => [.unmatchedOpen count]
  | .openLiteral => [.openLiteral]

namespace Call

/-- What is wrong with a call. One that is never closed is a fault of the parentheses. -/
def faults (c : Call) : List Fault :=
  match Check.ofName? c.name, c.args with
  | none, _ => [.unknownFunction c.name]
  | some _, none => []
  | some _, some args =>
    match paramsIn args with
    | .error _ => [.malformedArguments c.name args]
    | .ok _ => []

/-- What is suspicious about the parameters of a check, which are written `args`. -/
def paramWarnings (check : Check) (args : Text) (params : List Text) : List Warning :=
  (if params.length < check.arity then [.tooFew check params.length]
    else if check.arity < params.length then [.tooMany check params.length]
    else []) ++
  if [] ∈ params then [.emptyParameter check args] else []

/-- What is suspicious about a call. -/
def warnings (c : Call) : List Warning :=
  match Check.ofName? c.name, c.args with
  | some check, some args =>
    match paramsIn args with
    | .error _ => []
    | .ok params => paramWarnings check args params
  | _, _ => []

end Call

/-- Whether an operand can end with the lexeme. -/
def Lexeme.endsOperand (l : Lexeme) : Bool := l != .opening && l.op?.isNone

/-- Whether an operand can begin with the lexeme. -/
def Lexeme.beginsOperand (l : Lexeme) : Bool :=
  l != .closing && (l.op?.isNone || l.op? == some .not)

/-- What is wrong with an operator between these neighbours. -/
def Op.faults (before after : Option Lexeme) (op : Op) : List Fault :=
  let hasLeft := before.any Lexeme.endsOperand
  let hasRight := after.any Lexeme.beginsOperand
  match op with
  | .not => (if hasLeft then [.notAfterOperand] else []) ++
      if hasRight then [] else [.notWithoutOperand]
  | op => (if hasLeft then [] else [.missingLeft op]) ++
      if hasRight then [] else [.missingRight op]

/-- What is wrong with the operators among lexemes that follow `before`. -/
def operatorFaults (before : Option Lexeme) : List Placed → List Fault
  | [] => []
  | p :: rest =>
    (match p.lexeme.op? with
      | none => []
      | some op => op.faults before (rest.head?.map (·.lexeme))) ++
    operatorFaults (some p.lexeme) rest

/-- What the three passes find wrong. -/
def structureFaults (ls : List Placed) : List Fault :=
  balanceFaults ls ++ (callsFrom 0 ls).flatMap Call.faults ++ operatorFaults none ls

/-- What is suspicious about the calls. -/
def callWarnings (ls : List Placed) : List Warning := (callsFrom 0 ls).flatMap Call.warnings

/-- The faults of a text. -/
def faults (s : Text) : List Fault :=
  let ls := tidyLex s
  if ls = [] then [.empty]
  else match structureFaults ls with
    | [] => match parse s with
      | .ok _ => []
      | .error error => [.unreadable error]
    | found => found

/-- Everything found in a text. -/
def inspect (s : Text) : Report :=
  ⟨(faults s).map Fault.message, (callWarnings (tidyLex s)).map Warning.message⟩

/-- Everything found in a text; the reading at the end is noted in the log. -/
def inspectLogged (s : Text) : Logged Report := do
  let ls := tidyLex s
  if ls ≠ [] ∧ structureFaults ls = [] then
    let _ ← parseLogged s
  return inspect s

end AccessRules
