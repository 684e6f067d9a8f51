import AccessRules.Call
import AccessRules.Lexeme.Tidy
import AccessRules.Params

/-! Reading a text as an expression.

A text is first put into tidy layout. A piece of it is then a group in parentheses,
whose inside is read in its place; or it is cut at an operator outside every group,
at the first `OR`, else at the first `AND`, else at the first `NOT`; or it is one
call. `OR` therefore binds loosest and `NOT` tightest, and a chain of one operator
nests to the right. Each group and each operator is a level of nesting, and there
is a limit to the levels. The first problem found is the answer. -/
namespace AccessRules

/-- The number of groups and operators that may stand around a call. -/
def maxNesting : Nat := 256

/-- The inside of a piece that is one group as a whole. -/
def wholeGroup? : List Placed → Option (List Placed)
  | [] => none
  | p :: rest =>
    if p.lexeme = .opening then
      match closeGroup? 0 rest with
      | some ⟨inside, _, []⟩ => some inside
      | _ => none
    else none

/-- What stands before and after the first keyword of `op` outside every group, when
`depth` groups are open before the piece. -/
def cutAt? (op : Op) : Nat → List Placed → Option (List Placed × List Placed)
  | _, [] => none
  | depth, p :: rest =>
    if depth = 0 ∧ p.lexeme.op? = some op then some ([], rest)
    else (cutAt? op ((p.lexeme.nest? depth).getD 0) rest).map fun (left, right) =>
      (p :: left, right)

/-- The operator a piece is cut at, with what stands before and after it. -/
def cut? (piece : List Placed) : Option (Op × List Placed × List Placed) :=
  [Op.or, Op.and, Op.not].findSome? fun op => (cutAt? op 0 piece).map (op, ·)

/-- Reads a piece that has to be one call of a known function. -/
def readCall (piece : List Placed) : Except ParseError Expr :=
  match piece with
  | ⟨_, .word name⟩ :: ⟨_, .opening⟩ :: rest =>
    match isName name, closeGroup? 0 rest with
    | true, some ⟨args, _, []⟩ =>
      match Check.ofName? name with
      | none => .error (.unknownFunction name)
      | some check =>
        if endsInLiteral args then .error (.unterminatedLiteral (phrase args))
        else match args.findSome? (·.lexeme.op?) with
          | some op => .error (.misplacedOperator op)
          | none => .ok (.call check (params args))
    | _, _ => .error (.invalidCall (phrase piece))
  | _ => .error (.invalidCall (phrase piece))

/-- Reads a piece in which `levels - 1` groups and operators may still stand around
a call. -/
def readPiece : (levels : Nat) → List Placed → Except ParseError Expr
  | 0, _ => .error (.nestingTooDeep maxNesting)
  | _ + 1, [] => .error .emptyGroup
  | levels + 1, piece =>
    match wholeGroup? piece with
    | some inside => readPiece levels inside
    | none =>
      match cut? piece with
      | none => readCall piece
      | some (.not, left, right) =>
        if left = [] ∧ right ≠ [] then return .not (← readPiece levels right)
        else .error (.misplacedOperator .not)
      | some (op, left, right) =>
        if left = [] ∨ right = [] then .error (.misplacedOperator op)
        else return .op op (← readPiece levels left) (← readPiece levels right)

theorem readPiece_group {n : Nat} {piece inside : List Placed}
    (h : wholeGroup? piece = some inside) : readPiece (n + 1) piece = readPiece n inside := by
  cases piece with
  | nil => cases h
  | cons p rest => simp only [readPiece, h]

theorem readPiece_call {n : Nat} {piece : List Placed} (hne : piece ≠ [])
    (hw : wholeGroup? piece = none) (hcut : cut? piece = none) :
    readPiece (n + 1) piece = readCall piece := by
  cases piece with
  | nil => exact absurd rfl hne
  | cons p rest => simp only [readPiece, hw, hcut]

/-- Reads a text as an expression. -/
def parse (s : Text) : Except ParseError Expr :=
  let ls := tidyLex s
  if ls = [] then .error .empty
  else match balance ls with
    | .balanced => readPiece (maxNesting + 1) ls
    | .openLiteral => .error (.unterminatedLiteral (render ls))
    | .unmatchedClose | .unmatchedOpen _ => .error .unbalancedParentheses

end AccessRules
