import Lox.Tree

/-! Source text of syntax trees.
Operator expressions are always parenthesized, so that no precedence is needed to read them, and
a parenthesized operator expression gets no second pair. -/
namespace Lox

/-- Whether the text of an expression brings its own parentheses. -/
def Expr.isOperator : Expr → Bool
  | .unary .. | .binary .. | .logical .. | .assign .. => true
  | _ => false

/-- An infinite number is written as a numeral that is too large. -/
def Literal.source : Literal → String
  | .nil => "nil"
  | .bool b => if b then "true" else "false"
  | .number x =>
    if Number.isInfinite x then .ofList ('1' :: List.replicate 309 '0') else Number.text x
  | .string s => "\"" ++ s ++ "\""

def commaSeparated (texts : List String) : String := ", ".intercalate texts

mutual

def Expr.source : Expr → String
  | .literal value => value.source
  | .group inner => if inner.isOperator then inner.source else "(" ++ inner.source ++ ")"
  | .unary op operand => "(" ++ op.lexeme ++ operand.source ++ ")"
  | .binary left op right => "(" ++ left.source ++ " " ++ op.lexeme ++ " " ++ right.source ++ ")"
  | .logical left op right => "(" ++ left.source ++ " " ++ op.lexeme ++ " " ++ right.source ++ ")"
  | .use _ name => name.lexeme
  | .assign _ name value => "(" ++ name.lexeme ++ " = " ++ value.source ++ ")"
  | .call callee args _ => callee.source ++ "(" ++ commaSeparated (Expr.sources args) ++ ")"

def Expr.sources : List Expr → List String
  | [] => []
  | e :: es => e.source :: Expr.sources es

end

def newLine (depth : Nat) : String := .ofList ('\n' :: List.replicate (4 * depth) ' ')

def braces (depth : Nat) (texts : List String) : String :=
  if texts.isEmpty then "\x7b\x7d"
  else "\x7b" ++ String.join (texts.map (newLine (depth + 1) ++ ·)) ++ newLine depth ++ "\x7d"

/-- An `if` that would take a following `else` for itself. -/
def Stmt.takesElse : Stmt → Bool
  | .branch _ _ none => true
  | _ => false

mutual

/-- The text of a statement whose first line is indented already. Braces keep the `else` of an
`if` from a nested one. -/
def Stmt.source (depth : Nat) : Stmt → String
  | .expression e => e.source ++ ";"
  | .print e => "print " ++ e.source ++ ";"
  | .var name none => "var " ++ name.lexeme ++ ";"
  | .var name (some init) => "var " ++ name.lexeme ++ " = " ++ init.source ++ ";"
  | .block body => braces depth (Stmt.sources (depth + 1) body)
  | .branch condition consequent none =>
    "if (" ++ condition.source ++ ") " ++ consequent.source depth
  | .branch condition consequent (some alternative) =>
    let first :=
      if consequent.takesElse then braces depth [consequent.source (depth + 1)]
      else consequent.source depth
    "if (" ++ condition.source ++ ") " ++ first ++ " else " ++ alternative.source depth
  | .loop condition body => "while (" ++ condition.source ++ ") " ++ body.source depth
  | .function name params body =>
    "fun " ++ name.lexeme ++ "(" ++ commaSeparated (params.map Token.lexeme) ++ ") " ++
      braces depth (Stmt.sources (depth + 1) body)
  | .ret _ none => "return;"
  | .ret _ (some value) => "return " ++ value.source ++ ";"

def Stmt.sources (depth : Nat) : List Stmt → List String
  | [] => []
  | s :: ss => s.source depth :: Stmt.sources depth ss

end

def Program.source (p : Program) : String := String.join ((Stmt.sources 0 p).map (· ++ "\n"))

end Lox
