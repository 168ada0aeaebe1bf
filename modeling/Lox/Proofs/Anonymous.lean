import Lox.Tree

/-! Syntax trees without ids.
Two trees agree up to the ids of uses if their anonymous trees are equal. -/
namespace Lox

mutual

def Expr.anonymous : Expr → Expr
  | .literal value => .literal value
  | .group inner => .group inner.anonymous
  | .unary op operand => .unary op operand.anonymous
  | .binary left op right => .binary left.anonymous op right.anonymous
  | .logical left op right => .logical left.anonymous op right.anonymous
  | .use _ name => .use 0 name
  | .assign _ name value => .assign 0 name value.anonymous
  | .call callee args paren => .call callee.anonymous (Expr.allAnonymous args) paren

def Expr.allAnonymous : List Expr → List Expr
  | [] => []
  | e :: es => e.anonymous :: Expr.allAnonymous es

end

mutual

def Stmt.anonymous : Stmt → Stmt
  | .expression e => .expression e.anonymous
  | .print e => .print e.anonymous
  | .var name init => .var name (init.map Expr.anonymous)
  | .block body => .block (Stmt.allAnonymous body)
  | .branch condition consequent none => .branch condition.anonymous consequent.anonymous none
  | .branch condition consequent (some alternative) =>
    .branch condition.anonymous consequent.anonymous (some alternative.anonymous)
  | .loop condition body => .loop condition.anonymous body.anonymous
  | .function name params body => .function name params (Stmt.allAnonymous body)
  | .ret keyword value => .ret keyword (value.map Expr.anonymous)

def Stmt.allAnonymous : List Stmt → List Stmt
  | [] => []
  | s :: ss => s.anonymous :: Stmt.allAnonymous ss

end

def Program.anonymous (p : Program) : Program := Stmt.allAnonymous p

/-- A `for` loop is rewritten in the same way with ids and without. -/
theorem Stmt.anonymous_forLoop (init : Option Stmt) (condition increment : Option Expr)
    (body : Stmt) : (forLoop init condition increment body).anonymous =
      forLoop (init.map anonymous) (condition.map Expr.anonymous) (increment.map Expr.anonymous)
        body.anonymous := by
  cases init <;> cases condition <;> cases increment <;> rfl

end Lox
