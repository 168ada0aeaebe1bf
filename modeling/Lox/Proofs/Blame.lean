import Lox.Proofs.Observation

/-! Runs that name a culprit.
A traced run knows which program declared each function. If it fails, it names the expression whose
operation failed, the program in which that expression stands, and the operands. -/
namespace Lox

/-- The token that gives an error of the expression itself its line. -/
def Expr.mark? : Expr → Option Token
  | .unary op _ => some op
  | .binary _ op _ => some op
  | .use _ name => some name
  | .assign _ name _ => some name
  | .call _ _ paren => some paren
  | _ => none

namespace Blame

/-- An expression whose operation failed. -/
structure Culprit where
  /-- The number of the program that the expression stands in. -/
  program : Nat
  expr : Expr
  /-- What the operation was applied to. -/
  operands : List Value

/-- For each function the number of the program that declared it is kept, and the culprit is noted. -/
abbrev Traced : Type := Observed Nat (Option Culprit)

abbrev Traced.origin (s : Traced) : FunctionId → Nat := s.kept

abbrev Traced.culprit (s : Traced) : Option Culprit := s.notes

abbrev Run : Type → Type := Computation Traced

/-- Names a culprit, unless there is one. A place is known by the number of its program. -/
def observer : Observer Nat Nat Nat (Option Culprit) where
  expression _ _ _ _ culprit := culprit
  write _ _ _ _ _ culprit := culprit
  fault program e operands culprit := culprit.or (some ⟨program, e, operands⟩)
  statement _ _ _ _ culprit := culprit
  behind program _ := program
  operand program := program
  initializer program _ := program
  returned program _ := program
  block program := program
  behindCondition program _ := program
  behindStatement program _ := program
  function program _ := program
  body program _ := program

abbrev blame {α : Type} (culprit : Culprit) (x : Run α) : Run α :=
  Observer.onFault (fun named => named.or (some culprit)) x

section

variable (σ : Setting) (call : Value → List Value → UInt32 → Run Value) (program : Nat)

abbrev evaluate (env : EnvironmentId) (e : Expr) : Run Value :=
  observer.evaluate σ call program env e

abbrev evaluateAll (env : EnvironmentId) (es : List Expr) : Run (List Value) :=
  observer.evaluateAll σ call program env es

variable (rounds : Nat)

abbrev execute (env : EnvironmentId) (s : Stmt) : Run Flow :=
  observer.execute σ call rounds program env s

abbrev executeAll (env : EnvironmentId) (ss : List Stmt) : Run Flow :=
  observer.executeAll σ call rounds program env ss

end

abbrev call (σ : Setting) (depth : Nat) : Value → List Value → UInt32 → Run Value :=
  observer.call σ depth

abbrev runProgram (σ : Setting) (budget program : Nat) (p : Program) : Run Unit :=
  observer.runProgram σ budget program p

end Blame
end Lox
