import Lox.Proofs.Direct.Tree
import Lox.Session

/-! Loops that run as they are written.
Direct programs run on the same stores. A name means its declaration in the innermost scope around
it, counted in scopes of the text, and a `for` loop is executed by a rule of its own: its header is
one scope, entered once, in which condition and increment are evaluated and the body is executed
(`execute`). -/
namespace Lox
namespace Direct

/-- The names that the scopes around a piece of text declare so far, innermost first. -/
abbrev Scopes := List (List String)

namespace Scopes

/-- Declare a name in the innermost scope. Outside of all scopes names are not tracked. -/
def enter (ρ : Scopes) (x : String) : Scopes :=
  match ρ with
  | [] => []
  | names :: outer => (x :: names) :: outer

def depth? (ρ : Scopes) (x : String) : Option Nat := ρ.findIdx? (x ∈ ·)

def locate (ρ : Scopes) (env : EnvironmentId) (x : String) : EnvironmentId × Nat :=
  match ρ.depth? x with
  | some depth => (env, depth)
  | none => (globals, 0)

end Scopes

/-- The scopes around what follows a declaration. -/
def Declaration.scopes (ρ : Scopes) : Declaration → Scopes
  | .var name _ | .function name _ _ => ρ.enter name.lexeme
  | .statement _ => ρ

/-- The body of a function, and the scopes around its declaration, its own name included. -/
structure Code where
  around : Scopes
  body : List Declaration

/-- The state of a run. Function objects are kept without their bodies in the store. -/
structure State where
  run : Lox.State
  code : FunctionId → Code

abbrev Run : Type → Type := Computation State

def lift {α : Type} (x : Lox.Run α) : Run α := fun s =>
  match x s.run with
  | .done a run => .done a { s with run }
  | .failed e run => .failed e { s with run }
  | .unfinished run => .unfinished { s with run }

def keepCode (f : FunctionId) (c : Code) : Run Unit := fun s =>
  .done () { s with code := fun g => if g = f then c else s.code g }

/-- A `for` loop in the scope of its header: rounds of the body and, after each body that does not
return, of the increment. -/
def forRounds (condition : Run Value) (body : Run Flow) (increment : Run Unit) (rounds : Nat) :
    Run Flow :=
  repeatWhile condition (do
    match ← body with
    | .next =>
      increment
      pure .next
    | .returned v => pure (.returned v)) rounds

section

variable (call : Value → List Value → UInt32 → Run Value)

mutual

def evaluate (ρ : Scopes) (env : EnvironmentId) : Expr → Run Value
  | .literal value => pure (.ofLiteral value)
  | .group inner => evaluate ρ env inner
  | .unary op operand => do
    let v ← evaluate ρ env operand
    .ofExcept (unaryOperation op v)
  | .binary left op right => do
    let l ← evaluate ρ env left
    let r ← evaluate ρ env right
    .ofExcept (binaryOperation op l r)
  | .logical left op right => do
    let l ← evaluate ρ env left
    if decides op l then pure l else evaluate ρ env right
  | .use _ name =>
    lift (.read (ρ.locate env name.lexeme).1 (ρ.locate env name.lexeme).2 name)
  | .assign _ name value => do
    let v ← evaluate ρ env value
    lift (.assign (ρ.locate env name.lexeme).1 (ρ.locate env name.lexeme).2 name v)
    pure v
  | .call callee args paren => do
    let f ← evaluate ρ env callee
    let vs ← evaluateAll ρ env args
    call f vs paren.line

def evaluateAll (ρ : Scopes) (env : EnvironmentId) : List Expr → Run (List Value)
  | [] => pure []
  | e :: es => do
    let v ← evaluate ρ env e
    let vs ← evaluateAll ρ env es
    pure (v :: vs)

end

/-- Declare a variable. A name is in scope in its own initializer. -/
def declareVariable (ρ : Scopes) (env : EnvironmentId) (name : Token) : Option Expr → Run Unit
  | none => lift (.define env name.lexeme .nil)
  | some init => do
    let v ← evaluate call (ρ.enter name.lexeme) env init
    lift (.define env name.lexeme v)

/-- Enter the header of a `for` loop: if it has a first clause, make a scope for it and run the
clause there. -/
def enterHeader (ρ : Scopes) (env : EnvironmentId) : Option Init → Run (Scopes × EnvironmentId)
  | none => pure (ρ, env)
  | some (.var name init) => do
    let header ← lift (.enter env)
    declareVariable call ([] :: ρ) header name init
    pure (Scopes.enter ([] :: ρ) name.lexeme, header)
  | some (.expression e) => do
    let header ← lift (.enter env)
    let _ ← evaluate call ([] :: ρ) header e
    pure ([] :: ρ, header)

variable (rounds : Nat)

mutual

def declare (ρ : Scopes) (env : EnvironmentId) : Declaration → Run Flow
  | .var name init => do
    declareVariable call ρ env name init
    pure .next
  | .function name params body => do
    let f ← lift (.allocate (.declared name params [] env))
    keepCode f ⟨ρ.enter name.lexeme, body⟩
    lift (.define env name.lexeme (.function f))
    pure .next
  | .statement s => execute ρ env s

def execute (ρ : Scopes) (env : EnvironmentId) : Statement → Run Flow
  | .expression e => do
    let _ ← evaluate call ρ env e
    pure .next
  | .print e => do
    let v ← evaluate call ρ env e
    let text ← Computation.inspect (·.run.store.text v)
    lift (.write text)
    lift (.write "\n")
    pure .next
  | .block body => do
    let inner ← lift (.enter env)
    declareAll ([] :: ρ) inner body
  | .branch condition consequent none => do
    let v ← evaluate call ρ env condition
    if v.isTruthy then execute ρ env consequent else pure .next
  | .branch condition consequent (some alternative) => do
    let v ← evaluate call ρ env condition
    if v.isTruthy then execute ρ env consequent else execute ρ env alternative
  | .loop condition body => repeatWhile (evaluate call ρ env condition) (execute ρ env body) rounds
  | .forLoop init condition increment body => do
    let (ρ, env) ← enterHeader call ρ env init
    forRounds (condition.elim (pure (.bool true)) (evaluate call ρ env)) (execute ρ env body)
      (increment.elim (pure ()) fun e => do
        let _ ← evaluate call ρ env e
        pure ()) rounds
  | .ret _ none => pure (.returned .nil)
  | .ret _ (some value) => do
    let v ← evaluate call ρ env value
    pure (.returned v)

/-- Execute declarations up to the first that returns. Each declares its name for those behind it. -/
def declareAll (ρ : Scopes) (env : EnvironmentId) : List Declaration → Run Flow
  | [] => pure .next
  | d :: ds => do
    match ← declare ρ env d with
    | .next => declareAll (d.scopes ρ) env ds
    | .returned v => pure (.returned v)

end

end

def call (clock : Nat → Float) : Nat → Value → List Value → UInt32 → Run Value
  | 0, _, _, _ => .exhaust
  | depth + 1, .function f, args, line => do
    match ← Computation.inspect (·.run.store.function? f) with
    | none => .fail (.fault line .notCallable)
    | some g =>
      if args.length ≠ g.arity then .fail (.fault line (.arity g.arity args.length))
      else match g with
        | .native _ _ builtin => lift (.ticking fun ticks => builtin.answer clock line ticks args)
        | .declared _ params _ closure => do
          let c ← Computation.inspect (·.code f)
          let env ← lift (.enter closure)
          lift (.defineAll env ((params.map Token.lexeme).zip args))
          let ρ := params.map Token.lexeme :: c.around
          match ← declareAll (call clock depth) depth ρ env c.body with
          | .next => pure .nil
          | .returned v => pure v
  | _ + 1, _, _, line => .fail (.fault line .notCallable)

def runProgram (clock : Nat → Float) (budget : Nat) : Program → Run Unit
  | [] => pure ()
  | d :: ds => do
    let _ ← declare (call clock budget) budget [] globals d
    runProgram clock budget ds

end Direct
end Lox
