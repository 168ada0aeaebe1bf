import Lox.Resolution
import Lox.Run

/-! Evaluation of expressions and execution of statements.
Both recurse on the syntax tree. What is not bounded by the tree, the depth of calls and the rounds
of loops, is bounded by a budget: `execute` takes the function that performs calls as an argument,
and `call` supplies it with one level less. -/
namespace Lox

/-- What stays the same while a program runs: the resolution of its names, and the successive
readings of the clock. -/
structure Setting where
  resolution : Resolution
  clock : Nat → Float

inductive Flow
  | next
  | returned (v : Value)
  deriving DecidableEq

abbrev Caller := Value → List Value → UInt32 → Run Value

def globals : EnvironmentId := 0

/-- The result of a unary operator; `!` takes any operand. -/
def unaryOperation (op : Token) (v : Value) : Except RuntimeError Value :=
  match op.kind, v with
  | .bang, v => .ok (.bool !v.isTruthy)
  | .minus, .number x => .ok (.number (-x))
  | _, _ => .error (.fault op.line .numberOperand)

/-- `+` adds numbers and joins strings; of a string and a number the string comes first. -/
def addition (line : UInt32) : Value → Value → Except RuntimeError Value
  | .number x, .number y => .ok (.number (x + y))
  | .string s, .string t => .ok (.string (s ++ t))
  | .string s, .number y => .ok (.string (s ++ Number.text y))
  | .number x, .string t => .ok (.string (t ++ Number.text x))
  | _, _ => .error (.fault line .addOperands)

def numberOperation (op : Token) (x y : Float) : Except RuntimeError Value :=
  match op.kind with
  | .minus => .ok (.number (x - y))
  | .star => .ok (.number (x * y))
  | .slash => if y == 0 then .error (.fault op.line .divisionByZero) else .ok (.number (x / y))
  | .greater => .ok (.bool (y < x))
  | .greaterEqual => .ok (.bool (y ≤ x))
  | .less => .ok (.bool (x < y))
  | .lessEqual => .ok (.bool (x ≤ y))
  | _ => .error (.fault op.line .numberOperands)

def binaryOperation (op : Token) (l r : Value) : Except RuntimeError Value :=
  match op.kind, l, r with
  | .equalEqual, _, _ => .ok (.bool (l.equals r))
  | .bangEqual, _, _ => .ok (.bool !(l.equals r))
  | .plus, _, _ => addition op.line l r
  | _, .number x, .number y => numberOperation op x y
  | _, _, _ => .error (.fault op.line .numberOperands)

/-- Whether the left operand of a logical operator is its value already. -/
def decides (op : Token) (l : Value) : Bool :=
  if op.kind = .orWord then l.isTruthy else !l.isTruthy

/-- The environment that binds a use of a name, as an environment and links up from it. -/
def Setting.locate (σ : Setting) (env : EnvironmentId) (id : UseId) : EnvironmentId × Nat :=
  match σ.resolution[id]? with
  | some depth => (env, depth)
  | none => (globals, 0)

def repeatWhile {σ : Type} (condition : Computation σ Value) (body : Computation σ Flow) :
    Nat → Computation σ Flow
  | 0, s => .unfinished s
  | rounds + 1, s =>
    match condition s with
    | .done v s =>
      if v.isTruthy then
        match body s with
        | .done .next s => repeatWhile condition body rounds s
        | .done (.returned v) s => .done (.returned v) s
        | .failed e s => .failed e s
        | .unfinished s => .unfinished s
      else .done .next s
    | .failed e s => .failed e s
    | .unfinished s => .unfinished s

section

variable (σ : Setting) (call : Caller)

mutual

def evaluate (env : EnvironmentId) : Expr → Run Value
  | .literal value => pure (.ofLiteral value)
  | .group inner => evaluate env inner
  | .unary op operand => do
    let v ← evaluate env operand
    .ofExcept (unaryOperation op v)
  | .binary left op right => do
    let l ← evaluate env left
    let r ← evaluate env right
    .ofExcept (binaryOperation op l r)
  | .logical left op right => do
    let l ← evaluate env left
    if decides op l then pure l else evaluate env right
  | .use id name => .read (σ.locate env id).1 (σ.locate env id).2 name
  | .assign id name value => do
    let v ← evaluate env value
    .assign (σ.locate env id).1 (σ.locate env id).2 name v
    pure v
  | .call callee args paren => do
    let f ← evaluate env callee
    let vs ← evaluateAll env args
    call f vs paren.line

def evaluateAll (env : EnvironmentId) : List Expr → Run (List Value)
  | [] => pure []
  | e :: es => do
    let v ← evaluate env e
    let vs ← evaluateAll env es
    pure (v :: vs)

end

variable (rounds : Nat)

mutual

/-- Execute a statement in an environment. A block has an environment of its own, and a function
keeps the one that it is declared in. -/
def execute (env : EnvironmentId) : Stmt → Run Flow
  | .expression e => do
    let _ ← evaluate σ call env e
    pure .next
  | .print e => do
    let v ← evaluate σ call env e
    let text ← Computation.inspect (·.store.text v)
    -- The text of a value is one write. A formatter may hand a number or a function's text over in
    -- pieces, between which a sink can fill up; that is left out.
    .write text
    .write "\n"
    pure .next
  | .var name none => do
    .define env name.lexeme .nil
    pure .next
  | .var name (some init) => do
    let v ← evaluate σ call env init
    .define env name.lexeme v
    pure .next
  | .block body => do
    let inner ← Run.enter env
    executeAll inner body
  | .branch condition consequent none => do
    let v ← evaluate σ call env condition
    if v.isTruthy then execute env consequent else pure .next
  | .branch condition consequent (some alternative) => do
    let v ← evaluate σ call env condition
    if v.isTruthy then execute env consequent else execute env alternative
  | .loop condition body =>
    repeatWhile (evaluate σ call env condition) (execute env body) rounds
  | .function name params body => do
    let f ← Run.allocate (.declared name params body env)
    .define env name.lexeme (.function f)
    pure .next
  | .ret _ none => pure (.returned .nil)
  | .ret _ (some value) => do
    let v ← evaluate σ call env value
    pure (.returned v)

/-- Execute statements up to the first that returns. -/
def executeAll (env : EnvironmentId) : List Stmt → Run Flow
  | [] => pure .next
  | s :: ss => do
    match ← execute env s with
    | .next => executeAll env ss
    | .returned v => pure (.returned v)

end

end

/-- The answer of a built-in function after so many readings of the clock, and the readings taken
then. The clock never fails: the error of a clock that stands before its epoch is left out. -/
def Builtin.answer (readings : Nat → Float) (line : UInt32) (ticks : Nat) :
    Builtin → List Value → Except RuntimeError (Value × Nat)
  | clock, _ => .ok (.number (readings ticks), ticks + 1)
  | sqrt, [.number x] => .ok (.number x.sqrt, ticks)
  | sqrt, _ => .error (.fault line .numberOperand)

/-- Calls nested at most so deep. A call has an environment of its own for the parameters and the
body, inside the one that the function was declared in. -/
def call (σ : Setting) : Nat → Caller
  | 0, _, _, _ => .exhaust
  | depth + 1, .function f, args, line => do
    match ← Computation.inspect (·.store.function? f) with
    | none => .fail (.fault line .notCallable)
    | some g =>
      if args.length ≠ g.arity then .fail (.fault line (.arity g.arity args.length))
      else match g with
        | .native _ _ builtin => .ticking fun ticks => builtin.answer σ.clock line ticks args
        | .declared _ params body closure => do
          let env ← Run.enter closure
          .defineAll env ((params.map Token.lexeme).zip args)
          match ← executeAll σ (call σ depth) depth env body with
          | .next => pure .nil
          | .returned v => pure v
  | _ + 1, _, _, line => .fail (.fault line .notCallable)

/-- Execute the statements of a program in order. A `return` of the top level ends its statement
only. -/
def runProgram (σ : Setting) (budget : Nat) : Program → Run Unit
  | [] => pure ()
  | s :: ss => do
    let _ ← execute σ (call σ budget) budget globals s
    runProgram σ budget ss

end Lox
