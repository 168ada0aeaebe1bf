import Lox.Session

/-! Textual scoping: programs run by what their text shows.
No table is consulted. The scopes around a piece of text are an immutable list of immutable maps
from names to cells, over one mutable table of globals. A declaration extends the innermost map,
a function value keeps the scopes around its declaration, and a name means its innermost
declaration in the scopes, or else the global of that name at the moment of access. -/
namespace Lox
namespace Textual

/-- Number of a cell, which holds the value of one local variable. -/
abbrev CellId := Nat

/-- The names that a scope declares so far and their cells, latest first. -/
abbrev Scope := List (String × CellId)

/-- The scopes around a piece of text, innermost first. None are around the top level. -/
abbrev Scopes := List Scope

def Scopes.cell? (ρ : Scopes) (name : String) : Option CellId :=
  ρ.findSome? fun scope => scope.lookup name

inductive Function
  | native (name : String) (arity : Nat) (builtin : Builtin)
  /-- The scopes are those around the declaration, its own name included. -/
  | declared (name : Token) (params : List Token) (body : List Stmt) (closure : Scopes)

namespace Function

def arity : Function → Nat
  | native _ arity _ => arity
  | declared _ params _ _ => params.length

def text : Function → String
  | native _ _ _ => "<native fn>"
  | declared name _ _ _ => "<fn " ++ name.lexeme ++ ">"

end Function

structure State where
  cells : List Value
  globals : Bindings
  functions : List Function
  sink : Sink
  ticks : Nat

namespace State

def value? (s : State) (ρ : Scopes) (name : String) : Option Value :=
  match ρ.cell? name with
  | some c => s.cells[c]?
  | none => s.globals.get? name

def text (s : State) : Value → String :=
  Value.text fun f => match s.functions[f]? with
    | some g => g.text
    | none => ""

end State

abbrev Run : Type → Type := Computation State

namespace Run

def read (ρ : Scopes) (name : Token) : Run Value := fun s =>
  match s.value? ρ name.lexeme with
  | some v => .done v s
  | none => .failed (.fault name.line (.undefinedVariable name.lexeme)) s

def assign (ρ : Scopes) (name : Token) (v : Value) : Run Unit := fun s =>
  match ρ.cell? name.lexeme with
  | some c => .done () { s with cells := s.cells.set c v }
  | none =>
    if (s.globals.get? name.lexeme).isSome then
      .done () { s with globals := s.globals.set name.lexeme v }
    else .failed (.fault name.line (.undefinedVariable name.lexeme)) s

/-- Declare a name in the innermost scope: in the cell that it has there, or in a new one. Outside
of all scopes it is a global. The scopes with the declaration are the result. -/
def declare (ρ : Scopes) (name : String) (v : Value) : Run Scopes := fun s =>
  match ρ with
  | [] => .done [] { s with globals := s.globals.set name v }
  | scope :: outer =>
    match scope.lookup name with
    | some c => .done ρ { s with cells := s.cells.set c v }
    | none =>
      .done (((name, s.cells.length) :: scope) :: outer) { s with cells := s.cells ++ [v] }

def declareAll (ρ : Scopes) : List (String × Value) → Run Scopes
  | [] => pure ρ
  | (name, v) :: bs => do
    let ρ ← declare ρ name v
    declareAll ρ bs

def write (text : String) : Run Unit := fun s =>
  if s.sink.refuses text then .failed s.sink.error s
  else .done () { s with sink := s.sink.receive text }

def ticking {α : Type} (f : Nat → Except RuntimeError (α × Nat)) : Run α := fun s =>
  match f s.ticks with
  | .ok (a, ticks) => .done a { s with ticks }
  | .error e => .failed e s

def allocate (f : Function) : Run Unit := fun s => .done () { s with functions := s.functions ++ [f] }

end Run

section

variable (call : Value → List Value → UInt32 → Run Value)

mutual

def evaluate (ρ : Scopes) : Expr → Run Value
  | .literal value => pure (.ofLiteral value)
  | .group inner => evaluate ρ inner
  | .unary op operand => do
    let v ← evaluate ρ operand
    .ofExcept (unaryOperation op v)
  | .binary left op right => do
    let l ← evaluate ρ left
    let r ← evaluate ρ right
    .ofExcept (binaryOperation op l r)
  | .logical left op right => do
    let l ← evaluate ρ left
    if decides op l then pure l else evaluate ρ right
  | .use _ name => .read ρ name
  | .assign _ name value => do
    let v ← evaluate ρ value
    .assign ρ name v
    pure v
  | .call callee args paren => do
    let f ← evaluate ρ callee
    let vs ← evaluateAll ρ args
    call f vs paren.line

def evaluateAll (ρ : Scopes) : List Expr → Run (List Value)
  | [] => pure []
  | e :: es => do
    let v ← evaluate ρ e
    let vs ← evaluateAll ρ es
    pure (v :: vs)

end

variable (rounds : Nat)

mutual

/-- Execute a statement. The result says how it finishes, and which scopes are around the text
behind it. -/
def execute (ρ : Scopes) : Stmt → Run (Flow × Scopes)
  | .expression e => do
    let _ ← evaluate call ρ e
    pure (.next, ρ)
  | .print e => do
    let v ← evaluate call ρ e
    let text ← Computation.inspect (·.text v)
    .write text
    .write "\n"
    pure (.next, ρ)
  | .var name none => do
    let ρ ← .declare ρ name.lexeme .nil
    pure (.next, ρ)
  | .var name (some init) => do
    let v ← evaluate call ρ init
    let ρ ← .declare ρ name.lexeme v
    pure (.next, ρ)
  | .block body => do
    let flow ← executeAll ([] :: ρ) body
    pure (flow, ρ)
  | .branch condition consequent none => do
    let v ← evaluate call ρ condition
    if v.isTruthy then
      let r ← execute ρ consequent
      pure (r.1, ρ)
    else pure (.next, ρ)
  | .branch condition consequent (some alternative) => do
    let v ← evaluate call ρ condition
    let r ← if v.isTruthy then execute ρ consequent else execute ρ alternative
    pure (r.1, ρ)
  | .loop condition body => do
    let flow ← repeatWhile (evaluate call ρ condition) (Prod.fst <$> execute ρ body) rounds
    pure (flow, ρ)
  | .function name params body => do
    let f ← Computation.inspect (·.functions.length)
    let ρ ← .declare ρ name.lexeme (.function f)
    .allocate (.declared name params body ρ)
    pure (.next, ρ)
  | .ret _ none => pure (.returned .nil, ρ)
  | .ret _ (some value) => do
    let v ← evaluate call ρ value
    pure (.returned v, ρ)

def executeAll (ρ : Scopes) : List Stmt → Run Flow
  | [] => pure .next
  | s :: ss => do
    match ← execute ρ s with
    | (.next, ρ) => executeAll ρ ss
    | (.returned v, _) => pure (.returned v)

end

end

/-- Calls nested at most so deep. A call has a scope of its own that holds the parameters, inside
the scopes that the function has kept. -/
def call (clock : Nat → Float) : Nat → Value → List Value → UInt32 → Run Value
  | 0, _, _, _ => .exhaust
  | depth + 1, .function f, args, line => do
    match ← Computation.inspect (·.functions[f]?) with
    | none => .fail (.fault line .notCallable)
    | some g =>
      if args.length ≠ g.arity then .fail (.fault line (.arity g.arity args.length))
      else match g with
        | .native _ _ builtin => .ticking fun ticks => builtin.answer clock line ticks args
        | .declared _ params body closure => do
          let ρ ← .declareAll ([] :: closure) ((params.map Token.lexeme).zip args)
          match ← executeAll (call clock depth) depth ρ body with
          | .next => pure .nil
          | .returned v => pure v
  | _ + 1, _, _, line => .fail (.fault line .notCallable)

def runProgram (clock : Nat → Float) (budget : Nat) : Program → Run Unit
  | [] => pure ()
  | s :: ss => do
    let _ ← execute (call clock budget) budget [] s
    runProgram clock budget ss

end Textual
end Lox
