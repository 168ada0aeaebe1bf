import Lox.Evaluation
import Lox.Grammar.Statement
import Lox.Piece
import Lox.Tree.Source

/-! Sessions: programs that run one after another on one store.
Variables, function objects, ids and resolutions last for the whole session, and functions of an
earlier program keep working in a later one. -/
namespace Lox

/-- The program that a source text spells, or the errors in it: those of scanning come first. -/
def compile (source : String) (ids : IdSupply) :
    Except (List SyntaxError) Program × IdSupply :=
  let scanned := scan source
  let (parsed, ids) := parse scanned.tokens ids
  let result := match parsed, scanned.errors with
    | .ok p, [] => .ok p
    | .ok _, errors => .error errors
    | .error later, errors => .error (errors ++ later)
  (result, ids)

inductive Outcome
  | ok
  | refused (errors : List SyntaxError)
  | failed (e : RuntimeError)
  /-- The budget is used up. -/
  | unfinished
  deriving DecidableEq

/-- What the user is told about a run, without a final line end. -/
def Outcome.report? : Outcome → Option String
  | ok => none
  | refused errors => some (joinLines (errors.map SyntaxError.text))
  | failed e => some e.text
  | unfinished => some "budget used up"

structure Session where
  ids : IdSupply
  resolution : Resolution
  state : State
  hadError : Bool
  hadRuntimeError : Bool

namespace Session

def initialStore : Store :=
  let define (s : Store) (name : String) (arity : Nat) (b : Builtin) : Store :=
    let (f, s) := s.allocate (.native name arity b)
    s.define globals name (.function f)
  define (define (Store.empty.push none) "clock" 0 .clock) "sqrt" 1 .sqrt

def initial (sink : Sink) : Session :=
  ⟨.initial, ∅, ⟨initialStore, sink, 0⟩, false, false⟩

/-- Calls nested and rounds of a loop, more than a machine can make. -/
def ample : Nat := 0x1000000000000000

variable (budget : Nat) (clock : Nat → Float)

def parse (s : Session) (source : String) : Except (List SyntaxError) Program × Session :=
  let (result, ids) := compile source s.ids
  (result, { s with ids })

def execute (s : Session) (resolution : Resolution) (p : Program) : Outcome × Session :=
  let resolution := s.resolution.extend resolution
  match Lox.runProgram ⟨resolution, clock⟩ budget p s.state with
  | .done _ state => (.ok, { s with resolution, state })
  | .failed e state => (.failed e, { s with resolution, state, hadRuntimeError := true })
  | .unfinished state => (.unfinished, { s with resolution, state })

def runProgram (s : Session) (p : Program) : Outcome × Session :=
  match resolve p with
  | .error errors => (.refused errors, { s with hadError := true })
  | .ok resolution => s.execute budget clock resolution p

/-- Run a source text: nothing is executed unless all of it is accepted. -/
def run (s : Session) (source : String) : Outcome × Session :=
  let (parsed, s) := s.parse source
  match parsed with
  | .error errors => (.refused errors, { s with hadError := true })
  | .ok p => s.runProgram budget clock p

def resetErrors (s : Session) : Session := { s with hadError := false, hadRuntimeError := false }

def printedSince (s : Session) (earlier : Session) : String := s.state.sink.since earlier.state.sink

end Session
end Lox
