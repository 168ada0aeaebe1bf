import Std.Data.TreeMap
import Lox.Diagnostic
import Lox.Tree

/-! Static resolution of names.
A walk over the program finds, for every use of a local variable, how many scopes out its
declaration is. Blocks and function bodies are scopes; the top level is not, so a use that the
resolution leaves out means a global variable. -/
namespace Lox

/-- The number of scopes between each use of a local variable and its declaration. -/
abbrev Resolution := Std.TreeMap UseId Nat

namespace Resolution

/-- Add the entries of `new`, in place of earlier ones for the same use. -/
def extend (r new : Resolution) : Resolution := r ∪ new

theorem getElem?_extend (r new : Resolution) (id : UseId) :
    (r.extend new)[id]? = new[id]?.or r[id]? := Std.TreeMap.getElem?_union

end Resolution

/-- The names declared in a scope, latest first. A name is ready after its initializer. -/
abbrev Scope := List (String × Bool)

structure Walk where
  scopes : List Scope
  depths : Resolution
  errors : List SyntaxError

namespace Walk

def initial : Walk := ⟨[], ∅, []⟩

def openScope (w : Walk) : Walk := { w with scopes := [] :: w.scopes }

def closeScope (w : Walk) : Walk := { w with scopes := w.scopes.tail }

/-- Enter a name in the innermost scope. Names of the top level are not tracked. -/
def enter (w : Walk) (name : String) (ready : Bool) : Walk :=
  match w.scopes with
  | [] => w
  | scope :: outer => { w with scopes := ((name, ready) :: scope) :: outer }

def enterAll (w : Walk) (names : List String) : Walk := names.foldl (fun w name => w.enter name true) w

def record (w : Walk) (e : SyntaxError) : Walk := { w with errors := w.errors ++ [e] }

/-- Whether the innermost scope declares the name and its initializer is being walked. -/
def inOwnInitializer (w : Walk) (name : String) : Bool :=
  match w.scopes with
  | [] => false
  | scope :: _ => scope.lookup name == some false

def depth? (w : Walk) (name : String) : Option Nat :=
  w.scopes.findIdx? fun scope => (scope.lookup name).isSome

def settle (w : Walk) (id : UseId) (name : String) : Walk :=
  match w.depth? name with
  | some d => { w with depths := w.depths.insert id d }
  | none => w

mutual

def expression (w : Walk) : Expr → Walk
  | .literal _ => w
  | .group inner => w.expression inner
  | .unary _ operand => w.expression operand
  | .binary left _ right => (w.expression left).expression right
  | .logical left _ right => (w.expression left).expression right
  | .use id name =>
    let w := if w.inOwnInitializer name.lexeme then w.record (.atToken name .ownInitializer) else w
    w.settle id name.lexeme
  | .assign id name value => (w.expression value).settle id name.lexeme
  | .call callee args _ => (w.expression callee).expressions args

def expressions (w : Walk) : List Expr → Walk
  | [] => w
  | e :: es => (w.expression e).expressions es

end

mutual

/-- Walk a statement. A function is ready in its own body, and its parameters share the scope of
its body. -/
def statement (inFunction : Bool) (w : Walk) : Stmt → Walk
  | .expression e => w.expression e
  | .print e => w.expression e
  | .var name none => w.enter name.lexeme true
  | .var name (some init) =>
    ((w.enter name.lexeme false).expression init).enter name.lexeme true
  | .block body => (w.openScope.statements inFunction body).closeScope
  | .branch condition consequent none =>
    (w.expression condition).statement inFunction consequent
  | .branch condition consequent (some alternative) =>
    ((w.expression condition).statement inFunction consequent).statement inFunction alternative
  | .loop condition body => (w.expression condition).statement inFunction body
  | .function name params body =>
    let w := (w.enter name.lexeme true).openScope
    ((w.enterAll (params.map Token.lexeme)).statements true body).closeScope
  | .ret keyword value =>
    let w := if inFunction then w else w.record (.atToken keyword .returnAtTopLevel)
    match value with
    | none => w
    | some e => w.expression e

def statements (inFunction : Bool) (w : Walk) : List Stmt → Walk
  | [] => w
  | s :: ss => (w.statement inFunction s).statements inFunction ss

end

end Walk

/-- The resolution of a program, or the errors in it, in the order of the walk. -/
def resolve (p : Program) : Except (List SyntaxError) Resolution :=
  let w := Walk.initial.statements false p
  if w.errors.isEmpty then .ok w.depths else .error w.errors

end Lox
