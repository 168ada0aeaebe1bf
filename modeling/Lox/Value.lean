import Lox.Tree

/-! Values of running programs.
A function value is the number of a function object, so that functions compare by identity. -/
namespace Lox

abbrev FunctionId := Nat

abbrev EnvironmentId := Nat

inductive Value
  | nil
  | bool (b : Bool)
  | number (x : Float)
  | string (s : String)
  | function (id : FunctionId)
  deriving DecidableEq

namespace Value

def ofLiteral : Literal → Value
  | .nil => nil
  | .bool b => bool b
  | .number x => number x
  | .string s => string s

/-- `nil` and `false` are false, all else is true. -/
def isTruthy : Value → Bool
  | nil | bool false => false
  | _ => true

/-- Equality of the language: never across types, and not reflexive on NaN. -/
def equals : Value → Value → Bool
  | nil, nil => true
  | bool a, bool b => a == b
  | number x, number y => x == y
  | string s, string t => s == t
  | function f, function g => f == g
  | _, _ => false

/-- A value as `print` shows it, in one piece; functions have the texts that are given. -/
def text (functionText : FunctionId → String) : Value → String
  | nil => "nil"
  | bool b => if b then "true" else "false"
  | number x => Number.text x
  | string s => s
  | function f => functionText f

end Value

inductive Builtin
  | clock
  | sqrt
  deriving DecidableEq, Repr

inductive Function
  | native (name : String) (arity : Nat) (builtin : Builtin)
  /-- The environment is the one in which the declaration was executed. -/
  | declared (name : Token) (params : List Token) (body : List Stmt) (closure : EnvironmentId)

namespace Function

def name : Function → String
  | native name _ _ => name
  | declared name _ _ _ => name.lexeme

def arity : Function → Nat
  | native _ arity _ => arity
  | declared _ params _ _ => params.length

def text : Function → String
  | native _ _ _ => "<native fn>"
  | declared name _ _ _ => "<fn " ++ name.lexeme ++ ">"

end Function
end Lox
