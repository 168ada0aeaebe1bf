import Lox.Token

/-! Syntax trees.
A tree keeps the tokens whose lines and lexemes errors and listings show. There is no tree for
a `for` loop: it is written with blocks and a `while` loop. -/
namespace Lox

/-- Identity of one use of a variable, unique within a session. -/
abbrev UseId := UInt32

inductive Expr
  | literal (value : Literal)
  | group (inner : Expr)
  | unary (op : Token) (operand : Expr)
  | binary (left : Expr) (op : Token) (right : Expr)
  /-- `and` and `or`, which evaluate the right operand only if they need it. -/
  | logical (left : Expr) (op : Token) (right : Expr)
  | use (id : UseId) (name : Token)
  | assign (id : UseId) (name : Token) (value : Expr)
  /-- The closing parenthesis gives errors of the call their line. -/
  | call (callee : Expr) (arguments : List Expr) (paren : Token)

inductive Stmt
  | expression (e : Expr)
  | print (e : Expr)
  | var (name : Token) (init : Option Expr)
  | block (body : List Stmt)
  | branch (condition : Expr) (consequent : Stmt) (alternative : Option Stmt)
  | loop (condition : Expr) (body : Stmt)
  | function (name : Token) (params : List Token) (body : List Stmt)
  | ret (keyword : Token) (value : Option Expr)

abbrev Program := List Stmt

/-- Ids for the uses of variables, handed out in order. -/
structure IdSupply where
  /-- How many ids have been handed out. -/
  handed : Nat
  deriving DecidableEq, Repr, Inhabited

namespace IdSupply

def initial : IdSupply := ⟨0⟩

/-- The id to be handed out. An id has 32 bits, so that ids come again when all have been used. -/
def next (s : IdSupply) : UseId := .ofNat s.handed

def take (s : IdSupply) : UseId × IdSupply := (s.next, ⟨s.handed + 1⟩)

/-- An id is the number of ids before it, as long as there are ids. -/
theorem toNat_next {s : IdSupply} (h : s.handed < UInt32.size) : s.next.toNat = s.handed :=
  UInt32.toNat_ofNat_of_lt' h

end IdSupply

/-- The meaning of `for (init; condition; increment) body`: the header has a scope of its own if
it declares or evaluates something first, and the increment runs after each round. -/
def Stmt.forLoop (init : Option Stmt) (condition increment : Option Expr) (body : Stmt) : Stmt :=
  let round := match increment with
    | some e => .block [body, .expression e]
    | none => body
  let rounds := .loop (condition.getD (.literal (.bool true))) round
  match init with
  | some s => .block [s, rounds]
  | none => rounds

end Lox
