import Lox.Cursor

/-! The grammar of expressions, by recursive descent.
`expression` is the loosest form. Below it stand six levels of left-associative operators, from
`or` to `*` and `/`, then unary operators, calls and primary expressions. Every function takes the
token `stop` at which errors at the end of input are reported. -/
namespace Lox
namespace Grammar

inductive Level
  | disjunction | conjunction | equality | comparison | term | factor
  deriving DecidableEq, Repr

namespace Level

def all : List Level := [disjunction, conjunction, equality, comparison, term, factor]

def has : Level → Kind → Bool
  | disjunction, k => k = .orWord
  | conjunction, k => k = .andWord
  | equality, k => k = .equalEqual || k = .bangEqual
  | comparison, k => k = .greater || k = .greaterEqual || k = .less || k = .lessEqual
  | term, k => k = .plus || k = .minus
  | factor, k => k = .star || k = .slash

def node (l : Level) (left : Expr) (op : Token) (right : Expr) : Expr :=
  match l with
  | disjunction | conjunction => .logical left op right
  | _ => .binary left op right

end Level

def maxArity : Nat := 255

/-- Note that one more item than allowed follows. The item is read all the same. -/
def checkArity (stop : Token) (count : Nat) (fault : SyntaxFault) (s : Cursor) : Cursor :=
  if maxArity ≤ count then s.record (.atToken (s.peek stop) fault) else s

@[simp] theorem size_checkArity (stop : Token) (count : Nat) (fault : SyntaxFault) (s : Cursor) :
    (checkArity stop count fault s).size = s.size := by
  unfold checkArity
  split <;> rfl

def constant? (t : Token) : Option Expr :=
  match t.kind with
  | .falseWord => some (.literal (.bool false))
  | .trueWord => some (.literal (.bool true))
  | .nilWord => some (.literal .nil)
  | .number | .string => some (.literal (t.literal.getD .nil))
  | _ => none

variable (stop : Token)

mutual

/-- An assignment, or an expression of the loosest level. Whether the left side can be assigned
to shows only after the right side, so a bad target is recorded and the left side stands. -/
def expression (s : Cursor) : Step Expr s 1 :=
  (chain Level.all s).bind fun left t _ =>
    match t.take? (· = .equal) with
    | none => .done left t
    | some ⟨equals, t', ht⟩ => .further ht <|
      (expression t').bind fun value u _ =>
        match left with
        | .use _ name =>
          .yield (Expr.assign u.ids.next name value) { u with ids := u.ids.take.2 } (Nat.le_refl _)
        | _ =>
          .yield left (u.record (.atToken equals .invalidAssignmentTarget)) (Nat.le_refl _)
termination_by (s.size, Level.all.length + 4)

/-- Operands joined by operators of the first level; the operands are of the tighter levels. -/
def chain (levels : List Level) (s : Cursor) : Step Expr s 1 :=
  match levels with
  | [] => unary s
  | l :: tighter => (chain tighter s).bind fun left t _ => chainRest l tighter left t
termination_by (s.size, levels.length + 3)

def chainRest (l : Level) (tighter : List Level) (left : Expr) (s : Cursor) : Step Expr s 0 :=
  match s.take? l.has with
  | none => .done left s
  | some ⟨op, t, ht⟩ => .further ht <|
    (chain tighter t).bind fun right u _ => chainRest l tighter (l.node left op right) u
termination_by (s.size, 0)

def unary (s : Cursor) : Step Expr s 1 :=
  match s.take? (fun k => k = .bang || k = .minus) with
  | none => call s
  | some ⟨op, t, ht⟩ => .past ht <|
    (unary t).bind fun operand u _ => .done (.unary op operand) u
termination_by (s.size, 2)

def call (s : Cursor) : Step Expr s 1 :=
  (primary s).bind fun callee t _ => callRest callee t
termination_by (s.size, 1)

def callRest (callee : Expr) (s : Cursor) : Step Expr s 0 :=
  match s.take? (· = .leftParen) with
  | none => .done callee s
  | some ⟨_, t, ht⟩ => .further ht <|
    (arguments t).bind fun args u _ =>
      (Step.expect stop .rightParen .parenAfterArguments u).bind fun paren v _ =>
        callRest (.call callee args paren) v
termination_by (s.size, 0)

def arguments (s : Cursor) : Step (List Expr) s 0 :=
  if s.sees .rightParen then .done [] s else argumentList 0 s
termination_by (s.size, Level.all.length + 6)

/-- Arguments after the first `count`. -/
def argumentList (count : Nat) (s : Cursor) : Step (List Expr) s 0 :=
  have hs := size_checkArity stop count .tooManyArguments s
  .since (Nat.le_of_eq hs) <|
    (expression (checkArity stop count .tooManyArguments s)).bind fun a t _ =>
      match t.take? (· = .comma) with
      | none => .done [a] t
      | some ⟨_, u, hu⟩ => .further hu <|
        (argumentList (count + 1) u).bind fun as v _ => .done (a :: as) v
termination_by (s.size, Level.all.length + 5)

def primary (s : Cursor) : Step Expr s 1 :=
  match s.take? (fun _ => true) with
  | none => .fail (.atToken stop .expectExpression) s
  | some ⟨token, t, ht⟩ =>
    match constant? token with
    | some e => .past ht (.done e t)
    | none =>
      if token.kind = .identifier then .past ht <|
        .yield (Expr.use t.ids.next token) { t with ids := t.ids.take.2 } (Nat.le_refl _)
      else if token.kind = .leftParen then .past ht <|
        (expression t).bind fun inner u _ =>
          (Step.expect stop .rightParen .parenAfterExpression u).bind fun _ v _ =>
            .done (.group inner) v
      else .fail (.atToken token .expectExpression) s
termination_by (s.size, 0)

end

end Grammar
end Lox
