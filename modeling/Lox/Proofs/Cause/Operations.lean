import Lox.Proofs.Blame
import Lox.Proofs.Cause.Tree
import Lox.Proofs.Reach

/-! What causes a fault.
Each fault of an operation has one of a few causes, which speak of the expression and of the values that
the operation was applied to (`Cause`). An operation that the expression has fails for one of them
(`explains_unary`, `explains_binary`), and so does a built-in function (`refuses_builtin`). -/
namespace Lox

open Grammar (Level)
open Concrete (isPrefix)
open Blame (Culprit)

/-- What `+` takes: two numbers, two strings, or one of each. -/
inductive Value.Adds : Value → Value → Prop
  | numbers (x y : Float) : Adds (.number x) (.number y)
  | strings (s t : String) : Adds (.string s) (.string t)
  | stringFirst (s : String) (y : Float) : Adds (.string s) (.number y)
  | stringSecond (x : Float) (t : String) : Adds (.number x) (.string t)

def numeric : List Kind := [.minus, .star, .slash, .greater, .greaterEqual, .less, .lessEqual]

/-- Why a value cannot be called with these arguments. -/
inductive Store.Refuses (s : Store) : Value → List Value → RuntimeFault → Prop
  | notCallable {v : Value} {args : List Value} (other : ∀ f, v ≠ .function f) :
    Refuses s v args .notCallable
  | arity {f : FunctionId} {g : Function} {args : List Value} (made : s.function? f = some g)
    (differs : g.arity ≠ args.length) : Refuses s (.function f) args (.arity g.arity args.length)
  | root {f : FunctionId} {v : Value} (made : s.function? f = some (.native "sqrt" 1 .sqrt))
    (other : ∀ x, v ≠ .number x) : Refuses s (.function f) [v] .numberOperand

/-- Why the operation of an expression fails, applied to these values. -/
inductive Cause (s : Store) : Expr → List Value → RuntimeFault → Prop
  | use {id : UseId} {name : Token} : Cause s (.use id name) [] (.undefinedVariable name.lexeme)
  | assign {id : UseId} {name : Token} {value : Expr} {v : Value} :
    Cause s (.assign id name value) [v] (.undefinedVariable name.lexeme)
  | negation {op : Token} {operand : Expr} {v : Value} (operator : op.kind = .minus)
    (other : ∀ x, v ≠ .number x) : Cause s (.unary op operand) [v] .numberOperand
  | addition {left right : Expr} {op : Token} {l r : Value} (operator : op.kind = .plus)
    (other : ¬ l.Adds r) : Cause s (.binary left op right) [l, r] .addOperands
  | division {left right : Expr} {op : Token} {x y : Float} (operator : op.kind = .slash)
    (zero : y == 0) : Cause s (.binary left op right) [.number x, .number y] .divisionByZero
  | arithmetic {left right : Expr} {op : Token} {l r : Value} (operator : op.kind ∈ numeric)
    (other : ∀ x y, ¬ (l = .number x ∧ r = .number y)) :
    Cause s (.binary left op right) [l, r] .numberOperands
  /-- As many values are passed as there are arguments. -/
  | call {callee : Expr} {args : List Expr} {paren : Token} {f : Value} {vs : List Value}
    {cause : RuntimeFault} (count : vs.length = args.length) (refuses : s.Refuses f vs cause) :
    Cause s (.call callee args paren) (f :: vs) cause

/-- The culprit has the line of the fault, and its operands cause it. -/
structure Blame.Culprit.Explains (c : Culprit) (s : Store) (line : UInt32) (cause : RuntimeFault) :
    Prop where
  line : c.expr.mark?.map Token.line = some line
  cause : Cause s c.expr c.operands cause

variable {s : Store} {program : Nat} {line : UInt32} {cause : RuntimeFault}

theorem explains_unary {op : Token} {operand : Expr} {v : Value} (hop : (Expr.unary op operand).Operates)
    (h : unaryOperation op v = .error (.fault line cause)) :
    Culprit.Explains ⟨program, .unary op operand, [v]⟩ s line cause := by
  unfold unaryOperation at h
  split at h
  · cases h
  · cases h
  · next hbang hminus =>
    cases h
    have hkind : op.kind = .minus := by
      rcases Bool.or_eq_true_iff.1 hop with hkind | hkind
      · exact absurd (of_decide_eq_true hkind) hbang
      · exact of_decide_eq_true hkind
    exact ⟨rfl, .negation hkind fun x hx => hminus x hkind hx⟩

theorem explains_addition {left right : Expr} {op : Token} {l r : Value} (hop : op.kind = .plus)
    (h : addition op.line l r = .error (.fault line cause)) :
    Culprit.Explains ⟨program, .binary left op right, [l, r]⟩ s line cause := by
  unfold addition at h
  split at h
  iterate 4 cases h
  next hnumbers hstrings hfirst hsecond =>
    cases h
    refine ⟨rfl, .addition hop ?_⟩
    rintro (⟨x, y⟩ | ⟨s, t⟩ | ⟨s, y⟩ | ⟨x, t⟩)
    · exact hnumbers x y rfl rfl
    · exact hstrings s t rfl rfl
    · exact hfirst s y rfl rfl
    · exact hsecond x t rfl rfl

/-- Of two numbers, only the second can be at fault. -/
theorem explains_numbers {left right : Expr} {op : Token} {x y : Float} (hop : op.kind ∈ numeric)
    (h : numberOperation op x y = .error (.fault line cause)) :
    Culprit.Explains ⟨program, .binary left op right, [.number x, .number y]⟩ s line cause := by
  unfold numberOperation at h
  split at h
  case h_3 hslash =>
    split at h
    · next hzero =>
      cases h
      exact ⟨rfl, .division hslash hzero⟩
    · cases h
  case h_8 => simp_all [numeric]
  all_goals cases h

/-- Equality takes any operands, `+` has its own, and the other operators take numbers. -/
theorem mem_numeric {left right : Expr} {op : Token} (hop : (Expr.binary left op right).Operates)
    (hequal : op.kind ≠ .equalEqual) (hunequal : op.kind ≠ .bangEqual) (hplus : op.kind ≠ .plus) :
    op.kind ∈ numeric := by
  obtain ⟨level, hlevel, hhas⟩ := hop
  have hall : ∀ level ∈ [Level.equality, .comparison, .term, .factor], ∀ kind ∈ Kind.all,
      level.has kind → kind ≠ .equalEqual → kind ≠ .bangEqual → kind ≠ .plus → kind ∈ numeric := by
    decide
  exact hall level hlevel op.kind op.kind.mem_all hhas hequal hunequal hplus

theorem explains_binary {left right : Expr} {op : Token} {l r : Value}
    (hop : (Expr.binary left op right).Operates)
    (h : binaryOperation op l r = .error (.fault line cause)) :
    Culprit.Explains ⟨program, .binary left op right, [l, r]⟩ s line cause := by
  unfold binaryOperation at h
  split at h
  · cases h
  · cases h
  · next hplus => exact explains_addition hplus h
  · next hequal hunequal hplus => exact explains_numbers (mem_numeric hop hequal hunequal hplus) h
  · next hnumbers hequal hunequal hplus =>
    cases h
    exact ⟨rfl, .arithmetic (mem_numeric hop hequal hunequal hplus) fun x y hxy =>
      hnumbers x y hxy.1 hxy.2⟩

/-- Of the built-in functions only the root can fail. -/
theorem refuses_builtin {readings : Nat → Float} {ticks : Nat} {line' : UInt32} {f : FunctionId}
    {name : String} {arity : Nat} {builtin : Builtin} {args : List Value}
    (hg : s.function? f = some (.native name arity builtin))
    (hroot : builtin = .sqrt → name = "sqrt" ∧ arity = 1) (hcount : args.length = arity)
    (h : builtin.answer readings line' ticks args = .error (.fault line cause)) :
    line = line' ∧ s.Refuses (.function f) args cause := by
  unfold Builtin.answer at h
  split at h
  · cases h
  · cases h
  · next hother =>
    cases h
    obtain ⟨rfl, rfl⟩ := hroot rfl
    obtain ⟨v, rfl⟩ := List.length_eq_one_iff.1 hcount
    exact ⟨rfl, .root hg fun x hx => hother x (congrArg (fun v => [v]) hx)⟩

end Lox
