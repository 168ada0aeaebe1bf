import Lox.Proofs.Source.RoundTrip

/-! The expressions in a program.
Every operator that parsing puts into a program is one that its node has an operation for
(`operates_of_compile`). -/
namespace Lox

open Grammar (Level)
open Concrete (isPrefix)

mutual

def Expr.nodes : Expr → List Expr
  | .literal value => [.literal value]
  | .group inner => .group inner :: inner.nodes
  | .unary op operand => .unary op operand :: operand.nodes
  | .binary left op right => .binary left op right :: (left.nodes ++ right.nodes)
  | .logical left op right => .logical left op right :: (left.nodes ++ right.nodes)
  | .use id name => [.use id name]
  | .assign id name value => .assign id name value :: value.nodes
  | .call callee args paren => .call callee args paren :: (callee.nodes ++ Expr.allNodes args)

def Expr.allNodes : List Expr → List Expr
  | [] => []
  | e :: es => e.nodes ++ Expr.allNodes es

end

mutual

/-- All expressions in the statement, those in the bodies of functions included. -/
def Stmt.nodes : Stmt → List Expr
  | .expression e | .print e => e.nodes
  | .var _ init => init.elim [] Expr.nodes
  | .block body => Stmt.allNodes body
  | .branch condition consequent none => condition.nodes ++ consequent.nodes
  | .branch condition consequent (some alternative) =>
    condition.nodes ++ (consequent.nodes ++ alternative.nodes)
  | .loop condition body => condition.nodes ++ body.nodes
  | .function _ _ body => Stmt.allNodes body
  | .ret _ value => value.elim [] Expr.nodes

def Stmt.allNodes : List Stmt → List Expr
  | [] => []
  | s :: ss => s.nodes ++ Stmt.allNodes ss

end

def Program.nodes (p : Program) : List Expr := Stmt.allNodes p

/-- There is an operation for the operator of the expression. -/
def Expr.Operates : Expr → Prop
  | .unary op _ => isPrefix op.kind
  | .binary _ op _ => ∃ l ∈ [Level.equality, .comparison, .term, .factor], l.has op.kind
  | _ => True

mutual

theorem Expr.operates_of_printable : ∀ e : Expr, e.anonymous.Printable → ∀ n ∈ e.nodes, n.Operates
  | .literal _, _ => List.forall_mem_singleton.2 trivial
  | .group inner, h => List.forall_mem_cons.2 ⟨trivial, inner.operates_of_printable h⟩
  | .unary _ operand, ⟨_, hkind, h⟩ =>
    List.forall_mem_cons.2 ⟨hkind, operand.operates_of_printable h⟩
  | .binary left _ right, ⟨_, ⟨l, hhas, hnode⟩, hleft, hright⟩ => by
    refine List.forall_mem_cons.2 ⟨⟨l, ?_, hhas⟩, List.forall_mem_append.2
      ⟨left.operates_of_printable hleft, right.operates_of_printable hright⟩⟩
    have h := hnode left right
    cases l with
    | disjunction | conjunction => cases h
    | _ => decide
  | .logical left _ right, ⟨_, _, hleft, hright⟩ =>
    List.forall_mem_cons.2 ⟨trivial, List.forall_mem_append.2
      ⟨left.operates_of_printable hleft, right.operates_of_printable hright⟩⟩
  | .use _ _, _ => List.forall_mem_singleton.2 trivial
  | .assign _ _ value, ⟨_, h⟩ => List.forall_mem_cons.2 ⟨trivial, value.operates_of_printable h⟩
  | .call callee args _, ⟨hcallee, hargs, _⟩ =>
    List.forall_mem_cons.2 ⟨trivial, List.forall_mem_append.2
      ⟨callee.operates_of_printable hcallee, Expr.all_operates_of_printable args hargs⟩⟩

theorem Expr.all_operates_of_printable : ∀ es : List Expr, Expr.AllPrintable (Expr.allAnonymous es) →
    ∀ n ∈ Expr.allNodes es, n.Operates
  | [], _ => nofun
  | e :: es, ⟨he, hes⟩ =>
    List.forall_mem_append.2 ⟨e.operates_of_printable he, Expr.all_operates_of_printable es hes⟩

end

mutual

theorem Stmt.operates_of_printable : ∀ s : Stmt, s.anonymous.Printable → ∀ n ∈ s.nodes, n.Operates
  | .expression e, h => e.operates_of_printable h
  | .print e, h => e.operates_of_printable h
  | .var _ none, _ => nofun
  | .var _ (some init), h => init.operates_of_printable (h.2 _ rfl)
  | .block body, h => Stmt.all_operates_of_printable body h
  | .branch condition consequent none, ⟨hcondition, _, h⟩ =>
    List.forall_mem_append.2 ⟨condition.operates_of_printable hcondition,
      consequent.operates_of_printable h⟩
  | .branch condition consequent (some alternative), ⟨hcondition, _, _, h, _, h'⟩ =>
    List.forall_mem_append.2 ⟨condition.operates_of_printable hcondition,
      List.forall_mem_append.2 ⟨consequent.operates_of_printable h,
        alternative.operates_of_printable h'⟩⟩
  | .loop condition body, ⟨hcondition, _, h⟩ =>
    List.forall_mem_append.2 ⟨condition.operates_of_printable hcondition, body.operates_of_printable h⟩
  | .function _ _ body, ⟨_, _, _, h⟩ => Stmt.all_operates_of_printable body h
  | .ret _ none, _ => nofun
  | .ret _ (some value), h => value.operates_of_printable (h.2 _ rfl)

theorem Stmt.all_operates_of_printable : ∀ ss : List Stmt, Stmt.AllPrintable (Stmt.allAnonymous ss) →
    ∀ n ∈ Stmt.allNodes ss, n.Operates
  | [], _ => nofun
  | s :: ss, ⟨hs, hss⟩ =>
    List.forall_mem_append.2 ⟨s.operates_of_printable hs, Stmt.all_operates_of_printable ss hss⟩

end

/-- Parsing builds no node that has no operation. -/
theorem operates_of_compile {source : String} {ids : IdSupply} {p : Program}
    (h : (compile source ids).1 = .ok p) : ∀ n ∈ p.nodes, n.Operates :=
  Stmt.all_operates_of_printable p (printable_of_parse (compile_eq_ok_iff.1 h).2)

end Lox
