import Lox.Proofs.Concrete.Syntax
import Lox.Proofs.Numbering

/-! The names and `=` that a program is written with.
They can be counted in the tree, so all sources of a tree demand equally many ids
(`Program.demand_tokens`). -/
namespace Lox

mutual

/-- The names and `=` that an expression is written with. -/
def Expr.demand : Expr → Nat
  | .literal _ => 0
  | .group inner => inner.demand
  | .unary _ operand => operand.demand
  | .binary left _ right => left.demand + right.demand
  | .logical left _ right => left.demand + right.demand
  | .use _ _ => 1
  | .assign _ _ value => value.demand + 2
  | .call callee args _ => callee.demand + Expr.demandAll args

def Expr.demandAll : List Expr → Nat
  | [] => 0
  | e :: es => e.demand + Expr.demandAll es

end

mutual

def Stmt.demand : Stmt → Nat
  | .expression e => e.demand
  | .print e => e.demand
  | .var _ none => 1
  | .var _ (some init) => init.demand + 2
  | .block body => Stmt.demandAll body
  | .branch condition consequent none => condition.demand + consequent.demand
  | .branch condition consequent (some alternative) =>
    condition.demand + consequent.demand + alternative.demand
  | .loop condition body => condition.demand + body.demand
  | .function _ params body => params.length + 1 + Stmt.demandAll body
  | .ret _ none => 0
  | .ret _ (some value) => value.demand

def Stmt.demandAll : List Stmt → Nat
  | [] => 0
  | s :: ss => s.demand + Stmt.demandAll ss

end

def Program.demand (p : Program) : Nat := Stmt.demandAll p

namespace Concrete

open Grammar (Level)

theorem demand_the {kind : Kind} (t : The kind) (ts : List Token) :
    demand (t.1 :: ts) = demand ts + if kind = .identifier ∨ kind = .equal then 1 else 0 := by
  rw [Cursor.demand_cons, Token.needsId, of_decide_eq_true t.2]
  simp

theorem demand_other {p : Kind → Bool} (hidentifier : p .identifier = false) (hequal : p .equal = false)
    (t : TokenOf p) (ts : List Token) : demand (t.1 :: ts) = demand ts := by
  have ht : t.1.needsId = false := by
    have hp := t.2
    cases hk : t.1.kind with
    | identifier =>
      rw [hk, hidentifier] at hp
      cases hp
    | equal =>
      rw [hk, hequal] at hp
      cases hp
    | _ => simp [Token.needsId, hk]
  rw [Cursor.demand_cons, ht]
  rfl

theorem demand_operator {l : Level} (op : TokenOf l.has) (ts : List Token) :
    demand (op.1 :: ts) = demand ts := by
  apply demand_other <;> cases l <;> rfl

theorem demand_node (l : Level) (left : Expr) (op : Token) (right : Expr) :
    (l.node left op right).demand = left.demand + right.demand := by
  cases l <;> rfl

theorem demand_nil : demand [] = 0 := rfl

mutual

theorem Expression.demand_tokens : ∀ e : Expression, demand e.tokens = e.tree.demand
  | .assign name equals value => by
    simp [Expression.tokens, demand_the, value.demand_tokens, Expression.tree, Expr.demand]
  | .chain operands => operands.demand_tokens

theorem Chain.demand_tokens {levels : List Level} :
    ∀ c : Chain levels, demand c.tokens = c.tree.demand
  | .unary operand => operand.demand_tokens
  | .level first links => by
    rw [Chain.tokens, demand_append, first.demand_tokens, Chain.tree, links.demand_tree]

theorem Links.demand_tree {l : Level} {tighter : List Level} {left : Expr} :
    ∀ links : Links l tighter, (links.tree left).demand = left.demand + demand links.tokens
  | .none => rfl
  | .link op operand links => by
    rw [Links.tree, links.demand_tree, operation_eq_node, demand_node, Links.tokens, demand_operator, demand_append,
      operand.demand_tokens, Nat.add_assoc]

theorem Unary.demand_tokens : ∀ u : Unary, demand u.tokens = u.tree.demand
  | .operator op operand => by
    rw [Unary.tokens, demand_other rfl rfl, operand.demand_tokens, Unary.tree, Expr.demand]
  | .call call => call.demand_tokens

theorem Call.demand_tokens : ∀ c : Call, demand c.tokens = c.tree.demand
  | .call callee suffixes => by
    rw [Call.tokens, demand_append, callee.demand_tokens, Call.tree, suffixes.demand_tree]

theorem Suffixes.demand_tree {callee : Expr} :
    ∀ suffixes : Suffixes, (suffixes.tree callee).demand = callee.demand + demand suffixes.tokens
  | .none => rfl
  | .arguments opening args closing suffixes => by
    rw [Suffixes.tree, suffixes.demand_tree, Expr.demand, Suffixes.tokens, demand_the, demand_append,
      demand_the, args.demand_tokens]
    exact Nat.add_assoc _ _ _

theorem Arguments.demand_tokens : ∀ args : Arguments, demand args.tokens = Expr.demandAll args.trees
  | .none => rfl
  | .some args => args.demand_tokens

theorem ArgumentList.demand_tokens {room : Nat} :
    ∀ args : ArgumentList room, demand args.tokens = Expr.demandAll args.trees
  | .last arg => arg.demand_tokens
  | .more arg comma args => by
    rw [ArgumentList.tokens, demand_append, demand_the, arg.demand_tokens, args.demand_tokens]
    rfl

theorem Primary.demand_tokens : ∀ p : Primary, demand p.tokens = p.tree.demand
  | .constant token => demand_other rfl rfl token []
  | .identifier name => demand_the name []
  | .group opening inner closing => by
    rw [Primary.tokens, demand_the, demand_append, demand_the, inner.demand_tokens]
    rfl

end

theorem demand_optionalTokens (e : Option Expression) :
    demand (optionalTokens e) = (e.map Expression.tree).elim 0 Expr.demand := by
  cases e with
  | none => rfl
  | some e => exact e.demand_tokens

theorem VariableDeclaration.demand_tokens (d : VariableDeclaration) :
    demand d.tokens = d.tree.demand := by
  cases d with
  | bare keyword name semicolon => simp [tokens, demand_the, demand_nil, tree, Stmt.demand]
  | initialized keyword name equals init semicolon =>
    simp [tokens, demand_the, demand_append, demand_nil, init.demand_tokens, tree, Stmt.demand]

theorem ExpressionStatement.demand_tokens (s : ExpressionStatement) :
    demand s.tokens = s.tree.demand := by
  cases s with
  | statement e semicolon =>
    simp [tokens, demand_the, demand_append, demand_nil, e.demand_tokens, tree, Stmt.demand]

theorem ParameterList.demand_tokens {room : Nat} (names : ParameterList room) :
    demand names.tokens = names.names.length := by
  induction names with
  | last name => exact demand_the name []
  | more name comma names ih => simp [tokens, demand_the, ih, ParameterList.names]

theorem Parameters.demand_tokens (params : Parameters) :
    demand params.tokens = params.names.length := by
  cases params with
  | none => rfl
  | some names => exact names.demand_tokens

theorem LoopInitializer.demand_tokens (init : LoopInitializer) :
    demand init.tokens = init.tree?.elim 0 Stmt.demand := by
  cases init with
  | none semicolon => exact demand_the semicolon []
  | var declaration => exact declaration.demand_tokens
  | expression statement => exact statement.demand_tokens

theorem demand_forLoop (init : Option Stmt) (condition increment : Option Expr) (body : Stmt) :
    (Stmt.forLoop init condition increment body).demand =
      init.elim 0 Stmt.demand + (condition.elim 0 Expr.demand +
        (increment.elim 0 Expr.demand + body.demand)) := by
  cases init <;> cases condition <;> cases increment <;>
    simp [Stmt.forLoop, Stmt.demand, Stmt.demandAll, Expr.demand] <;> omega

mutual

theorem Declaration.demand_tokens : ∀ d : Declaration, demand d.tokens = d.tree.demand
  | .var declaration => declaration.demand_tokens
  | .function keyword name opening params closing body => by
    simp [Declaration.tokens, demand_the, demand_append, params.demand_tokens, body.demand_tokens,
      Declaration.tree, Stmt.demand]
    omega
  | .statement statement => statement.demand_tokens

theorem Block.demand_tokens : ∀ b : Block, demand b.tokens = Stmt.demandAll b.trees
  | .block opening body closing => by
    simp [Block.tokens, demand_the, demand_append, demand_nil, allDemand_tokens body, Block.trees]

theorem Statement.demand_tokens : ∀ s : Statement, demand s.tokens = s.tree.demand
  | .print keyword e semicolon => by
    simp [Statement.tokens, demand_the, demand_append, demand_nil, e.demand_tokens, Statement.tree,
      Stmt.demand]
  | .ret keyword value semicolon => by
    cases value <;>
      simp [Statement.tokens, demand_the, demand_append, demand_nil, demand_optionalTokens,
        Statement.tree, Stmt.demand]
  | .expression statement => statement.demand_tokens
  | .block block => block.demand_tokens
  | .branch keyword opening condition closing consequent => by
    simp [Statement.tokens, demand_the, demand_append, condition.demand_tokens,
      consequent.demand_tokens, Statement.tree, Stmt.demand]
  | .branchElse keyword opening condition closing consequent otherwise alternative => by
    simp [Statement.tokens, demand_the, demand_append, condition.demand_tokens,
      consequent.demand_tokens, alternative.demand_tokens, Statement.tree, Stmt.demand, Nat.add_assoc]
  | .loop keyword opening condition closing body => by
    simp [Statement.tokens, demand_the, demand_append, condition.demand_tokens, body.demand_tokens,
      Statement.tree, Stmt.demand]
  | .forLoop keyword opening init condition semicolon increment closing body => by
    simp [Statement.tokens, demand_the, demand_append, init.demand_tokens, demand_optionalTokens,
      body.demand_tokens, Statement.tree, demand_forLoop]

theorem allDemand_tokens : ∀ ds : List Declaration, demand (allTokens ds) = Stmt.demandAll (allTrees ds)
  | [] => rfl
  | d :: ds => by
    rw [allTokens, demand_append, d.demand_tokens, allDemand_tokens ds, allTrees, Stmt.demandAll]

end

/-- A source has as many names and `=` as its tree is written with. -/
theorem Program.demand_tokens (p : Program) : demand p.tokens = p.tree.demand :=
  allDemand_tokens p.declarations

end Concrete
end Lox
