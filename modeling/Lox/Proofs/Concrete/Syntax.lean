import Lox.Grammar.Statement

/-! Concrete syntax: the derivations of the grammar.
There is one constructor for each alternative of the grammar, with all the tokens that it consists
of, and a derivation derives the tokens that it has in order. Its tree is the syntax tree that it
stands for, with all ids zero. -/
namespace Lox
namespace Concrete

open Grammar (Level maxArity)

abbrev TokenOf (p : Kind → Bool) := { t : Token // p t.kind }

abbrev The (kind : Kind) := TokenOf fun k => k = kind

def isPrefix (k : Kind) : Bool := k = .bang || k = .minus

def isConstant (k : Kind) : Bool :=
  k = .trueWord || k = .falseWord || k = .nilWord || k = .number || k = .string

def constant (t : Token) : Literal :=
  match t.kind with
  | .trueWord => .bool true
  | .falseWord => .bool false
  | .nilWord => .nil
  | _ => t.literal.getD .nil

/-- What an operator makes of its operands: `or` and `and` have nodes of their own, since they may leave
the right operand alone. -/
def operation (left : Expr) (op : Token) (right : Expr) : Expr :=
  match op.kind with
  | .orWord | .andWord => .logical left op right
  | _ => .binary left op right

mutual

/-- `expression = IDENT "=" expression | disjunction` -/
inductive Expression
  | assign (name : The .identifier) (equals : The .equal) (value : Expression)
  | chain (operands : Chain Level.all)

/-- `chain = tighter (operator tighter)*`, for the levels from this one on. -/
inductive Chain : List Level → Type
  | unary (operand : Unary) : Chain []
  | level {l : Level} {tighter : List Level} (first : Chain tighter) (links : Links l tighter) :
    Chain (l :: tighter)

/-- Operators of a level, each with the operand that follows it. -/
inductive Links : Level → List Level → Type
  | none {l : Level} {tighter : List Level} : Links l tighter
  | link {l : Level} {tighter : List Level} (op : TokenOf l.has) (operand : Chain tighter)
    (links : Links l tighter) : Links l tighter

/-- `unary = ("!" | "-") unary | call` -/
inductive Unary
  | operator (op : TokenOf isPrefix) (operand : Unary)
  | call (call : Call)

/-- `call = primary ("(" arguments ")")*` -/
inductive Call
  | call (callee : Primary) (suffixes : Suffixes)

inductive Suffixes
  | none
  | arguments (opening : The .leftParen) (args : Arguments) (closing : The .rightParen)
    (suffixes : Suffixes)

inductive Arguments
  | none
  | some (args : ArgumentList maxArity)

/-- `expression ("," expression)*`, with so many expressions at most. -/
inductive ArgumentList : Nat → Type
  | last {room : Nat} (arg : Expression) : ArgumentList (room + 1)
  | more {room : Nat} (arg : Expression) (comma : The .comma) (args : ArgumentList room) :
    ArgumentList (room + 1)

inductive Primary
  | constant (token : TokenOf isConstant)
  | identifier (name : The .identifier)
  | group (opening : The .leftParen) (inner : Expression) (closing : The .rightParen)

end

mutual

def Expression.tokens : Expression → List Token
  | .assign name equals value => name.1 :: equals.1 :: value.tokens
  | .chain operands => operands.tokens

def Chain.tokens {levels : List Level} : Chain levels → List Token
  | .unary operand => operand.tokens
  | .level first links => first.tokens ++ links.tokens

def Links.tokens {l : Level} {tighter : List Level} : Links l tighter → List Token
  | .none => []
  | .link op operand links => op.1 :: (operand.tokens ++ links.tokens)

def Unary.tokens : Unary → List Token
  | .operator op operand => op.1 :: operand.tokens
  | .call call => call.tokens

def Call.tokens : Call → List Token
  | .call callee suffixes => callee.tokens ++ suffixes.tokens

def Suffixes.tokens : Suffixes → List Token
  | .none => []
  | .arguments opening args closing suffixes =>
    opening.1 :: (args.tokens ++ closing.1 :: suffixes.tokens)

def Arguments.tokens : Arguments → List Token
  | .none => []
  | .some args => args.tokens

def ArgumentList.tokens {room : Nat} : ArgumentList room → List Token
  | .last arg => arg.tokens
  | .more arg comma args => arg.tokens ++ comma.1 :: args.tokens

def Primary.tokens : Primary → List Token
  | .constant token => [token.1]
  | .identifier name => [name.1]
  | .group opening inner closing => opening.1 :: (inner.tokens ++ [closing.1])

end

mutual

/-- The syntax tree. Operators of a level and argument lists associate to the left. -/
def Expression.tree : Expression → Expr
  | .assign name _ value => .assign 0 name.1 value.tree
  | .chain operands => operands.tree

def Chain.tree {levels : List Level} : Chain levels → Expr
  | .unary operand => operand.tree
  | .level first links => links.tree first.tree

def Links.tree {l : Level} {tighter : List Level} (left : Expr) : Links l tighter → Expr
  | .none => left
  | .link op operand links => links.tree (operation left op.1 operand.tree)

def Unary.tree : Unary → Expr
  | .operator op operand => .unary op.1 operand.tree
  | .call call => call.tree

def Call.tree : Call → Expr
  | .call callee suffixes => suffixes.tree callee.tree

def Suffixes.tree (callee : Expr) : Suffixes → Expr
  | .none => callee
  | .arguments _ args closing suffixes => suffixes.tree (.call callee args.trees closing.1)

def Arguments.trees : Arguments → List Expr
  | .none => []
  | .some args => args.trees

def ArgumentList.trees {room : Nat} : ArgumentList room → List Expr
  | .last arg => [arg.tree]
  | .more arg _ args => arg.tree :: args.trees

def Primary.tree : Primary → Expr
  | .constant token => .literal (constant token.1)
  | .identifier name => .use 0 name.1
  | .group _ inner _ => .group inner.tree

end

theorem operation_eq_node {l : Level} (op : TokenOf l.has) (left right : Expr) :
    operation left op.1 right = l.node left op.1 right := by
  obtain ⟨op, hop⟩ := op
  cases l <;> grind [operation, Level.node, Level.has]

def Unary.chain (u : Unary) : (levels : List Level) → Chain levels
  | [] => .unary u
  | _ :: tighter => .level (u.chain tighter) .none

def Unary.expression (u : Unary) : Expression := .chain (u.chain Level.all)

def Call.expression (c : Call) : Expression := (Unary.call c).expression

@[simp] theorem Unary.tokens_chain (u : Unary) : ∀ levels, (u.chain levels).tokens = u.tokens
  | [] => rfl
  | _ :: tighter => by
    rw [chain, Chain.tokens, u.tokens_chain tighter, Links.tokens, List.append_nil]

@[simp] theorem Unary.tree_chain (u : Unary) : ∀ levels, (u.chain levels).tree = u.tree
  | [] => rfl
  | _ :: tighter => by rw [chain, Chain.tree, u.tree_chain tighter, Links.tree]

@[simp] theorem Unary.tokens_expression (u : Unary) : u.expression.tokens = u.tokens :=
  u.tokens_chain Level.all

@[simp] theorem Unary.tree_expression (u : Unary) : u.expression.tree = u.tree :=
  u.tree_chain Level.all

@[simp] theorem Call.tokens_expression (c : Call) : c.expression.tokens = c.tokens :=
  (Unary.call c).tokens_expression

@[simp] theorem Call.tree_expression (c : Call) : c.expression.tree = c.tree :=
  (Unary.call c).tree_expression

/-- `"var" IDENT ("=" expression)? ";"` -/
inductive VariableDeclaration
  | bare (keyword : The .varWord) (name : The .identifier) (semicolon : The .semicolon)
  | initialized (keyword : The .varWord) (name : The .identifier) (equals : The .equal)
    (init : Expression) (semicolon : The .semicolon)

/-- `expression ";"` -/
inductive ExpressionStatement
  | statement (e : Expression) (semicolon : The .semicolon)

/-- `IDENT ("," IDENT)*`, with so many names at most. -/
inductive ParameterList : Nat → Type
  | last {room : Nat} (name : The .identifier) : ParameterList (room + 1)
  | more {room : Nat} (name : The .identifier) (comma : The .comma) (names : ParameterList room) :
    ParameterList (room + 1)

inductive Parameters
  | none
  | some (names : ParameterList maxArity)

/-- `";" | variableDeclaration | expression ";"` -/
inductive LoopInitializer
  | none (semicolon : The .semicolon)
  | var (declaration : VariableDeclaration)
  | expression (statement : ExpressionStatement)

mutual

inductive Declaration
  | var (declaration : VariableDeclaration)
  | function (keyword : The .funWord) (name : The .identifier) (opening : The .leftParen)
    (params : Parameters) (closing : The .rightParen) (body : Block)
  | statement (statement : Statement)

/-- `"{" declaration* "}"` -/
inductive Block
  | block (opening : The .leftBrace) (body : List Declaration) (closing : The .rightBrace)

inductive Statement
  | print (keyword : The .printWord) (e : Expression) (semicolon : The .semicolon)
  | ret (keyword : The .returnWord) (value : Option Expression) (semicolon : The .semicolon)
  | expression (statement : ExpressionStatement)
  | block (block : Block)
  | branch (keyword : The .ifWord) (opening : The .leftParen) (condition : Expression)
    (closing : The .rightParen) (consequent : Statement)
  | branchElse (keyword : The .ifWord) (opening : The .leftParen) (condition : Expression)
    (closing : The .rightParen) (consequent : Statement) (otherwise : The .elseWord)
    (alternative : Statement)
  | loop (keyword : The .whileWord) (opening : The .leftParen) (condition : Expression)
    (closing : The .rightParen) (body : Statement)
  | forLoop (keyword : The .forWord) (opening : The .leftParen) (init : LoopInitializer)
    (condition : Option Expression) (semicolon : The .semicolon) (increment : Option Expression)
    (closing : The .rightParen) (body : Statement)

end

def VariableDeclaration.tokens : VariableDeclaration → List Token
  | .bare keyword name semicolon => [keyword.1, name.1, semicolon.1]
  | .initialized keyword name equals init semicolon =>
    keyword.1 :: name.1 :: equals.1 :: (init.tokens ++ [semicolon.1])

def ExpressionStatement.tokens : ExpressionStatement → List Token
  | .statement e semicolon => e.tokens ++ [semicolon.1]

def ParameterList.tokens {room : Nat} : ParameterList room → List Token
  | .last name => [name.1]
  | .more name comma names => name.1 :: comma.1 :: names.tokens

def Parameters.tokens : Parameters → List Token
  | .none => []
  | .some names => names.tokens

def LoopInitializer.tokens : LoopInitializer → List Token
  | .none semicolon => [semicolon.1]
  | .var declaration => declaration.tokens
  | .expression statement => statement.tokens

def optionalTokens : Option Expression → List Token
  | none => []
  | some e => e.tokens

mutual

def Declaration.tokens : Declaration → List Token
  | .var declaration => declaration.tokens
  | .function keyword name opening params closing body =>
    keyword.1 :: name.1 :: opening.1 :: (params.tokens ++ closing.1 :: body.tokens)
  | .statement statement => statement.tokens

def Block.tokens : Block → List Token
  | .block opening body closing => opening.1 :: (allTokens body ++ [closing.1])

def Statement.tokens : Statement → List Token
  | .print keyword e semicolon => keyword.1 :: (e.tokens ++ [semicolon.1])
  | .ret keyword value semicolon => keyword.1 :: (optionalTokens value ++ [semicolon.1])
  | .expression statement => statement.tokens
  | .block block => block.tokens
  | .branch keyword opening condition closing consequent =>
    keyword.1 :: opening.1 :: (condition.tokens ++ closing.1 :: consequent.tokens)
  | .branchElse keyword opening condition closing consequent otherwise alternative =>
    keyword.1 :: opening.1 :: (condition.tokens ++
      closing.1 :: (consequent.tokens ++ otherwise.1 :: alternative.tokens))
  | .loop keyword opening condition closing body =>
    keyword.1 :: opening.1 :: (condition.tokens ++ closing.1 :: body.tokens)
  | .forLoop keyword opening init condition semicolon increment closing body =>
    keyword.1 :: opening.1 :: (init.tokens ++ (optionalTokens condition ++
      semicolon.1 :: (optionalTokens increment ++ closing.1 :: body.tokens)))

def allTokens : List Declaration → List Token
  | [] => []
  | d :: ds => d.tokens ++ allTokens ds

end

def VariableDeclaration.tree : VariableDeclaration → Stmt
  | .bare _ name _ => .var name.1 none
  | .initialized _ name _ init _ => .var name.1 (some init.tree)

def ExpressionStatement.tree : ExpressionStatement → Stmt
  | .statement e _ => .expression e.tree

def ParameterList.names {room : Nat} : ParameterList room → List Token
  | .last name => [name.1]
  | .more name _ names => name.1 :: names.names

def Parameters.names : Parameters → List Token
  | .none => []
  | .some names => names.names

def LoopInitializer.tree? : LoopInitializer → Option Stmt
  | .none _ => .none
  | .var declaration => .some declaration.tree
  | .expression statement => .some statement.tree

mutual

def Declaration.tree : Declaration → Stmt
  | .var declaration => declaration.tree
  | .function _ name _ params _ body => .function name.1 params.names body.trees
  | .statement statement => statement.tree

def Block.trees : Block → List Stmt
  | .block _ body _ => allTrees body

/-- The syntax tree. A `for` loop is rewritten to blocks and a `while` loop. -/
def Statement.tree : Statement → Stmt
  | .print _ e _ => .print e.tree
  | .ret keyword value _ => .ret keyword.1 (value.map Expression.tree)
  | .expression statement => statement.tree
  | .block block => .block block.trees
  | .branch _ _ condition _ consequent => .branch condition.tree consequent.tree none
  | .branchElse _ _ condition _ consequent _ alternative =>
    .branch condition.tree consequent.tree (some alternative.tree)
  | .loop _ _ condition _ body => .loop condition.tree body.tree
  | .forLoop _ _ init condition _ increment _ body =>
    .forLoop init.tree? (condition.map Expression.tree) (increment.map Expression.tree) body.tree

def allTrees : List Declaration → List Stmt
  | [] => []
  | d :: ds => d.tree :: allTrees ds

end

/-- Whether a statement ends with an `if` that an `else` behind it would belong to. -/
def Statement.isOpen : Statement → Bool
  | .branch .. => true
  | .branchElse _ _ _ _ _ _ alternative => alternative.isOpen
  | .loop _ _ _ _ body => body.isOpen
  | .forLoop _ _ _ _ _ _ _ body => body.isOpen
  | _ => false

mutual

/-- Every `else` belongs to the nearest `if` that is open. -/
def Declaration.elseNearest : Declaration → Bool
  | .var _ => true
  | .function _ _ _ _ _ body => body.elseNearest
  | .statement statement => statement.elseNearest

def Block.elseNearest : Block → Bool
  | .block _ body _ => allElseNearest body

def Statement.elseNearest : Statement → Bool
  | .block block => block.elseNearest
  | .branch _ _ _ _ consequent => consequent.elseNearest
  | .branchElse _ _ _ _ consequent _ alternative =>
    !consequent.isOpen && consequent.elseNearest && alternative.elseNearest
  | .loop _ _ _ _ body => body.elseNearest
  | .forLoop _ _ _ _ _ _ _ body => body.elseNearest
  | _ => true

def allElseNearest : List Declaration → Bool
  | [] => true
  | d :: ds => d.elseNearest && allElseNearest ds

end

structure Program where
  declarations : List Declaration
  nearest : allElseNearest declarations

def Program.tokens (p : Program) : List Token := allTokens p.declarations

def Program.tree (p : Program) : Lox.Program := allTrees p.declarations

theorem allTokens_append (ds es : List Declaration) :
    allTokens (ds ++ es) = allTokens ds ++ allTokens es := by
  induction ds with
  | nil => rfl
  | cons d ds ih => rw [List.cons_append, allTokens, allTokens, ih, List.append_assoc]

theorem allTrees_append (ds es : List Declaration) :
    allTrees (ds ++ es) = allTrees ds ++ allTrees es := by
  induction ds with
  | nil => rfl
  | cons d ds ih => rw [List.cons_append, allTrees, allTrees, ih, List.cons_append]

theorem allElseNearest_append {ds es : List Declaration} (hds : allElseNearest ds)
    (hes : allElseNearest es) : allElseNearest (ds ++ es) := by
  induction ds with
  | nil => exact hes
  | cons d ds ih =>
    rw [allElseNearest, Bool.and_eq_true] at hds
    rw [List.cons_append, allElseNearest, hds.1, ih hds.2]
    rfl

def Program.append (p q : Program) : Program :=
  ⟨p.declarations ++ q.declarations, allElseNearest_append p.nearest q.nearest⟩

theorem Program.tokens_append (p q : Program) : (p.append q).tokens = p.tokens ++ q.tokens :=
  allTokens_append p.declarations q.declarations

theorem Program.tree_append (p q : Program) : (p.append q).tree = p.tree ++ q.tree :=
  allTrees_append p.declarations q.declarations

end Concrete
end Lox
