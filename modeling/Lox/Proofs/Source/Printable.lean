import Lox.Proofs.Anonymous
import Lox.Proofs.Concrete.Syntax
import Lox.Proofs.Number
import Lox.Proofs.Scopes
import Lox.Proofs.Source.Lexemes

/-! Trees whose source text can be read.
The tree of a derivation whose tokens come from scanning is printable (`Program.printable`): its tokens
are lexical, its constants can be denoted, and no branch of an `if` would take the `else` of another. -/
namespace Lox

open Grammar (Level maxArity)
open Concrete (isPrefix)

mutual

/-- The expression without groups, ids and lines. -/
def Expr.stripped : Expr → Expr
  | .literal value => .literal value
  | .group inner => inner.stripped
  | .unary op operand => .unary op.stripped operand.stripped
  | .binary left op right => .binary left.stripped op.stripped right.stripped
  | .logical left op right => .logical left.stripped op.stripped right.stripped
  | .use _ name => .use 0 name.stripped
  | .assign _ name value => .assign 0 name.stripped value.stripped
  | .call callee args paren => .call callee.stripped (Expr.allStripped args) paren.stripped

def Expr.allStripped : List Expr → List Expr
  | [] => []
  | e :: es => e.stripped :: Expr.allStripped es

end

mutual

def Stmt.stripped : Stmt → Stmt
  | .expression e => .expression e.stripped
  | .print e => .print e.stripped
  | .var name init => .var name.stripped (init.map Expr.stripped)
  | .block body => .block (Stmt.allStripped body)
  | .branch condition consequent none => .branch condition.stripped consequent.stripped none
  | .branch condition consequent (some alternative) =>
    .branch condition.stripped consequent.stripped (some alternative.stripped)
  | .loop condition body => .loop condition.stripped body.stripped
  | .function name params body =>
    .function name.stripped (params.map Token.stripped) (Stmt.allStripped body)
  | .ret keyword value => .ret keyword.stripped (value.map Expr.stripped)

def Stmt.allStripped : List Stmt → List Stmt
  | [] => []
  | s :: ss => s.stripped :: Stmt.allStripped ss

end

def Program.stripped (p : Program) : Program := Stmt.allStripped p

mutual

theorem Expr.stripped_anonymous : ∀ e : Expr, e.anonymous.stripped = e.stripped
  | .literal _ => rfl
  | .group inner => inner.stripped_anonymous
  | .unary op operand => by rw [anonymous, stripped, operand.stripped_anonymous, stripped]
  | .binary left op right => by
    rw [anonymous, stripped, left.stripped_anonymous, right.stripped_anonymous, stripped]
  | .logical left op right => by
    rw [anonymous, stripped, left.stripped_anonymous, right.stripped_anonymous, stripped]
  | .use _ _ => rfl
  | .assign _ _ value => by rw [anonymous, stripped, value.stripped_anonymous, stripped]
  | .call callee args _ => by
    rw [anonymous, stripped, callee.stripped_anonymous, allStripped_allAnonymous args, stripped]

theorem Expr.allStripped_allAnonymous : ∀ es : List Expr,
    Expr.allStripped (Expr.allAnonymous es) = Expr.allStripped es
  | [] => rfl
  | e :: es => by
    rw [allAnonymous, allStripped, e.stripped_anonymous, allStripped_allAnonymous es, allStripped]

end

mutual

theorem Expr.source_anonymous : ∀ e : Expr, e.anonymous.source = e.source
  | .literal _ => rfl
  | .group inner => by
    have hoperator : inner.anonymous.isOperator = inner.isOperator := by cases inner <;> rfl
    rw [anonymous, source, inner.source_anonymous, hoperator, source]
  | .unary op operand => by rw [anonymous, source, operand.source_anonymous, source]
  | .binary left op right => by
    rw [anonymous, source, left.source_anonymous, right.source_anonymous, source]
  | .logical left op right => by
    rw [anonymous, source, left.source_anonymous, right.source_anonymous, source]
  | .use _ _ => rfl
  | .assign _ _ value => by rw [anonymous, source, value.source_anonymous, source]
  | .call callee args _ => by
    rw [anonymous, source, callee.source_anonymous, sources_allAnonymous args, source]

theorem Expr.sources_allAnonymous : ∀ es : List Expr,
    Expr.sources (Expr.allAnonymous es) = Expr.sources es
  | [] => rfl
  | e :: es => by rw [allAnonymous, sources, e.source_anonymous, sources_allAnonymous es, sources]

end

mutual

theorem Stmt.stripped_anonymous : ∀ s : Stmt, s.anonymous.stripped = s.stripped
  | .expression e => congrArg expression e.stripped_anonymous
  | .print e => congrArg print e.stripped_anonymous
  | .var name none => rfl
  | .var name (some init) => congrArg (fun e => var name.stripped (some e)) init.stripped_anonymous
  | .block body => congrArg block (allStripped_allAnonymous body)
  | .branch condition consequent none => by
    rw [anonymous, stripped, condition.stripped_anonymous, consequent.stripped_anonymous, stripped]
  | .branch condition consequent (some alternative) => by
    rw [anonymous, stripped, condition.stripped_anonymous, consequent.stripped_anonymous,
      alternative.stripped_anonymous, stripped]
  | .loop condition body => by
    rw [anonymous, stripped, condition.stripped_anonymous, body.stripped_anonymous, stripped]
  | .function name params body => by
    rw [anonymous, stripped, allStripped_allAnonymous body, stripped]
  | .ret keyword none => rfl
  | .ret keyword (some value) =>
    congrArg (fun e => ret keyword.stripped (some e)) value.stripped_anonymous

theorem Stmt.allStripped_allAnonymous : ∀ ss : List Stmt,
    Stmt.allStripped (Stmt.allAnonymous ss) = Stmt.allStripped ss
  | [] => rfl
  | s :: ss => by
    rw [allAnonymous, allStripped, s.stripped_anonymous, allStripped_allAnonymous ss, allStripped]

end

mutual

theorem Stmt.source_anonymous (depth : Nat) : ∀ s : Stmt, s.anonymous.source depth = s.source depth
  | .expression e => by rw [anonymous, source, e.source_anonymous, source]
  | .print e => by rw [anonymous, source, e.source_anonymous, source]
  | .var name none => rfl
  | .var name (some init) => by
    rw [anonymous, Option.map_some, source, init.source_anonymous, source]
  | .block body => by rw [anonymous, source, sources_allAnonymous (depth + 1) body, source]
  | .branch condition consequent none => by
    rw [anonymous, source, condition.source_anonymous, consequent.source_anonymous depth, source]
  | .branch condition consequent (some alternative) => by
    have htakes : consequent.anonymous.takesElse = consequent.takesElse := by
      cases consequent with
      | branch c t a => cases a <;> rfl
      | _ => rfl
    rw [anonymous, source, condition.source_anonymous, consequent.source_anonymous depth,
      consequent.source_anonymous (depth + 1), alternative.source_anonymous depth, htakes, source]
  | .loop condition body => by
    rw [anonymous, source, condition.source_anonymous, body.source_anonymous depth, source]
  | .function name params body => by
    rw [anonymous, source, sources_allAnonymous (depth + 1) body, source]
  | .ret keyword none => rfl
  | .ret keyword (some value) => by
    rw [anonymous, Option.map_some, source, value.source_anonymous, source]

theorem Stmt.sources_allAnonymous (depth : Nat) : ∀ ss : List Stmt,
    Stmt.sources depth (Stmt.allAnonymous ss) = Stmt.sources depth ss
  | [] => rfl
  | s :: ss => by
    rw [allAnonymous, sources, s.source_anonymous depth, sources_allAnonymous depth ss, sources]

end

def Literal.Printable : Literal → Prop
  | .nil | .bool _ => True
  | .number x => ∃ n ≤ Number.infinityBits, x = Number.ofMagnitude n
  | .string s => '"' ∉ s.toList

def Token.IsName (t : Token) : Prop := t.IsLexical ∧ t.kind = .identifier

mutual

/-- The tokens of the expression come from scanning, and its constants from literals. -/
def Expr.Printable : Expr → Prop
  | .literal value => value.Printable
  | .group inner => inner.Printable
  | .unary op operand => op.IsLexical ∧ isPrefix op.kind ∧ operand.Printable
  | .binary left op right => op.IsLexical ∧
    (∃ l : Level, l.has op.kind ∧ ∀ a b, l.node a op b = .binary a op b) ∧
      left.Printable ∧ right.Printable
  | .logical left op right => op.IsLexical ∧
    (∃ l : Level, l.has op.kind ∧ ∀ a b, l.node a op b = .logical a op b) ∧
      left.Printable ∧ right.Printable
  | .use _ name => name.IsName
  | .assign _ name value => name.IsName ∧ value.Printable
  | .call callee args paren => callee.Printable ∧ Expr.AllPrintable args ∧
    args.length ≤ maxArity ∧ paren.stripped = ⟨.rightParen, ")", none, 0⟩

def Expr.AllPrintable : List Expr → Prop
  | [] => True
  | e :: es => e.Printable ∧ Expr.AllPrintable es

end

/-- Whether a statement ends with an `if` that an `else` behind it would belong to. -/
def Stmt.isOpen : Stmt → Bool
  | .branch _ _ none => true
  | .branch _ _ (some alternative) => alternative.isOpen
  | .loop _ body => body.isOpen
  | _ => false

mutual

/-- The expressions in the statement are printable, and every `else` belongs to the nearest `if`
that is open. -/
def Stmt.Printable : Stmt → Prop
  | .expression e => e.Printable
  | .print e => e.Printable
  | .var name init => name.IsName ∧ ∀ e ∈ init, e.Printable
  | .block body => Stmt.AllPrintable body
  | .branch condition consequent none =>
    condition.Printable ∧ consequent.declares = false ∧ consequent.Printable
  | .branch condition consequent (some alternative) =>
    condition.Printable ∧ consequent.isOpen = false ∧ consequent.declares = false ∧
      consequent.Printable ∧ alternative.declares = false ∧ alternative.Printable
  | .loop condition body => condition.Printable ∧ body.declares = false ∧ body.Printable
  | .function name params body => name.IsName ∧ (∀ param ∈ params, param.IsName) ∧
    params.length ≤ maxArity ∧ Stmt.AllPrintable body
  | .ret keyword value =>
    keyword.stripped = ⟨.returnWord, "return", none, 0⟩ ∧ ∀ e ∈ value, e.Printable

def Stmt.AllPrintable : List Stmt → Prop
  | [] => True
  | s :: ss => s.Printable ∧ Stmt.AllPrintable ss

end

def AllLexical (ts : List Token) : Prop := ∀ t ∈ ts, t.IsLexical

theorem AllLexical.cons {t : Token} {ts : List Token} (h : AllLexical (t :: ts)) :
    t.IsLexical ∧ AllLexical ts := List.forall_mem_cons.1 h

theorem AllLexical.append {ts us : List Token} (h : AllLexical (ts ++ us)) :
    AllLexical ts ∧ AllLexical us := List.forall_mem_append.1 h

namespace Concrete

theorem The.isName {t : The .identifier} (h : t.1.IsLexical) : t.1.IsName :=
  ⟨h, of_decide_eq_true t.2⟩

theorem The.stripped_rightParen {t : The .rightParen} (h : t.1.IsLexical) :
    t.1.stripped = ⟨.rightParen, ")", none, 0⟩ := by
  have hk : t.1.kind = .rightParen := of_decide_eq_true t.2
  have hfixed : ∀ m ∈ Token.fixedTexts, m.1 = .rightParen → m.2 = [')'] := by decide
  have ht : t.1.stripped = ⟨t.1.kind, .ofList [')'], none, 0⟩ :=
    h.stripped_eq (by rwa [hk]) (by simp [hk])
  rw [ht, hk]

theorem The.stripped_returnWord {t : The .returnWord} (h : t.1.IsLexical) :
    t.1.stripped = ⟨.returnWord, "return", none, 0⟩ := by
  have hk : t.1.kind = .returnWord := of_decide_eq_true t.2
  have hfixed : ∀ m ∈ Token.fixedTexts, m.1 = .returnWord → m.2 = "return".toList := by decide
  have ht : t.1.stripped = ⟨t.1.kind, .ofList "return".toList, none, 0⟩ :=
    h.stripped_eq (by rwa [hk]) (by simp [hk])
  rw [ht, hk]
  rfl

theorem printable_constant {t : Token} (ht : isConstant t.kind) (h : t.IsLexical) :
    (constant t).Printable := by
  unfold constant
  split
  · trivial
  · trivial
  · trivial
  · next htrue hfalse hnil =>
    rcases h.cases with ⟨hk, -⟩ | ⟨-, body, hbody, hl⟩ | ⟨-, whole, fraction, hl⟩ |
      ⟨text, hmem, -⟩
    · simp [hk, isConstant] at ht
    · rw [hl]
      change '"' ∉ (String.ofList body).toList
      rwa [String.toList_ofList]
    · rw [hl]
      exact Number.exists_ofMagnitude whole fraction
    · have hfixed : ∀ m ∈ Token.fixedTexts, isConstant m.1 →
          m.1 = .trueWord ∨ m.1 = .falseWord ∨ m.1 = .nilWord := by decide
      rcases hfixed _ hmem ht with hk | hk | hk
      · exact absurd hk htrue
      · exact absurd hk hfalse
      · exact absurd hk hnil

theorem printable_node {l : Level} {left right : Expr} {op : TokenOf l.has} (h : op.1.IsLexical)
    (hleft : left.Printable) (hright : right.Printable) : (l.node left op.1 right).Printable := by
  cases l with
  | disjunction => exact ⟨h, ⟨.disjunction, op.2, fun _ _ => rfl⟩, hleft, hright⟩
  | conjunction => exact ⟨h, ⟨.conjunction, op.2, fun _ _ => rfl⟩, hleft, hright⟩
  | equality => exact ⟨h, ⟨.equality, op.2, fun _ _ => rfl⟩, hleft, hright⟩
  | comparison => exact ⟨h, ⟨.comparison, op.2, fun _ _ => rfl⟩, hleft, hright⟩
  | term => exact ⟨h, ⟨.term, op.2, fun _ _ => rfl⟩, hleft, hright⟩
  | factor => exact ⟨h, ⟨.factor, op.2, fun _ _ => rfl⟩, hleft, hright⟩

mutual

theorem Expression.printable : ∀ d : Expression, AllLexical d.tokens → d.tree.Printable
  | .assign name equals value, h => by
    obtain ⟨hname, h⟩ := h.cons
    exact ⟨name.isName hname, value.printable h.cons.2⟩
  | .chain operands, h => operands.printable h
termination_by structural d => d

theorem Chain.printable {levels : List Level} : ∀ d : Chain levels, AllLexical d.tokens →
    d.tree.Printable
  | .unary operand, h => operand.printable h
  | .level first links, h => links.printable h.append.2 (first.printable h.append.1)
termination_by structural d => d

theorem Links.printable {l : Level} {tighter : List Level} : ∀ (d : Links l tighter) {left : Expr},
    AllLexical d.tokens → left.Printable → (d.tree left).Printable
  | .none, _, _, hleft => hleft
  | .link op operand links, _, h, hleft => by
    obtain ⟨hop, h⟩ := h.cons
    have hnode := printable_node hop hleft (operand.printable h.append.1)
    rw [← operation_eq_node op] at hnode
    exact links.printable h.append.2 hnode
termination_by structural d => d

theorem Unary.printable : ∀ d : Unary, AllLexical d.tokens → d.tree.Printable
  | .operator op operand, h => ⟨h.cons.1, op.2, operand.printable h.cons.2⟩
  | .call c, h => c.printable h
termination_by structural d => d

theorem Call.printable : ∀ d : Call, AllLexical d.tokens → d.tree.Printable
  | .call callee suffixes, h => suffixes.printable h.append.2 (callee.printable h.append.1)
termination_by structural d => d

theorem Suffixes.printable : ∀ (d : Suffixes) {callee : Expr}, AllLexical d.tokens →
    callee.Printable → (d.tree callee).Printable
  | .none, _, _, hcallee => hcallee
  | .arguments opening args closing suffixes, _, h, hcallee => by
    obtain ⟨hargs, h⟩ := h.cons.2.append
    obtain ⟨hprintable, hlength⟩ := args.printable hargs
    exact suffixes.printable h.cons.2
      ⟨hcallee, hprintable, hlength, closing.stripped_rightParen h.cons.1⟩
termination_by structural d => d

theorem Arguments.printable : ∀ d : Arguments, AllLexical d.tokens →
    Expr.AllPrintable d.trees ∧ d.trees.length ≤ maxArity
  | .none, _ => ⟨trivial, Nat.zero_le _⟩
  | .some args, h => args.printable h
termination_by structural d => d

theorem ArgumentList.printable {room : Nat} : ∀ d : ArgumentList room, AllLexical d.tokens →
    Expr.AllPrintable d.trees ∧ d.trees.length ≤ room
  | .last arg, h => ⟨⟨arg.printable h, trivial⟩, Nat.succ_le_succ (Nat.zero_le _)⟩
  | .more arg _ args, h => by
    obtain ⟨hargs, hlength⟩ := args.printable h.append.2.cons.2
    exact ⟨⟨arg.printable h.append.1, hargs⟩, Nat.succ_le_succ hlength⟩
termination_by structural d => d

theorem Primary.printable : ∀ d : Primary, AllLexical d.tokens → d.tree.Printable
  | .constant token, h => printable_constant token.2 h.cons.1
  | .identifier name, h => name.isName h.cons.1
  | .group _ inner _, h => inner.printable h.cons.2.append.1
termination_by structural d => d

end

theorem optional_printable : ∀ {d : Option Expression}, AllLexical (optionalTokens d) →
    ∀ e ∈ d.map Expression.tree, e.Printable
  | some d, h, _, rfl => d.printable h

theorem VariableDeclaration.printable : ∀ d : VariableDeclaration, AllLexical d.tokens →
    d.tree.Printable
  | .bare _ name _, h => ⟨name.isName h.cons.2.cons.1, nofun⟩
  | .initialized _ name _ init _, h => by
    obtain ⟨hname, h⟩ := h.cons.2.cons
    refine ⟨name.isName hname, ?_⟩
    rintro _ ⟨⟩
    exact init.printable h.cons.2.append.1

theorem ExpressionStatement.printable : ∀ d : ExpressionStatement, AllLexical d.tokens →
    d.tree.Printable
  | .statement e _, h => e.printable h.append.1

theorem ParameterList.printable {room : Nat} : ∀ d : ParameterList room, AllLexical d.tokens →
    (∀ name ∈ d.names, name.IsName) ∧ d.names.length ≤ room
  | .last name, h => by
    refine ⟨fun n hn => ?_, Nat.succ_le_succ (Nat.zero_le _)⟩
    rw [List.mem_singleton.1 hn]
    exact name.isName h.cons.1
  | .more name _ names, h => by
    obtain ⟨hname, h⟩ := h.cons
    obtain ⟨hnames, hlength⟩ := names.printable h.cons.2
    exact ⟨List.forall_mem_cons.2 ⟨name.isName hname, hnames⟩, Nat.succ_le_succ hlength⟩

theorem Parameters.printable : ∀ d : Parameters, AllLexical d.tokens →
    (∀ name ∈ d.names, name.IsName) ∧ d.names.length ≤ maxArity
  | .none, _ => ⟨nofun, Nat.zero_le _⟩
  | .some names, h => names.printable h

theorem LoopInitializer.printable : ∀ d : LoopInitializer, AllLexical d.tokens →
    ∀ s ∈ d.tree?, s.Printable
  | .none _, _, _, h => nomatch h
  | .var d, h, _, rfl => d.printable h
  | .expression d, h, _, rfl => d.printable h

end Concrete

/-- The parts of a `for` loop are printable, so the loops and blocks that it is rewritten to are. -/
theorem Stmt.printable_forLoop {init : Option Stmt} {condition increment : Option Expr}
    {body : Stmt} (hi : ∀ s ∈ init, s.Printable) (hc : ∀ e ∈ condition, e.Printable)
    (hincrement : ∀ e ∈ increment, e.Printable) (hb : body.Printable)
    (hbody : body.declares = false) : (forLoop init condition increment body).Printable ∧
      (forLoop init condition increment body).declares = false := by
  have hcondition : (condition.getD (.literal (.bool true))).Printable := by
    cases condition with
    | none => trivial
    | some e => exact hc e rfl
  cases init with
  | none =>
    cases increment with
    | none => exact ⟨⟨hcondition, hbody, hb⟩, rfl⟩
    | some e => exact ⟨⟨hcondition, rfl, hb, hincrement e rfl, trivial⟩, rfl⟩
  | some s =>
    cases increment with
    | none => exact ⟨⟨hi s rfl, ⟨hcondition, hbody, hb⟩, trivial⟩, rfl⟩
    | some e => exact ⟨⟨hi s rfl, ⟨hcondition, rfl, hb, hincrement e rfl, trivial⟩, trivial⟩, rfl⟩

theorem Stmt.isOpen_forLoop {init : Option Stmt} {condition increment : Option Expr} {body : Stmt}
    (h : (forLoop init condition increment body).isOpen) : body.isOpen := by
  cases init <;> cases increment <;> first | exact h | cases h

namespace Concrete

theorem Statement.isOpen_of_tree : ∀ d : Statement, d.tree.isOpen → d.isOpen
  | .print .., h => nomatch h
  | .ret .., h => nomatch h
  | .expression (.statement ..), h => nomatch h
  | .block _, h => nomatch h
  | .branch .., _ => rfl
  | .branchElse _ _ _ _ _ _ alternative, h => alternative.isOpen_of_tree h
  | .loop _ _ _ _ body, h => body.isOpen_of_tree h
  | .forLoop _ _ _ _ _ _ _ body, h => body.isOpen_of_tree (Stmt.isOpen_forLoop h)

mutual

theorem Declaration.printable : ∀ d : Declaration, AllLexical d.tokens → d.elseNearest →
    d.tree.Printable
  | .var d, h, _ => d.printable h
  | .function _ name _ params _ body, h, hn => by
    obtain ⟨hname, h⟩ := h.cons.2.cons
    obtain ⟨hparams, h⟩ := h.cons.2.append
    obtain ⟨hnames, hlength⟩ := params.printable hparams
    exact ⟨name.isName hname, hnames, hlength, body.printable h.cons.2 hn⟩
  | .statement d, h, hn => (d.printable h hn).1
termination_by structural d => d

theorem Block.printable : ∀ d : Block, AllLexical d.tokens → d.elseNearest →
    Stmt.AllPrintable d.trees
  | .block _ body _, h, hn => all_printable body h.cons.2.append.1 hn
termination_by structural d => d

theorem Statement.printable : ∀ d : Statement, AllLexical d.tokens → d.elseNearest →
    d.tree.Printable ∧ d.tree.declares = false
  | .print _ e _, h, _ => ⟨e.printable h.cons.2.append.1, rfl⟩
  | .ret keyword value _, h, _ =>
    ⟨⟨keyword.stripped_returnWord h.cons.1, optional_printable h.cons.2.append.1⟩, rfl⟩
  | .expression (.statement e _), h, _ => ⟨e.printable h.append.1, rfl⟩
  | .block body, h, hn => ⟨body.printable h hn, rfl⟩
  | .branch _ _ condition _ consequent, h, hn => by
    obtain ⟨hcondition, h⟩ := h.cons.2.cons.2.append
    obtain ⟨hprintable, hbody⟩ := consequent.printable h.cons.2 hn
    exact ⟨⟨condition.printable hcondition, hbody, hprintable⟩, rfl⟩
  | .branchElse _ _ condition _ consequent _ alternative, h, hn => by
    simp only [Statement.elseNearest, Bool.and_eq_true, Bool.not_eq_true'] at hn
    obtain ⟨hcondition, h⟩ := h.cons.2.cons.2.append
    obtain ⟨hconsequent, h⟩ := h.cons.2.append
    obtain ⟨hprintable, hbody⟩ := consequent.printable hconsequent hn.1.2
    obtain ⟨hprintable', hbody'⟩ := alternative.printable h.cons.2 hn.2
    have hclosed : consequent.tree.isOpen = false := by
      rw [← Bool.not_eq_true]
      intro hopen
      simp [consequent.isOpen_of_tree hopen] at hn
    exact ⟨⟨condition.printable hcondition, hclosed, hbody, hprintable, hbody', hprintable'⟩, rfl⟩
  | .loop _ _ condition _ body, h, hn => by
    obtain ⟨hcondition, h⟩ := h.cons.2.cons.2.append
    obtain ⟨hprintable, hbody⟩ := body.printable h.cons.2 hn
    exact ⟨⟨condition.printable hcondition, hbody, hprintable⟩, rfl⟩
  | .forLoop _ _ init condition _ increment _ body, h, hn => by
    obtain ⟨hinit, h⟩ := h.cons.2.cons.2.append
    obtain ⟨hcondition, h⟩ := h.append
    obtain ⟨hincrement, h⟩ := h.cons.2.append
    obtain ⟨hprintable, hbody⟩ := body.printable h.cons.2 hn
    exact Stmt.printable_forLoop (init.printable hinit) (optional_printable hcondition)
      (optional_printable hincrement) hprintable hbody
termination_by structural d => d

theorem all_printable : ∀ ds : List Declaration, AllLexical (allTokens ds) → allElseNearest ds →
    Stmt.AllPrintable (allTrees ds)
  | [], _, _ => trivial
  | d :: ds, h, hn => by
    simp only [allElseNearest, Bool.and_eq_true] at hn
    exact ⟨d.printable h.append.1 hn.1, all_printable ds h.append.2 hn.2⟩
termination_by structural ds => ds

end

/-- The tree of a derivation whose tokens come from scanning is printable. -/
theorem Program.printable (d : Program) (h : AllLexical d.tokens) : Stmt.AllPrintable d.tree :=
  all_printable d.declarations h d.nearest

end Concrete
end Lox
