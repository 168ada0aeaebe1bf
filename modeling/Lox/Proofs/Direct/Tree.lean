import Lox.Proofs.Compilation
import Lox.Proofs.Plain

/-! Trees that keep their `for` loops.
A direct tree has a node for each `for` loop of the text, where the parser writes blocks and a
`while` loop. Every program that is parsed comes from a direct tree in this way, whose loops are
those of the derivation (`exists_reads`). -/
namespace Lox
namespace Direct

inductive Init
  | var (name : Token) (init : Option Expr)
  | expression (e : Expr)

mutual

/-- What may stand in a block. -/
inductive Declaration
  | var (name : Token) (init : Option Expr)
  | function (name : Token) (params : List Token) (body : List Declaration)
  | statement (s : Statement)

/-- What may also be a branch or the body of a loop. -/
inductive Statement
  | expression (e : Expr)
  | print (e : Expr)
  | block (body : List Declaration)
  | branch (condition : Expr) (consequent : Statement) (alternative : Option Statement)
  | loop (condition : Expr) (body : Statement)
  | forLoop (init : Option Init) (condition increment : Option Expr) (body : Statement)
  | ret (keyword : Token) (value : Option Expr)

end

abbrev Program := List Declaration

def Init.lower : Init → Stmt
  | .var name init => .var name init
  | .expression e => .expression e

mutual

def Declaration.lower : Declaration → Stmt
  | .var name init => .var name init
  | .function name params body => .function name params (lowerAll body)
  | .statement s => s.lower

def Statement.lower : Statement → Stmt
  | .expression e => .expression e
  | .print e => .print e
  | .block body => .block (lowerAll body)
  | .branch condition consequent none => .branch condition consequent.lower none
  | .branch condition consequent (some alternative) =>
    .branch condition consequent.lower (some alternative.lower)
  | .loop condition body => .loop condition body.lower
  | .forLoop init condition increment body =>
    .forLoop (init.map Init.lower) condition increment body.lower
  | .ret keyword value => .ret keyword value

def lowerAll : List Declaration → List Stmt
  | [] => []
  | d :: ds => d.lower :: lowerAll ds

end

def Init.anonymous : Init → Init
  | .var name init => .var name (init.map Expr.anonymous)
  | .expression e => .expression e.anonymous

mutual

def Declaration.anonymous : Declaration → Declaration
  | .var name init => .var name (init.map Expr.anonymous)
  | .function name params body => .function name params (allAnonymous body)
  | .statement s => .statement s.anonymous

def Statement.anonymous : Statement → Statement
  | .expression e => .expression e.anonymous
  | .print e => .print e.anonymous
  | .block body => .block (allAnonymous body)
  | .branch condition consequent none => .branch condition.anonymous consequent.anonymous none
  | .branch condition consequent (some alternative) =>
    .branch condition.anonymous consequent.anonymous (some alternative.anonymous)
  | .loop condition body => .loop condition.anonymous body.anonymous
  | .forLoop init condition increment body =>
    .forLoop (init.map Init.anonymous) (condition.map Expr.anonymous)
      (increment.map Expr.anonymous) body.anonymous
  | .ret keyword value => .ret keyword (value.map Expr.anonymous)

def allAnonymous : List Declaration → List Declaration
  | [] => []
  | d :: ds => d.anonymous :: allAnonymous ds

end

/-! ### Bodies -/

mutual

theorem Declaration.isPlain_lower : ∀ d : Declaration, d.lower.isPlain
  | .var .. => rfl
  | .function _ _ body => arePlain_lowerAll body
  | .statement s => Stmt.isPlain_of_isBody (Statement.isBody_lower s)

/-- A statement is no bare declaration, also after its loops have been rewritten. -/
theorem Statement.isBody_lower : ∀ s : Statement, s.lower.isBody
  | .expression _ | .print _ | .ret .. => rfl
  | .block body => arePlain_lowerAll body
  | .branch _ consequent none => Stmt.isBody_branch consequent.isBody_lower nofun
  | .branch _ consequent (some alternative) =>
    Stmt.isBody_branch consequent.isBody_lower fun _ h =>
      Option.some.inj h ▸ alternative.isBody_lower
  | .loop _ body => Statement.isBody_lower body
  | .forLoop init _ _ body => by
    refine Stmt.isBody_forLoop (fun s hs => ?_) body.isBody_lower
    obtain ⟨init, -, rfl⟩ := Option.map_eq_some_iff.1 hs
    cases init <;> rfl

theorem arePlain_lowerAll : ∀ ds : List Declaration, Stmt.arePlain (lowerAll ds)
  | [] => rfl
  | d :: ds => Bool.and_eq_true_iff.2 ⟨d.isPlain_lower, arePlain_lowerAll ds⟩

end

theorem Statement.declares_lower (s : Statement) : s.lower.declares = false := by
  simpa using (Bool.and_eq_true_iff.1 s.isBody_lower).1

end Direct

/-! ### Trees up to ids -/

section

variable {s : Stmt}

theorem Stmt.of_anonymous_expression {e : Expr} (h : s.anonymous = .expression e) :
    ∃ e', s = .expression e' ∧ e'.anonymous = e := by
  cases s with
  | expression e' => exact ⟨e', rfl, Stmt.expression.inj h⟩
  | branch _ _ alternative => cases alternative <;> cases h
  | _ => cases h

theorem Stmt.of_anonymous_print {e : Expr} (h : s.anonymous = .print e) :
    ∃ e', s = .print e' ∧ e'.anonymous = e := by
  cases s with
  | print e' => exact ⟨e', rfl, Stmt.print.inj h⟩
  | branch _ _ alternative => cases alternative <;> cases h
  | _ => cases h

theorem Stmt.of_anonymous_var {name : Token} {init : Option Expr}
    (h : s.anonymous = .var name init) :
    ∃ init', s = .var name init' ∧ init'.map Expr.anonymous = init := by
  cases s with
  | var name' init' =>
    obtain ⟨rfl, hinit⟩ := Stmt.var.inj h
    exact ⟨init', rfl, hinit⟩
  | branch _ _ alternative => cases alternative <;> cases h
  | _ => cases h

theorem Stmt.of_anonymous_block {body : List Stmt} (h : s.anonymous = .block body) :
    ∃ body', s = .block body' ∧ Stmt.allAnonymous body' = body := by
  cases s with
  | block body' => exact ⟨body', rfl, Stmt.block.inj h⟩
  | branch _ _ alternative => cases alternative <;> cases h
  | _ => cases h

theorem Stmt.of_anonymous_branch {condition : Expr} {consequent : Stmt} {alternative : Option Stmt}
    (h : s.anonymous = .branch condition consequent alternative) :
    ∃ condition' consequent' alternative', s = .branch condition' consequent' alternative' ∧
      condition'.anonymous = condition ∧ consequent'.anonymous = consequent ∧
      alternative'.map Stmt.anonymous = alternative := by
  cases s with
  | branch condition' consequent' alternative' =>
    cases alternative' <;> exact ⟨_, _, _, rfl, Stmt.branch.inj h⟩
  | _ => cases h

theorem Stmt.of_anonymous_loop {condition : Expr} {body : Stmt}
    (h : s.anonymous = .loop condition body) : ∃ condition' body', s = .loop condition' body' ∧
      condition'.anonymous = condition ∧ body'.anonymous = body := by
  cases s with
  | loop condition' body' => exact ⟨condition', body', rfl, Stmt.loop.inj h⟩
  | branch _ _ alternative => cases alternative <;> cases h
  | _ => cases h

theorem Stmt.of_anonymous_function {name : Token} {params : List Token} {body : List Stmt}
    (h : s.anonymous = .function name params body) :
    ∃ body', s = .function name params body' ∧ Stmt.allAnonymous body' = body := by
  cases s with
  | function name' params' body' =>
    obtain ⟨rfl, rfl, hbody⟩ := Stmt.function.inj h
    exact ⟨body', rfl, hbody⟩
  | branch _ _ alternative => cases alternative <;> cases h
  | _ => cases h

theorem Stmt.of_anonymous_ret {keyword : Token} {value : Option Expr}
    (h : s.anonymous = .ret keyword value) :
    ∃ value', s = .ret keyword value' ∧ value'.map Expr.anonymous = value := by
  cases s with
  | ret keyword' value' =>
    obtain ⟨rfl, hvalue⟩ := Stmt.ret.inj h
    exact ⟨value', rfl, hvalue⟩
  | branch _ _ alternative => cases alternative <;> cases h
  | _ => cases h

theorem Stmt.of_allAnonymous_cons {ss : List Stmt} {t : Stmt} {ts : List Stmt}
    (h : Stmt.allAnonymous ss = t :: ts) :
    ∃ t' ts', ss = t' :: ts' ∧ t'.anonymous = t ∧ Stmt.allAnonymous ts' = ts := by
  cases ss with
  | nil => cases h
  | cons t' ts' => exact ⟨t', ts', rfl, List.cons.inj h⟩

theorem Stmt.of_allAnonymous_nil {ss : List Stmt} (h : Stmt.allAnonymous ss = []) : ss = [] := by
  cases ss with
  | nil => rfl
  | cons t ts => cases h

theorem Expr.of_anonymous_getD {e : Expr} {condition : Option Expr}
    (h : e.anonymous = condition.getD (.literal (.bool true))) :
    ∃ condition' : Option Expr, e = condition'.getD (.literal (.bool true)) ∧
      condition'.map Expr.anonymous = condition := by
  cases condition with
  | some c => exact ⟨some e, rfl, congrArg some h⟩
  | none =>
    refine ⟨none, ?_, rfl⟩
    cases e with
    | literal value => exact congrArg Expr.literal (Expr.literal.inj h)
    | _ => cases h

theorem Stmt.of_anonymous_forLoop {init : Option Stmt} {condition increment : Option Expr}
    {body : Stmt} (h : s.anonymous = forLoop init condition increment body) :
    ∃ init' condition' increment' body', s = forLoop init' condition' increment' body' ∧
      init'.map Stmt.anonymous = init ∧ condition'.map Expr.anonymous = condition ∧
      increment'.map Expr.anonymous = increment ∧ body'.anonymous = body := by
  have hrounds : ∀ {s : Stmt}, s.anonymous = forLoop none condition increment body →
      ∃ condition' increment' body', s = forLoop none condition' increment' body' ∧
        condition'.map Expr.anonymous = condition ∧ increment'.map Expr.anonymous = increment ∧
        body'.anonymous = body := by
    intro s h
    obtain ⟨c, round, rfl, hc, hround⟩ := of_anonymous_loop h
    obtain ⟨condition', rfl, hcondition⟩ := Expr.of_anonymous_getD hc
    cases increment with
    | none => exact ⟨condition', none, round, rfl, hcondition, rfl, hround⟩
    | some e =>
      obtain ⟨ss, rfl, hss⟩ := of_anonymous_block hround
      obtain ⟨body', ss, rfl, hbody, hss⟩ := of_allAnonymous_cons hss
      obtain ⟨last, ss, rfl, hlast, hnil⟩ := of_allAnonymous_cons hss
      obtain ⟨e', rfl, he⟩ := of_anonymous_expression hlast
      obtain rfl := of_allAnonymous_nil hnil
      exact ⟨condition', some e', body', rfl, hcondition, congrArg some he, hbody⟩
  cases init with
  | none =>
    obtain ⟨condition', increment', body', rfl, hparts⟩ := hrounds h
    exact ⟨none, condition', increment', body', rfl, rfl, hparts⟩
  | some first =>
    obtain ⟨ss, rfl, hss⟩ := of_anonymous_block h
    obtain ⟨first', ss, rfl, hfirst, hss⟩ := of_allAnonymous_cons hss
    obtain ⟨rounds, ss, rfl, hrest, hnil⟩ := of_allAnonymous_cons hss
    obtain rfl := of_allAnonymous_nil hnil
    obtain ⟨condition', increment', body', rfl, hparts⟩ := hrounds hrest
    exact ⟨some first', condition', increment', body', rfl, congrArg some hfirst, hparts⟩

end

namespace Direct

theorem Init.exists_lower {init₀ : Option Init} {init : Option Stmt}
    (h : init.map Stmt.anonymous = init₀.map Init.lower) :
    ∃ init' : Option Init, init'.map Init.lower = init ∧ init'.map Init.anonymous = init₀ := by
  cases init₀ with
  | none => exact ⟨none, (Option.map_eq_none_iff.1 h).symm, rfl⟩
  | some i =>
    obtain ⟨s, rfl, hs⟩ := Option.map_eq_some_iff.1 h
    cases i with
    | var name e =>
      obtain ⟨e', rfl, he⟩ := Stmt.of_anonymous_var hs
      exact ⟨some (.var name e'), rfl, congrArg (some <| Init.var name ·) he⟩
    | expression e =>
      obtain ⟨e', rfl, he⟩ := Stmt.of_anonymous_expression hs
      exact ⟨some (.expression e'), rfl, congrArg (some <| Init.expression ·) he⟩

mutual

theorem Declaration.exists_lower : ∀ (d : Declaration) {s : Stmt}, s.anonymous = d.lower →
    ∃ d' : Declaration, d'.lower = s ∧ d'.anonymous = d
  | .var name init, s, h => by
    obtain ⟨init', rfl, rfl⟩ := Stmt.of_anonymous_var h
    exact ⟨.var name init', rfl, rfl⟩
  | .function name params body, s, h => by
    obtain ⟨body', rfl, hbody⟩ := Stmt.of_anonymous_function h
    obtain ⟨ds, rfl, hds⟩ := exists_lowerAll body hbody
    exact ⟨.function name params ds, rfl, congrArg (Declaration.function name params ·) hds⟩
  | .statement t, s, h => by
    obtain ⟨t', rfl, ht⟩ := Statement.exists_lower t h
    exact ⟨.statement t', rfl, congrArg Declaration.statement ht⟩

/-- What differs in ids only from a tree that comes from a direct one comes from a direct one. -/
theorem Statement.exists_lower : ∀ (t : Statement) {s : Stmt}, s.anonymous = t.lower →
    ∃ t' : Statement, t'.lower = s ∧ t'.anonymous = t
  | .expression e, s, h => by
    obtain ⟨e', rfl, rfl⟩ := Stmt.of_anonymous_expression h
    exact ⟨.expression e', rfl, rfl⟩
  | .print e, s, h => by
    obtain ⟨e', rfl, rfl⟩ := Stmt.of_anonymous_print h
    exact ⟨.print e', rfl, rfl⟩
  | .block body, s, h => by
    obtain ⟨body', rfl, hbody⟩ := Stmt.of_anonymous_block h
    obtain ⟨ds, rfl, hds⟩ := exists_lowerAll body hbody
    exact ⟨.block ds, rfl, congrArg Statement.block hds⟩
  | .branch condition consequent none, s, h => by
    obtain ⟨condition', consequent', alternative', rfl, rfl, hc, ha⟩ := Stmt.of_anonymous_branch h
    obtain rfl := Option.map_eq_none_iff.1 ha
    obtain ⟨c, rfl, rfl⟩ := Statement.exists_lower consequent hc
    exact ⟨.branch condition' c none, rfl, rfl⟩
  | .branch condition consequent (some alternative), s, h => by
    obtain ⟨condition', consequent', alternative', rfl, rfl, hc, ha⟩ := Stmt.of_anonymous_branch h
    obtain ⟨a', rfl, ha'⟩ := Option.map_eq_some_iff.1 ha
    obtain ⟨c, rfl, rfl⟩ := Statement.exists_lower consequent hc
    obtain ⟨a, rfl, rfl⟩ := Statement.exists_lower alternative ha'
    exact ⟨.branch condition' c (some a), rfl, rfl⟩
  | .loop condition body, s, h => by
    obtain ⟨condition', body', rfl, rfl, hb⟩ := Stmt.of_anonymous_loop h
    obtain ⟨b, rfl, rfl⟩ := Statement.exists_lower body hb
    exact ⟨.loop condition' b, rfl, rfl⟩
  | .forLoop init condition increment body, s, h => by
    obtain ⟨init', condition', increment', body', rfl, hi, rfl, rfl, hb⟩ :=
      Stmt.of_anonymous_forLoop h
    obtain ⟨i, rfl, rfl⟩ := Init.exists_lower hi
    obtain ⟨b, rfl, rfl⟩ := Statement.exists_lower body hb
    exact ⟨.forLoop i condition' increment' b, rfl, rfl⟩
  | .ret keyword value, s, h => by
    obtain ⟨value', rfl, rfl⟩ := Stmt.of_anonymous_ret h
    exact ⟨.ret keyword value', rfl, rfl⟩

theorem exists_lowerAll : ∀ (ds : List Declaration) {ss : List Stmt},
    Stmt.allAnonymous ss = lowerAll ds → ∃ ds', lowerAll ds' = ss ∧ allAnonymous ds' = ds
  | [], ss, h => ⟨[], (Stmt.of_allAnonymous_nil h).symm, rfl⟩
  | d :: ds, ss, h => by
    obtain ⟨s, ss, rfl, hs, hss⟩ := Stmt.of_allAnonymous_cons h
    obtain ⟨d', rfl, rfl⟩ := Declaration.exists_lower d hs
    obtain ⟨ds', rfl, rfl⟩ := exists_lowerAll ds hss
    exact ⟨d' :: ds', rfl, rfl⟩

end

end Direct

/-! ### Loops of the text -/

namespace Concrete

def LoopInitializer.direct? : LoopInitializer → Option Direct.Init
  | .none _ => .none
  | .var (.bare _ name _) => .some (.var name.1 .none)
  | .var (.initialized _ name _ init _) => .some (.var name.1 (.some init.tree))
  | .expression (.statement e _) => .some (.expression e.tree)

def VariableDeclaration.direct : VariableDeclaration → Direct.Declaration
  | .bare _ name _ => .var name.1 none
  | .initialized _ name _ init _ => .var name.1 (some init.tree)

def ExpressionStatement.direct : ExpressionStatement → Direct.Statement
  | .statement e _ => .expression e.tree

mutual

/-- The direct tree, which has a node for each `for` loop of the derivation. -/
def Declaration.direct : Declaration → Direct.Declaration
  | .var declaration => declaration.direct
  | .function _ name _ params _ body => .function name.1 params.names body.direct
  | .statement statement => .statement statement.direct

def Block.direct : Block → List Direct.Declaration
  | .block _ body _ => allDirect body

def Statement.direct : Statement → Direct.Statement
  | .print _ e _ => .print e.tree
  | .ret keyword value _ => .ret keyword.1 (value.map Expression.tree)
  | .expression statement => statement.direct
  | .block block => .block block.direct
  | .branch _ _ condition _ consequent => .branch condition.tree consequent.direct none
  | .branchElse _ _ condition _ consequent _ alternative =>
    .branch condition.tree consequent.direct (some alternative.direct)
  | .loop _ _ condition _ body => .loop condition.tree body.direct
  | .forLoop _ _ init condition _ increment _ body =>
    .forLoop init.direct? (condition.map Expression.tree) (increment.map Expression.tree)
      body.direct

def allDirect : List Declaration → List Direct.Declaration
  | [] => []
  | d :: ds => d.direct :: allDirect ds

end

def Program.direct (d : Program) : Direct.Program := allDirect d.declarations

theorem LoopInitializer.map_lower_direct? (init : LoopInitializer) :
    init.direct?.map Direct.Init.lower = init.tree? := by
  rcases init with _ | ⟨_ | _⟩ | ⟨_⟩ <;> rfl

mutual

theorem Declaration.lower_direct : ∀ d : Declaration, d.direct.lower = d.tree
  | .var (.bare ..) | .var (.initialized ..) => rfl
  | .function _ name _ params _ body =>
    congrArg (Stmt.function name.1 params.names ·) body.lower_direct
  | .statement statement => statement.lower_direct

theorem Block.lower_direct : ∀ b : Block, Direct.lowerAll b.direct = b.trees
  | .block _ body _ => lowerAll_allDirect body

/-- The direct tree of a derivation is rewritten to its tree. -/
theorem Statement.lower_direct : ∀ s : Statement, s.direct.lower = s.tree
  | .print .. | .ret .. | .expression (.statement ..) => rfl
  | .block block => congrArg Stmt.block block.lower_direct
  | .branch _ _ condition _ consequent =>
    congrArg (Stmt.branch condition.tree · none) consequent.lower_direct
  | .branchElse _ _ condition _ consequent _ alternative => by
    rw [Statement.direct, Direct.Statement.lower, consequent.lower_direct, alternative.lower_direct]
    rfl
  | .loop _ _ condition _ body => congrArg (Stmt.loop condition.tree) body.lower_direct
  | .forLoop _ _ init condition _ increment _ body => by
    rw [Statement.direct, Direct.Statement.lower, init.map_lower_direct?, body.lower_direct]
    rfl

theorem lowerAll_allDirect : ∀ ds : List Declaration, Direct.lowerAll (allDirect ds) = allTrees ds
  | [] => rfl
  | d :: ds => by rw [allDirect, Direct.lowerAll, d.lower_direct, lowerAll_allDirect ds]; rfl

end

end Concrete

namespace Direct

/-- The source spells the program, whose loops are those of the derivation of its tokens. -/
structure Reads (source : String) (ids : IdSupply) (q : Program) (ids' : IdSupply) : Prop where
  compiled : compile source ids = (.ok (lowerAll q), ids')
  loops : ∃ d : Concrete.Program, d.tokens = Concrete.beforeEnd (scan source).tokens ∧
    d.direct = allAnonymous q

theorem exists_reads {source : String} {ids ids' : IdSupply} {p : Lox.Program}
    (h : compile source ids = (.ok p, ids')) : ∃ q, lowerAll q = p ∧ Reads source ids q ids' := by
  obtain ⟨d, hd, htree⟩ := Concrete.exists_of_parse (compile_eq_ok h)
  have hlower : Stmt.allAnonymous p = lowerAll d.direct :=
    htree.symm.trans (Concrete.lowerAll_allDirect d.declarations).symm
  obtain ⟨q, rfl, hq⟩ := exists_lowerAll d.direct hlower
  exact ⟨q, rfl, h, d, hd, hq.symm⟩

end Direct
end Lox
