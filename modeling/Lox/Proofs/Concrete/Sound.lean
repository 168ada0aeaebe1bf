import Lox.Proofs.Anonymous
import Lox.Proofs.Concrete.Unique
import Lox.Proofs.Steps

/-! Parsing succeeds only along derivations.
An error that is recorded stays recorded, so a step whose recorded errors are none at its end has met
none, and the tokens that it has taken have a derivation (`expression_spells`, `program_spells`). -/
namespace Lox

namespace Cursor

variable {α : Type}

/-- What the tokens mean that a step has taken without an error: a property of its result, of these
tokens and of the tokens behind them. -/
def Spells (s : Cursor) (P : α → List Token → List Token → Prop) :
    Except SyntaxError α → Cursor → Prop := fun r t =>
  ∀ a, r = .ok a → t.errors = [] → s.errors = [] ∧ ∃ ts, s.rest = ts ++ t.rest ∧ P a ts t.rest

end Cursor

namespace Step

variable {α β : Type} {s t : Cursor} {j k : Nat} {P : α → List Token → List Token → Prop}
  {R : β → List Token → List Token → Prop}

theorem spells_done {a : α} (h : P a [] s.rest) : (done a s).Ensures (s.Spells P) := by
  rintro _ ⟨⟩ herrors
  exact ⟨herrors, [], rfl, h⟩

theorem spells_fail {e : SyntaxError} : (fail (k := k) e s).Ensures (s.Spells P) :=
  fun _ h => nomatch h

theorem spells_take {p : Kind → Bool} {token : Token} {h : t.size + 1 ≤ s.size}
    (hs : s.take? p = some ⟨token, t, h⟩) {x : Step α t k}
    (hx : x.Ensures (t.Spells fun a ts rest => P a (token :: ts) rest)) :
    x.Ensures (s.Spells P) := by
  intro a ha herrors
  obtain ⟨hr, -, ht⟩ := Cursor.take?_eq_some hs
  obtain ⟨hnil, ts, hts, hP⟩ := hx a ha herrors
  refine ⟨?_, token :: ts, ?_, hP⟩
  · rw [ht] at hnil
    exact hnil
  · rw [hr, hts, List.cons_append]

theorem Ensures.imp {Q : α → List Token → List Token → Prop} {x : Step α t k}
    (hx : x.Ensures (s.Spells P)) (h : ∀ a ts rest, P a ts rest → Q a ts rest) :
    x.Ensures (s.Spells Q) := by
  intro a ha herrors
  obtain ⟨hnil, ts, hts, hP⟩ := hx a ha herrors
  exact ⟨hnil, ts, hts, h a ts _ hP⟩

/-- The tokens of one step stand before those of the next. -/
theorem Ensures.spells {x : Step α s j} {f : α → (t : Cursor) → t.size + j ≤ s.size → Step β t k}
    (hx : x.Ensures (s.Spells P))
    (hf : ∀ a t h, (f a t h).Ensures
      (t.Spells fun b us rest => ∀ ts, P a ts (us ++ rest) → R b (ts ++ us) rest)) :
    (x.bind f).Ensures (s.Spells R) := by
  refine hx.bind (fun _ _ _ _ h => nomatch h) fun a t h ha b hb herrors => ?_
  obtain ⟨hnil, us, hus, hR⟩ := hf a t h b hb herrors
  obtain ⟨hnil', ts, hts, hP⟩ := ha a rfl hnil
  rw [hus] at hP
  exact ⟨hnil', ts ++ us, by rw [hts, hus, List.append_assoc], hR ts hP⟩

theorem spells_expect {stop : Token} {kind : Kind} {fault : SyntaxFault} :
    (expect stop kind fault s).Ensures
      (s.Spells fun token ts _ => ∃ t : Concrete.The kind, token = t.1 ∧ ts = [t.1]) := by
  refine .expect (fun _ _ h => nomatch h) fun token ts hr hk => ?_
  rintro _ ⟨⟩ herrors
  exact ⟨herrors, [token], hr, ⟨token, decide_eq_true hk⟩, rfl, rfl⟩

/-- Too many items leave an error behind. -/
theorem spells_checkArity {stop : Token} {count : Nat} {fault : SyntaxFault}
    {h : (Grammar.checkArity stop count fault s).size + j ≤ s.size}
    {x : Step α (Grammar.checkArity stop count fault s) k}
    (hx : x.Ensures ((Grammar.checkArity stop count fault s).Spells fun a ts rest =>
      count < Grammar.maxArity → P a ts rest)) : (since h x).Ensures (s.Spells P) := by
  intro a ha herrors
  obtain ⟨hnil, ts, hts, hP⟩ := hx a ha herrors
  by_cases hcount : Grammar.maxArity ≤ count
  · simp [Grammar.checkArity, hcount, Cursor.record] at hnil
  · simp only [Grammar.checkArity, hcount, if_false] at hnil hts
    exact ⟨hnil, ts, hts, hP (Nat.lt_of_not_le hcount)⟩

end Step

namespace Concrete

open Grammar (Level maxArity)

theorem constant?_eq_some {t : Token} {e : Expr} (h : Grammar.constant? t = some e) :
    isConstant t.kind ∧ e = .literal (constant t) := by
  unfold Grammar.constant? at h
  split at h <;> first | cases h; done | (injection h with h; simp [isConstant, constant, *])

theorem anonymous_node (l : Level) (left : Expr) (op : Token) (right : Expr) :
    (l.node left op right).anonymous = l.node left.anonymous op right.anonymous := by
  cases l <;> rfl

theorem Suffixes.tree_ne_use {id : UseId} {name : Token} : ∀ (d : Suffixes) {callee : Expr},
    callee ≠ .use id name → d.tree callee ≠ .use id name
  | .none, _, h => h
  | .arguments _ _ _ suffixes, _, _ => suffixes.tree_ne_use fun h => nomatch h

theorem operation_ne_use {id : UseId} {name op : Token} {left right : Expr} :
    operation left op right ≠ .use id name := by
  unfold operation
  split <;> exact fun h => nomatch h

theorem Links.tree_ne_use {id : UseId} {name : Token} {l : Level} {tighter : List Level} :
    ∀ (d : Links l tighter) {left : Expr}, left ≠ .use id name → d.tree left ≠ .use id name
  | .none, _, h => h
  | .link _ _ links, _, _ => links.tree_ne_use operation_ne_use

theorem Call.tokens_of_use {id : UseId} {name : Token} : ∀ d : Call, d.tree = .use id name →
    d.tokens = [name] ∧ name.kind = .identifier
  | .call (.identifier name') .none, h => by
    simp only [Call.tree, Primary.tree, Suffixes.tree, Expr.use.injEq] at h
    obtain ⟨-, rfl⟩ := h
    exact ⟨rfl, name'.kind_eq⟩
  | .call (.constant _) .none, h => nomatch h
  | .call (.group _ _ _) .none, h => nomatch h
  | .call callee (.arguments _ _ _ suffixes), h =>
    absurd h (suffixes.tree_ne_use fun h => nomatch h)

theorem Chain.tokens_of_use {id : UseId} {name : Token} {levels : List Level} :
    ∀ d : Chain levels, d.tree = .use id name → d.tokens = [name] ∧ name.kind = .identifier
  | .unary (.operator _ _), h => nomatch h
  | .unary (.call c), h => c.tokens_of_use h
  | .level first .none, h => by
    obtain ⟨hname, hk⟩ := first.tokens_of_use h
    exact ⟨by rw [Chain.tokens, hname, Links.tokens, List.append_nil], hk⟩
  | .level _ (.link _ _ links), h => absurd h (links.tree_ne_use operation_ne_use)

end Concrete

namespace Grammar

open Cursor Step Concrete

def IsExpression (e : Expr) (ts : List Token) (_ : List Token) : Prop :=
  ∃ d : Expression, d.tokens = ts ∧ d.tree = e.anonymous

variable (stop : Token)

mutual

theorem expression_spells (s : Cursor) : (expression stop s).Ensures (s.Spells IsExpression) := by
  rw [expression]
  refine (chain_spells Level.all s).spells fun left t _ => ?_
  split
  · refine spells_done ?_
    rintro ts ⟨d, rfl, htree⟩
    exact ⟨.chain d, (List.append_nil _).symm, htree⟩
  · next equals t' ht heq =>
    obtain ⟨-, hequals, -⟩ := take?_eq_some heq
    refine spells_take heq ?_
    refine (expression_spells t').spells fun value u _ => ?_
    split
    · next id name =>
      refine fun a ha herrors => ⟨herrors, [], rfl, ?_⟩
      injection ha with ha
      subst ha
      rintro _ ⟨v, rfl, hvalue⟩ _ ⟨d, rfl, htree⟩
      obtain ⟨hname, hk⟩ := d.tokens_of_use htree
      refine ⟨.assign ⟨name, decide_eq_true hk⟩ ⟨equals, hequals⟩ v, ?_, ?_⟩
      · rw [hname, List.append_nil]
        rfl
      · rw [Expression.tree, hvalue]
        rfl
    · exact fun _ _ herrors => absurd herrors (by simp [yield, record])
termination_by (s.size, Level.all.length + 4)

theorem chain_spells (levels : List Level) (s : Cursor) : (chain stop levels s).Ensures
    (s.Spells fun e ts _ => ∃ d : Chain levels, d.tokens = ts ∧ d.tree = e.anonymous) := by
  match levels with
  | [] =>
    rw [chain]
    refine (unary_spells s).imp fun e ts _ h => ?_
    obtain ⟨d, hd, htree⟩ := h
    exact ⟨.unary d, hd, htree⟩
  | l :: tighter =>
    rw [chain]
    refine (chain_spells tighter s).spells fun left t _ => ?_
    refine (chainRest_spells l tighter left t).imp fun e us _ h => ?_
    obtain ⟨links, rfl, htree⟩ := h
    rintro _ ⟨first, rfl, hfirst⟩
    exact ⟨.level first links, rfl, by rw [Chain.tree, hfirst, htree]⟩
termination_by (s.size, levels.length + 3)

theorem chainRest_spells (l : Level) (tighter : List Level) (left : Expr) (s : Cursor) :
    (chainRest stop l tighter left s).Ensures (s.Spells fun e ts _ =>
      ∃ d : Links l tighter, d.tokens = ts ∧ d.tree left.anonymous = e.anonymous) := by
  rw [chainRest]
  split
  · exact spells_done ⟨.none, rfl, rfl⟩
  · next op t ht heq =>
    obtain ⟨-, hop, -⟩ := take?_eq_some heq
    refine spells_take heq ?_
    refine (chain_spells tighter t).spells fun right u _ => ?_
    refine (chainRest_spells l tighter (l.node left op right) u).imp fun e us _ h => ?_
    obtain ⟨links, rfl, htree⟩ := h
    rintro _ ⟨operand, rfl, hright⟩
    refine ⟨.link ⟨op, hop⟩ operand links, rfl, ?_⟩
    rw [Links.tree, operation_eq_node, hright, ← htree, anonymous_node]
termination_by (s.size, 0)

theorem unary_spells (s : Cursor) : (unary stop s).Ensures
    (s.Spells fun e ts _ => ∃ d : Unary, d.tokens = ts ∧ d.tree = e.anonymous) := by
  rw [unary]
  split
  · refine (call_spells s).imp fun e ts _ h => ?_
    obtain ⟨d, hd, htree⟩ := h
    exact ⟨.call d, hd, htree⟩
  · next op t ht heq =>
    obtain ⟨-, hop, -⟩ := take?_eq_some heq
    refine spells_take heq ?_
    refine (unary_spells t).spells fun operand u _ => spells_done ?_
    rintro _ ⟨d, rfl, htree⟩
    refine ⟨.operator ⟨op, hop⟩ d, ?_, ?_⟩
    · rw [List.append_nil]
      rfl
    · rw [Unary.tree, htree]
      rfl
termination_by (s.size, 2)

theorem call_spells (s : Cursor) : (call stop s).Ensures
    (s.Spells fun e ts _ => ∃ d : Call, d.tokens = ts ∧ d.tree = e.anonymous) := by
  rw [call]
  refine (primary_spells s).spells fun callee t _ => ?_
  refine (callRest_spells callee t).imp fun e us _ h => ?_
  obtain ⟨suffixes, rfl, htree⟩ := h
  rintro _ ⟨d, rfl, hcallee⟩
  exact ⟨.call d suffixes, rfl, by rw [Call.tree, hcallee, htree]⟩
termination_by (s.size, 1)

theorem callRest_spells (callee : Expr) (s : Cursor) : (callRest stop callee s).Ensures
    (s.Spells fun e ts _ =>
      ∃ d : Suffixes, d.tokens = ts ∧ d.tree callee.anonymous = e.anonymous) := by
  rw [callRest]
  split
  · exact spells_done ⟨.none, rfl, rfl⟩
  · next opening t ht heq =>
    obtain ⟨-, hopening, -⟩ := take?_eq_some heq
    refine spells_take heq ?_
    refine (arguments_spells t).spells fun args u _ => ?_
    refine spells_expect.spells fun paren v _ => ?_
    refine (callRest_spells (.call callee args paren) v).imp fun e us _ h => ?_
    obtain ⟨suffixes, rfl, htree⟩ := h
    rintro _ ⟨closing, rfl, rfl⟩ _ ⟨as, rfl, hargs⟩
    refine ⟨.arguments ⟨opening, hopening⟩ as closing suffixes, rfl, ?_⟩
    rw [Suffixes.tree, hargs, ← htree]
    rfl
termination_by (s.size, 0)

theorem arguments_spells (s : Cursor) : (arguments stop s).Ensures
    (s.Spells fun es ts _ =>
      ∃ d : Arguments, d.tokens = ts ∧ d.trees = Expr.allAnonymous es) := by
  rw [arguments]
  split
  · exact spells_done ⟨.none, rfl, rfl⟩
  · refine (argumentList_spells 0 s).imp fun es ts _ h => ?_
    obtain ⟨room, rfl, d, hd, htrees⟩ := h
    exact ⟨.some d, hd, htrees⟩
termination_by (s.size, Level.all.length + 6)

theorem argumentList_spells (count : Nat) (s : Cursor) : (argumentList stop count s).Ensures
    (s.Spells fun es ts _ => ∃ room, room + count = maxArity ∧
      ∃ d : ArgumentList room, d.tokens = ts ∧ d.trees = Expr.allAnonymous es) := by
  rw [argumentList]
  have hsize := size_checkArity stop count .tooManyArguments s
  refine spells_checkArity ((expression_spells _).spells fun a t _ => ?_)
  split
  · refine spells_done ?_
    rintro _ ⟨d, rfl, htree⟩ hcount
    refine ⟨maxArity - (count + 1) + 1, by omega, .last d, (List.append_nil _).symm, ?_⟩
    rw [ArgumentList.trees, htree]
    rfl
  · next comma u hu heq =>
    obtain ⟨-, hcomma, -⟩ := take?_eq_some heq
    refine spells_take heq ?_
    refine (argumentList_spells (count + 1) u).spells fun as v _ => spells_done ?_
    rintro _ ⟨room, hroom, ds, rfl, htrees⟩ _ ⟨d, rfl, htree⟩ -
    refine ⟨room + 1, by omega, .more d ⟨comma, hcomma⟩ ds, ?_, ?_⟩
    · rw [List.append_nil]
      rfl
    · rw [ArgumentList.trees, htree, htrees]
      rfl
termination_by (s.size, Level.all.length + 5)

theorem primary_spells (s : Cursor) : (primary stop s).Ensures
    (s.Spells fun e ts _ => ∃ d : Primary, d.tokens = ts ∧ d.tree = e.anonymous) := by
  rw [primary]
  split
  · exact spells_fail
  · next token t ht heq =>
    split
    · next e he =>
      obtain ⟨hk, rfl⟩ := constant?_eq_some he
      refine spells_take heq (spells_done ⟨.constant ⟨token, hk⟩, rfl, rfl⟩)
    · split
      · next hk =>
        refine spells_take heq fun a ha herrors => ⟨herrors, [], rfl, ?_⟩
        injection ha with ha
        subst ha
        exact ⟨.identifier ⟨token, decide_eq_true hk⟩, rfl, rfl⟩
      · split
        · next hk =>
          refine spells_take heq ?_
          refine (expression_spells t).spells fun inner u _ => ?_
          refine spells_expect.spells fun _ v _ => spells_done ?_
          rintro _ ⟨closing, -, rfl⟩ _ ⟨d, rfl, htree⟩
          refine ⟨.group ⟨token, decide_eq_true hk⟩ d closing, rfl, ?_⟩
          rw [Primary.tree, htree]
          rfl
        · exact spells_fail
termination_by (s.size, 0)

end

def IsOptional (e : Option Expr) (ts : List Token) (_ : List Token) : Prop :=
  ∃ d : Option Expression, optionalTokens d = ts ∧ d.map Expression.tree = e.map Expr.anonymous

def IsVariable (st : Stmt) (ts : List Token) (_ : List Token) : Prop :=
  ∃ d : VariableDeclaration, d.tokens = ts ∧ d.tree = st.anonymous

def IsDeclaration (st : Stmt) (ts : List Token) (_ : List Token) : Prop :=
  ∃ d : Declaration, d.tokens = ts ∧ d.tree = st.anonymous ∧ d.elseNearest

def AreDeclarations (sts : List Stmt) (ts : List Token) (_ : List Token) : Prop :=
  ∃ ds, allTokens ds = ts ∧ allTrees ds = Stmt.allAnonymous sts ∧ allElseNearest ds

/-- The tokens and the tree of a statement that takes the `else` that it can take. -/
def IsStatement (st : Stmt) (ts rest : List Token) : Prop :=
  ∃ d : Statement, d.tokens = ts ∧ d.tree = st.anonymous ∧ d.elseNearest ∧ (d.isOpen → NoElse rest)

theorem IsStatement.declaration {st : Stmt} {ts rest : List Token} (h : IsStatement st ts rest) :
    IsDeclaration st ts rest := by
  obtain ⟨d, htokens, htree, hnearest, -⟩ := h
  exact ⟨.statement d, htokens, htree, hnearest⟩

theorem optionalExpression_spells (absent : Kind) (s : Cursor) :
    (optionalExpression stop absent s).Ensures (s.Spells IsOptional) := by
  unfold optionalExpression
  split
  · exact spells_done ⟨none, rfl, rfl⟩
  · refine Ensures.spells (expression_spells stop s) fun e t _ => spells_done ?_
    rintro _ ⟨d, rfl, htree⟩
    exact ⟨some d, (List.append_nil _).symm, congrArg some htree⟩

theorem variableDeclaration_spells (s : Cursor) : (variableDeclaration stop s).Ensures
    (s.Spells fun st ts rest => ∀ keyword : The .varWord, IsVariable st (keyword.1 :: ts) rest) := by
  unfold variableDeclaration
  refine spells_expect.spells fun name t _ => ?_
  split
  · refine spells_expect.spells fun _ u _ => spells_done ?_
    rintro _ ⟨semicolon, -, rfl⟩ _ ⟨name, rfl, rfl⟩ keyword
    exact ⟨.bare keyword name semicolon, rfl, rfl⟩
  · next equals t' ht heq =>
    obtain ⟨-, hequals, -⟩ := take?_eq_some heq
    refine spells_take heq ?_
    refine (expression_spells stop t').spells fun init u _ => ?_
    refine spells_expect.spells fun _ v _ => spells_done ?_
    rintro _ ⟨semicolon, -, rfl⟩ _ ⟨d, rfl, htree⟩ _ ⟨name, rfl, rfl⟩ keyword
    refine ⟨.initialized keyword name ⟨equals, hequals⟩ d semicolon, rfl, ?_⟩
    rw [VariableDeclaration.tree, htree]
    rfl

theorem expressionStatement_spells (s : Cursor) : (expressionStatement stop s).Ensures
    (s.Spells fun st ts _ =>
      ∃ d : ExpressionStatement, d.tokens = ts ∧ d.tree = st.anonymous) := by
  unfold expressionStatement
  refine (expression_spells stop s).spells fun e t _ => ?_
  refine spells_expect.spells fun _ u _ => spells_done ?_
  rintro _ ⟨semicolon, -, rfl⟩ _ ⟨d, rfl, htree⟩
  refine ⟨.statement d semicolon, rfl, ?_⟩
  rw [ExpressionStatement.tree, htree]
  rfl

theorem parameterList_spells (count : Nat) (s : Cursor) : (parameterList stop count s).Ensures
    (s.Spells fun names ts _ => ∃ room, room + count = maxArity ∧
      ∃ d : ParameterList room, d.tokens = ts ∧ d.names = names) := by
  rw [parameterList]
  have hsize := size_checkArity stop count .tooManyParameters s
  refine spells_checkArity (spells_expect.spells fun name t _ => ?_)
  split
  · refine spells_done ?_
    rintro _ ⟨name, rfl, rfl⟩ hcount
    exact ⟨maxArity - (count + 1) + 1, by omega, .last name, rfl, rfl⟩
  · next comma u hu heq =>
    obtain ⟨-, hcomma, -⟩ := take?_eq_some heq
    refine spells_take heq ?_
    refine (parameterList_spells (count + 1) u).spells fun names v _ => spells_done ?_
    rintro _ ⟨room, hroom, d, rfl, rfl⟩ _ ⟨name, rfl, rfl⟩ -
    exact ⟨room + 1, by omega, .more name ⟨comma, hcomma⟩ d,
      congrArg (fun ts => name.1 :: comma :: ts) (List.append_nil _).symm, rfl⟩
termination_by s.size

theorem parameters_spells (s : Cursor) : (parameters stop s).Ensures
    (s.Spells fun names ts _ => ∃ d : Parameters, d.tokens = ts ∧ d.names = names) := by
  unfold parameters
  split
  · exact spells_done ⟨.none, rfl, rfl⟩
  · refine (parameterList_spells stop 0 s).imp fun names ts _ h => ?_
    obtain ⟨room, rfl, d, hd, hnames⟩ := h
    exact ⟨.some d, hd, hnames⟩

theorem loopInitializer_spells (s : Cursor) : (loopInitializer stop s).Ensures
    (s.Spells fun init ts _ =>
      ∃ d : LoopInitializer, d.tokens = ts ∧ d.tree? = init.map Stmt.anonymous) := by
  unfold loopInitializer
  split
  · next semicolon t ht heq =>
    obtain ⟨-, hsemicolon, -⟩ := take?_eq_some heq
    exact spells_take heq (spells_done ⟨.none ⟨semicolon, hsemicolon⟩, rfl, rfl⟩)
  · split
    · next keyword t ht heq =>
      obtain ⟨-, hkeyword, -⟩ := take?_eq_some heq
      refine spells_take heq ?_
      refine (variableDeclaration_spells stop t).spells fun init u _ => spells_done ?_
      intro ts hts
      obtain ⟨d, hd, htree⟩ := hts ⟨keyword, hkeyword⟩
      exact ⟨.var d, by rw [List.append_nil]; exact hd, congrArg some htree⟩
    · refine (expressionStatement_spells stop s).spells fun init t _ => spells_done ?_
      rintro _ ⟨d, rfl, htree⟩
      exact ⟨.expression d, (List.append_nil _).symm, congrArg some htree⟩

/-- A declaration in which an error was met leaves the error behind. -/
theorem recover_spells {α : Type} {s : Cursor} (hs : s.rest ≠ [])
    {P : α → List Token → List Token → Prop} {x : Step α s 1} (hx : x.Ensures (s.Spells P)) :
    (recover hs x).Ensures (s.Spells fun d ts rest => ∃ a, d = some a ∧ P a ts rest) := by
  obtain ⟨r, t, ht, h⟩ := x
  cases r with
  | ok a =>
    rintro _ ⟨⟩ herrors
    obtain ⟨hnil, ts, hts, hP⟩ := hx a rfl herrors
    exact ⟨hnil, ts, hts, a, rfl, hP⟩
  | error e => exact fun _ _ herrors => absurd herrors (by simp [recover, record])

mutual

theorem declaration_spells (s : Cursor) :
    (declaration stop s).Ensures (s.Spells IsDeclaration) := by
  rw [declaration]
  split
  · next keyword t ht heq =>
    obtain ⟨-, hkeyword, -⟩ := take?_eq_some heq
    refine spells_take heq ((variableDeclaration_spells stop t).imp fun st ts _ h => ?_)
    obtain ⟨d, hd, htree⟩ := h ⟨keyword, hkeyword⟩
    exact ⟨.var d, hd, htree, rfl⟩
  · split
    · next keyword t ht heq =>
      obtain ⟨-, hkeyword, -⟩ := take?_eq_some heq
      refine spells_take heq ((functionDeclaration_spells t).imp fun st ts _ h => ?_)
      exact h ⟨keyword, hkeyword⟩
    · exact (statement_spells s).imp fun st ts _ h => h.declaration
termination_by (s.size, 1)

theorem functionDeclaration_spells (s : Cursor) : (functionDeclaration stop s).Ensures
    (s.Spells fun st ts rest =>
      ∀ keyword : The .funWord, IsDeclaration st (keyword.1 :: ts) rest) := by
  rw [functionDeclaration]
  refine spells_expect.spells fun name t _ => ?_
  refine spells_expect.spells fun _ u _ => ?_
  refine (parameters_spells stop u).spells fun params v _ => ?_
  refine spells_expect.spells fun _ w _ => ?_
  refine spells_expect.spells fun _ x _ => ?_
  refine (block_spells x).spells fun body y _ => spells_done ?_
  rintro bs hbody _ ⟨brace, -, rfl⟩ _ ⟨closing, -, rfl⟩ _ ⟨ps, rfl, rfl⟩ _ ⟨opening, -, rfl⟩
    _ ⟨name, rfl, rfl⟩ keyword
  obtain ⟨d, hd, htrees, hnearest⟩ := hbody brace
  refine ⟨.function keyword name opening ps closing d, ?_, ?_, hnearest⟩
  · rw [Declaration.tokens, hd, List.append_nil]
    rfl
  · rw [Declaration.tree, htrees]
    rfl
termination_by (s.size, 0)

theorem statement_spells (s : Cursor) : (statement stop s).Ensures (s.Spells IsStatement) := by
  rw [statement]
  have expression {x : Step Stmt s 1} (hx : x.Ensures (s.Spells fun st ts _ =>
      ∃ d : ExpressionStatement, d.tokens = ts ∧ d.tree = st.anonymous)) :
      x.Ensures (s.Spells IsStatement) := hx.imp fun st ts _ h => by
    obtain ⟨d, hd, htree⟩ := h
    exact ⟨.expression d, hd, htree, rfl, nofun⟩
  split
  · exact expression (expressionStatement_spells stop s)
  · next token t ht heq =>
    split
    · next hk =>
      refine spells_take heq ?_
      refine (expression_spells stop t).spells fun e u _ => ?_
      refine spells_expect.spells fun _ v _ => spells_done ?_
      rintro _ ⟨semicolon, -, rfl⟩ _ ⟨d, rfl, htree⟩
      refine ⟨.print ⟨token, decide_eq_true hk⟩ d semicolon, rfl, ?_, rfl, nofun⟩
      rw [Statement.tree, htree]
      rfl
    · next hk =>
      refine spells_take heq ?_
      refine (block_spells t).spells fun body u _ => spells_done ?_
      intro ts hts
      obtain ⟨d, hd, htrees, hnearest⟩ := hts ⟨token, decide_eq_true hk⟩
      refine ⟨.block d, ?_, ?_, hnearest, nofun⟩
      · rw [List.append_nil]
        exact hd
      · rw [Statement.tree, htrees]
        rfl
    · next hk =>
      refine spells_take heq ((ifStatement_spells t).imp fun st ts _ h => ?_)
      exact h ⟨token, decide_eq_true hk⟩
    · next hk =>
      refine spells_take heq ?_
      refine spells_expect.spells fun _ u _ => ?_
      refine (expression_spells stop u).spells fun condition v _ => ?_
      refine spells_expect.spells fun _ w _ => ?_
      refine (statement_spells w).spells fun body x _ => spells_done ?_
      rintro _ ⟨b, rfl, hbody, hnearest, hopen⟩ _ ⟨closing, -, rfl⟩ _ ⟨c, rfl, hcondition⟩
        _ ⟨opening, -, rfl⟩
      refine ⟨.loop ⟨token, decide_eq_true hk⟩ opening c closing b, ?_, ?_, hnearest, hopen⟩
      · rw [List.append_nil]
        rfl
      · rw [Statement.tree, hcondition, hbody]
        rfl
    · next hk =>
      refine spells_take heq ((forStatement_spells t).imp fun st ts _ h => ?_)
      exact h ⟨token, decide_eq_true hk⟩
    · next hk =>
      refine spells_take heq ?_
      refine (optionalExpression_spells stop .semicolon t).spells fun value u _ => ?_
      refine spells_expect.spells fun _ v _ => spells_done ?_
      rintro _ ⟨semicolon, -, rfl⟩ _ ⟨d, rfl, htree⟩
      refine ⟨.ret ⟨token, decide_eq_true hk⟩ d semicolon, rfl, ?_, rfl, nofun⟩
      rw [Statement.tree, htree]
      rfl
    · exact expression (expressionStatement_spells stop s)
termination_by (s.size, 0)

theorem ifStatement_spells (s : Cursor) : (ifStatement stop s).Ensures
    (s.Spells fun st ts rest => ∀ keyword : The .ifWord, IsStatement st (keyword.1 :: ts) rest) := by
  rw [ifStatement]
  refine spells_expect.spells fun _ t _ => ?_
  refine (expression_spells stop t).spells fun condition u _ => ?_
  refine spells_expect.spells fun _ v _ => ?_
  refine (statement_spells v).spells fun consequent w _ => ?_
  split
  · next hnone =>
    refine spells_done ?_
    rintro _ ⟨b, rfl, hbody, hnearest, -⟩ _ ⟨closing, -, rfl⟩ _ ⟨c, rfl, hcondition⟩
      _ ⟨opening, -, rfl⟩ keyword
    refine ⟨.branch keyword opening c closing b, ?_, ?_, hnearest, ?_⟩
    · rw [List.append_nil]
      rfl
    · rw [Statement.tree, hcondition, hbody]
      rfl
    · intro _ t ht
      obtain ⟨us, hus⟩ := List.head?_eq_some_iff.1 ht
      exact take?_eq_none hnone hus
  · next otherwise x hx heq =>
    obtain ⟨-, hotherwise, -⟩ := take?_eq_some heq
    refine spells_take heq ?_
    refine (statement_spells x).spells fun alternative y _ => spells_done ?_
    rintro _ ⟨a, rfl, halternative, hnearest', hopen'⟩ _ ⟨b, rfl, hbody, hnearest, hopen⟩
      _ ⟨closing, -, rfl⟩ _ ⟨c, rfl, hcondition⟩ _ ⟨opening, -, rfl⟩ keyword
    have hclosed : b.isOpen = false := by
      rw [← Bool.not_eq_true]
      intro ho
      have hno := Stops.head (hopen ho)
      rw [hotherwise] at hno
      cases hno
    refine ⟨.branchElse keyword opening c closing b ⟨otherwise, hotherwise⟩ a, ?_, ?_, ?_, hopen'⟩
    · rw [List.append_nil]
      simp [Statement.tokens]
    · rw [Statement.tree, hcondition, hbody, halternative]
      rfl
    · simp [Statement.elseNearest, hclosed, hnearest, hnearest']
termination_by (s.size, 0)

theorem forStatement_spells (s : Cursor) : (forStatement stop s).Ensures
    (s.Spells fun st ts rest => ∀ keyword : The .forWord, IsStatement st (keyword.1 :: ts) rest) := by
  rw [forStatement]
  refine spells_expect.spells fun _ t _ => ?_
  refine (loopInitializer_spells stop t).spells fun init u _ => ?_
  refine (optionalExpression_spells stop .semicolon u).spells fun condition v _ => ?_
  refine spells_expect.spells fun _ w _ => ?_
  refine (optionalExpression_spells stop .rightParen w).spells fun increment x _ => ?_
  refine spells_expect.spells fun _ y _ => ?_
  refine (statement_spells y).spells fun body z _ => spells_done ?_
  rintro _ ⟨b, rfl, hbody, hnearest, hopen⟩ _ ⟨closing, -, rfl⟩ _ ⟨i, rfl, hincrement⟩
    _ ⟨semicolon, -, rfl⟩ _ ⟨c, rfl, hcondition⟩ _ ⟨n, rfl, hinit⟩ _ ⟨opening, -, rfl⟩ keyword
  refine ⟨.forLoop keyword opening n c semicolon i closing b, ?_, ?_, hnearest, hopen⟩
  · simp [Statement.tokens]
  · rw [Statement.tree, hinit, hcondition, hincrement, hbody, Stmt.anonymous_forLoop]
termination_by (s.size, 0)

theorem block_spells (s : Cursor) : (block stop s).Ensures
    (s.Spells fun sts ts _ => ∀ opening : The .leftBrace, ∃ d : Block,
      d.tokens = opening.1 :: ts ∧ d.trees = Stmt.allAnonymous sts ∧ d.elseNearest) := by
  rw [block]
  refine (declarations_spells s).spells fun body t _ => ?_
  refine spells_expect.spells fun _ u _ => spells_done ?_
  rintro _ ⟨closing, -, rfl⟩ _ ⟨ds, rfl, htrees, hnearest⟩ opening
  exact ⟨.block opening ds closing, rfl, htrees, hnearest⟩
termination_by (s.size, 3)

theorem declarations_spells (s : Cursor) :
    (declarations stop s).Ensures (s.Spells AreDeclarations) := by
  rw [declarations]
  split
  · exact spells_done ⟨[], rfl, rfl, rfl⟩
  · next hn =>
    refine Ensures.spells (recover_spells (fun h => hn (.inl h)) (declaration_spells s))
      fun d t _ => ?_
    refine (declarations_spells t).spells fun ds u _ => spells_done ?_
    rintro _ ⟨es, rfl, htrees, hnearest⟩ _ ⟨st, rfl, e, rfl, htree, hnearest'⟩
    refine ⟨e :: es, ?_, ?_, ?_⟩
    · rw [List.append_nil]
      rfl
    · rw [allTrees, htree, htrees]
      rfl
    · simp [allElseNearest, hnearest, hnearest']
termination_by (s.size, 2)

end

theorem program_spells (s : Cursor) : (program stop s).Ensures
    (s.Spells fun sts ts rest => rest = [] ∧ AreDeclarations sts ts rest) := by
  rw [program]
  split
  · next hnil => exact spells_done ⟨hnil, [], rfl, rfl, rfl⟩
  · next hn =>
    refine Ensures.spells (recover_spells hn (declaration_spells stop s)) fun d t _ => ?_
    refine (program_spells t).spells fun ds u _ => spells_done ?_
    rintro _ ⟨hrest, es, rfl, htrees, hnearest⟩ _ ⟨st, rfl, e, rfl, htree, hnearest'⟩
    refine ⟨hrest, e :: es, ?_, ?_, ?_⟩
    · rw [List.append_nil]
      rfl
    · rw [allTrees, htree, htrees]
      rfl
    · simp [allElseNearest, hnearest, hnearest']
termination_by s.size

end Grammar
end Lox
