import Mathlib.Data.List.Forall2
import Lox.Diagnostic
import Lox.Tree

/-! Trees that are alike.
Two trees are twins if they are built in the same way from equal constants, alike tokens and alike uses
of names. Groups have no meaning of their own, so twins may be allowed to differ in them. -/
namespace Lox

/-- What counts as alike in two trees. -/
structure Likeness where
  /-- Whether groups make no difference. -/
  groupless : Prop
  token : Token → Token → Prop
  use : UseId → UseId → Prop

structure Likeness.Implies (L M : Likeness) : Prop where
  groupless : L.groupless → M.groupless
  token : ∀ t t', L.token t t' → M.token t t'
  use : ∀ id id', L.use id id' → M.use id id'

/-- The same error, reported at tokens that are alike. -/
inductive SyntaxError.Alike (token : Token → Token → Prop) : SyntaxError → SyntaxError → Prop
  | atToken {t t' : Token} (fault : SyntaxFault) (alike : token t t') :
    Alike token (.atToken t fault) (.atToken t' fault)

theorem SyntaxError.Alike.all_eq {es es' : List SyntaxError}
    (h : List.Forall₂ (SyntaxError.Alike Eq) es es') : es = es' := by
  induction h with
  | nil => rfl
  | cons he _ ih =>
    cases he with
    | atToken fault alike => rw [ih, alike]

mutual

inductive Expr.Twin (L : Likeness) : Expr → Expr → Prop
  | literal (value : Literal) : Twin L (.literal value) (.literal value)
  | group {e e' : Expr} (inner : Twin L e e') : Twin L (.group e) (.group e')
  | groupLeft {e e' : Expr} (groupless : L.groupless) (inner : Twin L e e') : Twin L (.group e) e'
  | groupRight {e e' : Expr} (groupless : L.groupless) (inner : Twin L e e') : Twin L e (.group e')
  | unary {op op' : Token} {e e' : Expr} (token : L.token op op') (operand : Twin L e e') :
    Twin L (.unary op e) (.unary op' e')
  | binary {op op' : Token} {e e' f f' : Expr} (left : Twin L e e') (token : L.token op op')
    (right : Twin L f f') : Twin L (.binary e op f) (.binary e' op' f')
  | logical {op op' : Token} {e e' f f' : Expr} (left : Twin L e e') (token : L.token op op')
    (right : Twin L f f') : Twin L (.logical e op f) (.logical e' op' f')
  | use {id id' : UseId} {name name' : Token} (same : L.use id id') (token : L.token name name') :
    Twin L (.use id name) (.use id' name')
  | assign {id id' : UseId} {name name' : Token} {e e' : Expr} (same : L.use id id')
    (token : L.token name name') (value : Twin L e e') :
    Twin L (.assign id name e) (.assign id' name' e')
  | call {callee callee' : Expr} {args args' : List Expr} {paren paren' : Token}
    (head : Twin L callee callee') (tail : AllTwin L args args') (token : L.token paren paren') :
    Twin L (.call callee args paren) (.call callee' args' paren')

inductive Expr.AllTwin (L : Likeness) : List Expr → List Expr → Prop
  | nil : AllTwin L [] []
  | cons {e e' : Expr} {es es' : List Expr} (head : Twin L e e') (tail : AllTwin L es es') :
    AllTwin L (e :: es) (e' :: es')

end

mutual

inductive Stmt.Twin (L : Likeness) : Stmt → Stmt → Prop
  | expression {e e' : Expr} (value : e.Twin L e') : Twin L (.expression e) (.expression e')
  | print {e e' : Expr} (value : e.Twin L e') : Twin L (.print e) (.print e')
  | var {name name' : Token} (token : L.token name name') : Twin L (.var name none) (.var name' none)
  | init {name name' : Token} {e e' : Expr} (token : L.token name name') (value : e.Twin L e') :
    Twin L (.var name (some e)) (.var name' (some e'))
  | block {body body' : List Stmt} (all : AllTwin L body body') : Twin L (.block body) (.block body')
  | branch {e e' : Expr} {s s' : Stmt} (condition : e.Twin L e') (consequent : Twin L s s') :
    Twin L (.branch e s none) (.branch e' s' none)
  | branchElse {e e' : Expr} {s s' a a' : Stmt} (condition : e.Twin L e')
    (consequent : Twin L s s') (alternative : Twin L a a') :
    Twin L (.branch e s (some a)) (.branch e' s' (some a'))
  | loop {e e' : Expr} {s s' : Stmt} (condition : e.Twin L e') (body : Twin L s s') :
    Twin L (.loop e s) (.loop e' s')
  | function {name name' : Token} {params params' : List Token} {body body' : List Stmt}
    (token : L.token name name') (tokens : List.Forall₂ L.token params params')
    (all : AllTwin L body body') : Twin L (.function name params body) (.function name' params' body')
  | ret {keyword keyword' : Token} (token : L.token keyword keyword') :
    Twin L (.ret keyword none) (.ret keyword' none)
  | retValue {keyword keyword' : Token} {e e' : Expr} (token : L.token keyword keyword')
    (value : e.Twin L e') : Twin L (.ret keyword (some e)) (.ret keyword' (some e'))

inductive Stmt.AllTwin (L : Likeness) : List Stmt → List Stmt → Prop
  | nil : AllTwin L [] []
  | cons {s s' : Stmt} {ss ss' : List Stmt} (head : Twin L s s') (tail : AllTwin L ss ss') :
    AllTwin L (s :: ss) (s' :: ss')

end

variable {L M : Likeness}

mutual

theorem Expr.Twin.mono (hLM : L.Implies M) {e e' : Expr} : e.Twin L e' → e.Twin M e'
  | .literal value => .literal value
  | .group inner => .group (inner.mono hLM)
  | .groupLeft groupless inner => .groupLeft (hLM.groupless groupless) (inner.mono hLM)
  | .groupRight groupless inner => .groupRight (hLM.groupless groupless) (inner.mono hLM)
  | .unary token operand => .unary (hLM.token _ _ token) (operand.mono hLM)
  | .binary left token right => .binary (left.mono hLM) (hLM.token _ _ token) (right.mono hLM)
  | .logical left token right => .logical (left.mono hLM) (hLM.token _ _ token) (right.mono hLM)
  | .use same token => .use (hLM.use _ _ same) (hLM.token _ _ token)
  | .assign same token value => .assign (hLM.use _ _ same) (hLM.token _ _ token) (value.mono hLM)
  | .call head tail token => .call (head.mono hLM) (tail.mono hLM) (hLM.token _ _ token)

theorem Expr.AllTwin.mono (hLM : L.Implies M) {es es' : List Expr} :
    Expr.AllTwin L es es' → Expr.AllTwin M es es'
  | .nil => .nil
  | .cons head tail => .cons (head.mono hLM) (tail.mono hLM)

end

mutual

theorem Stmt.Twin.mono (hLM : L.Implies M) {s s' : Stmt} : s.Twin L s' → s.Twin M s'
  | .expression value => .expression (value.mono hLM)
  | .print value => .print (value.mono hLM)
  | .var token => .var (hLM.token _ _ token)
  | .init token value => .init (hLM.token _ _ token) (value.mono hLM)
  | .block all => .block (all.mono hLM)
  | .branch condition consequent => .branch (condition.mono hLM) (consequent.mono hLM)
  | .branchElse condition consequent alternative =>
    .branchElse (condition.mono hLM) (consequent.mono hLM) (alternative.mono hLM)
  | .loop condition body => .loop (condition.mono hLM) (body.mono hLM)
  | .function token tokens all =>
    .function (hLM.token _ _ token) (tokens.imp hLM.token) (all.mono hLM)
  | .ret token => .ret (hLM.token _ _ token)
  | .retValue token value => .retValue (hLM.token _ _ token) (value.mono hLM)

theorem Stmt.AllTwin.mono (hLM : L.Implies M) {ss ss' : List Stmt} :
    Stmt.AllTwin L ss ss' → Stmt.AllTwin M ss ss'
  | .nil => .nil
  | .cons head tail => .cons (head.mono hLM) (tail.mono hLM)

end

mutual

theorem Expr.Twin.refl (token : ∀ t, L.token t t) (use : ∀ id, L.use id id) : ∀ e : Expr, e.Twin L e
  | .literal value => .literal value
  | .group inner => .group (Expr.Twin.refl token use inner)
  | .unary op operand => .unary (token op) (Expr.Twin.refl token use operand)
  | .binary left op right =>
    .binary (Expr.Twin.refl token use left) (token op) (Expr.Twin.refl token use right)
  | .logical left op right =>
    .logical (Expr.Twin.refl token use left) (token op) (Expr.Twin.refl token use right)
  | .use id name => .use (use id) (token name)
  | .assign id name value => .assign (use id) (token name) (Expr.Twin.refl token use value)
  | .call callee args paren =>
    .call (Expr.Twin.refl token use callee) (Expr.AllTwin.refl token use args) (token paren)

theorem Expr.AllTwin.refl (token : ∀ t, L.token t t) (use : ∀ id, L.use id id) :
    ∀ es : List Expr, Expr.AllTwin L es es
  | [] => .nil
  | e :: es => .cons (Expr.Twin.refl token use e) (Expr.AllTwin.refl token use es)

end

mutual

theorem Stmt.Twin.refl (token : ∀ t, L.token t t) (use : ∀ id, L.use id id) : ∀ s : Stmt, s.Twin L s
  | .expression e => .expression (.refl token use e)
  | .print e => .print (.refl token use e)
  | .var name none => .var (token name)
  | .var name (some init) => .init (token name) (.refl token use init)
  | .block body => .block (Stmt.AllTwin.refl token use body)
  | .branch condition consequent none =>
    .branch (.refl token use condition) (Stmt.Twin.refl token use consequent)
  | .branch condition consequent (some alternative) =>
    .branchElse (.refl token use condition) (Stmt.Twin.refl token use consequent)
      (Stmt.Twin.refl token use alternative)
  | .loop condition body => .loop (.refl token use condition) (Stmt.Twin.refl token use body)
  | .function name _ body =>
    .function (token name) (List.forall₂_same.2 fun t _ => token t) (Stmt.AllTwin.refl token use body)
  | .ret keyword none => .ret (token keyword)
  | .ret keyword (some value) => .retValue (token keyword) (.refl token use value)

theorem Stmt.AllTwin.refl (token : ∀ t, L.token t t) (use : ∀ id, L.use id id) :
    ∀ ss : List Stmt, Stmt.AllTwin L ss ss
  | [] => .nil
  | s :: ss => .cons (Stmt.Twin.refl token use s) (Stmt.AllTwin.refl token use ss)

end

theorem Stmt.AllTwin.toList_append {d d' : Option Stmt} {ss ss' : List Stmt}
    (hd : Option.Rel (Stmt.Twin L) d d') (hs : Stmt.AllTwin L ss ss') :
    Stmt.AllTwin L (d.toList ++ ss) (d'.toList ++ ss') := by
  cases hd with
  | none => exact hs
  | some hd => exact .cons hd hs

end Lox
