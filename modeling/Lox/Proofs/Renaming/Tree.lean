import Mathlib.Data.List.Forall2
import Lox.Resolution

/-! Renaming a local variable.
A variable is renamed in one scope: where the scope declares it, and in the uses that the resolution settles
there. Other uses of the name stay as they are (`Stmt.AllScopeRenamed`). Wherever such a renaming is made, the
two programs are renamings of each other in a wider sense, which can be followed through nested scopes
(`Stmt.AllScopeRenamed.renames`). -/
namespace Lox

/-- The token with the name `y`, if it has the name `x` and the condition holds. -/
def Token.renamed (x y : String) (here : Prop) [Decidable here] (t : Token) : Token :=
  if here ∧ t.lexeme = x then { t with lexeme := y } else t

section

variable (r : Resolution) (x y : String)

mutual

/-- Rename the variable `x` of the scope that is so many scopes further out. -/
def Expr.renamed (depth : Nat) : Expr → Expr
  | .literal value => .literal value
  | .group inner => .group (inner.renamed depth)
  | .unary op operand => .unary op (operand.renamed depth)
  | .binary left op right => .binary (left.renamed depth) op (right.renamed depth)
  | .logical left op right => .logical (left.renamed depth) op (right.renamed depth)
  | .use id name => .use id (name.renamed x y (r[id]? = some depth))
  | .assign id name value =>
    .assign id (name.renamed x y (r[id]? = some depth)) (value.renamed depth)
  | .call callee args paren => .call (callee.renamed depth) (Expr.allRenamed depth args) paren

def Expr.allRenamed (depth : Nat) : List Expr → List Expr
  | [] => []
  | e :: es => e.renamed depth :: Expr.allRenamed depth es

end

mutual

/-- Rename the variable `x` of the scope that is so many scopes further out. It is declared where the depth
is zero. -/
def Stmt.renamed (depth : Nat) : Stmt → Stmt
  | .expression e => .expression (e.renamed r x y depth)
  | .print e => .print (e.renamed r x y depth)
  | .var name none => .var (name.renamed x y (depth = 0)) none
  | .var name (some init) =>
    .var (name.renamed x y (depth = 0)) (some (init.renamed r x y depth))
  | .block body => .block (Stmt.allRenamed (depth + 1) body)
  | .branch condition consequent none =>
    .branch (condition.renamed r x y depth) (consequent.renamed depth) none
  | .branch condition consequent (some alternative) =>
    .branch (condition.renamed r x y depth) (consequent.renamed depth)
      (some (alternative.renamed depth))
  | .loop condition body => .loop (condition.renamed r x y depth) (body.renamed depth)
  | .function name params body => .function name params (Stmt.allRenamed (depth + 1) body)
  | .ret keyword none => .ret keyword none
  | .ret keyword (some value) => .ret keyword (some (value.renamed r x y depth))

def Stmt.allRenamed (depth : Nat) : List Stmt → List Stmt
  | [] => []
  | s :: ss => s.renamed depth :: Stmt.allRenamed depth ss

end

end

mutual

def Expr.names : Expr → List String
  | .literal _ => []
  | .group inner => inner.names
  | .unary _ operand => operand.names
  | .binary left _ right | .logical left _ right => left.names ++ right.names
  | .use _ name => [name.lexeme]
  | .assign _ name value => name.lexeme :: value.names
  | .call callee args _ => callee.names ++ Expr.allNames args

def Expr.allNames : List Expr → List String
  | [] => []
  | e :: es => e.names ++ Expr.allNames es

end

mutual

def Stmt.names : Stmt → List String
  | .expression e | .print e => e.names
  | .var name none => [name.lexeme]
  | .var name (some init) => name.lexeme :: init.names
  | .block body => Stmt.allNames body
  | .branch condition consequent none => condition.names ++ consequent.names
  | .branch condition consequent (some alternative) =>
    condition.names ++ (consequent.names ++ alternative.names)
  | .loop condition body => condition.names ++ body.names
  | .function name params body => name.lexeme :: (params.map Token.lexeme ++ Stmt.allNames body)
  | .ret _ none => []
  | .ret _ (some value) => value.names

def Stmt.allNames : List Stmt → List String
  | [] => []
  | s :: ss => s.names ++ Stmt.allNames ss

end

/-- Whether a function of this name is declared in the scope that a statement stands in. -/
def Stmt.makes (x : String) : Stmt → Bool
  | .function name _ _ => name.lexeme = x
  | .branch _ consequent none => consequent.makes x
  | .branch _ consequent (some alternative) => consequent.makes x || alternative.makes x
  | .loop _ body => body.makes x
  | _ => false

mutual

/-- In one scope of a statement, a variable is renamed that is no function of the scope. -/
inductive Stmt.ScopeRenamed (r : Resolution) (x y : String) : Stmt → Stmt → Prop
  /-- The scope of a block. -/
  | hereBlock {body : List Stmt} (noFunction : ∀ s ∈ body, s.makes x = false) :
    ScopeRenamed r x y (.block body) (.block (Stmt.allRenamed r x y 0 body))
  /-- The scope of the parameters and the body of a function. -/
  | hereBody {name : Token} {params : List Token} {body : List Stmt}
    (noFunction : ∀ s ∈ body, s.makes x = false) :
    ScopeRenamed r x y (.function name params body)
      (.function name (params.map (Token.renamed x y True)) (Stmt.allRenamed r x y 0 body))
  | block {body body' : List Stmt} (inside : AllScopeRenamed r x y body body') :
    ScopeRenamed r x y (.block body) (.block body')
  | function {name : Token} {params : List Token} {body body' : List Stmt}
    (inside : AllScopeRenamed r x y body body') :
    ScopeRenamed r x y (.function name params body) (.function name params body')
  | branch {condition : Expr} {s s' : Stmt} (inside : ScopeRenamed r x y s s') :
    ScopeRenamed r x y (.branch condition s none) (.branch condition s' none)
  | consequent {condition : Expr} {s s' alternative : Stmt} (inside : ScopeRenamed r x y s s') :
    ScopeRenamed r x y (.branch condition s (some alternative)) (.branch condition s' (some alternative))
  | alternative {condition : Expr} {consequent s s' : Stmt} (inside : ScopeRenamed r x y s s') :
    ScopeRenamed r x y (.branch condition consequent (some s)) (.branch condition consequent (some s'))
  | loop {condition : Expr} {s s' : Stmt} (inside : ScopeRenamed r x y s s') :
    ScopeRenamed r x y (.loop condition s) (.loop condition s')

inductive Stmt.AllScopeRenamed (r : Resolution) (x y : String) : List Stmt → List Stmt → Prop
  | head {s s' : Stmt} {ss : List Stmt} (inside : ScopeRenamed r x y s s') :
    AllScopeRenamed r x y (s :: ss) (s' :: ss)
  | tail {s : Stmt} {ss ss' : List Stmt} (inside : AllScopeRenamed r x y ss ss') :
    AllScopeRenamed r x y (s :: ss) (s :: ss')

end

/-! ### Renamings in a wider sense -/

/-- One name is to become another. The depths are those at which uses are settled. -/
structure Change where
  old : String
  new : String
  depth? : UseId → Option Nat

namespace Change

/-- How a name is called afterwards. Names of the renamed scope are names of the renamed variable or of
others. -/
inductive Name (C : Change) (here : Prop) : String → String → Prop
  | renamed (inside : here) (differ : C.old ≠ C.new) : Name C here C.old C.new
  | kept {name : String} (other : here → name ≠ C.old) (fresh : name ≠ C.new) : Name C here name name

structure Names (C : Change) (here : Prop) (t t' : Token) : Prop where
  name : C.Name here t.lexeme t'.lexeme
  line : t'.line = t.line

/-- Whether a use is settled in the renamed scope, which is so far out. -/
def Means (C : Change) (position : Option Nat) (id : UseId) : Prop :=
  ∃ depth, position = some depth ∧ C.depth? id = some depth

end Change

/-- How far out the renamed scope is inside another scope, which may be the renamed one itself. -/
def Within (position inner : Option Nat) : Prop :=
  ∀ depth, inner = some (depth + 1) ↔ position = some depth

theorem within_succ (depth : Nat) : Within (some depth) (some (depth + 1)) := by simp [Within]

theorem within_none : Within none none := by simp [Within]

theorem within_here : Within none (some 0) := by simp [Within]

mutual

inductive Expr.Renames (C : Change) (position : Option Nat) : Expr → Expr → Prop
  | literal (value : Literal) : Renames C position (.literal value) (.literal value)
  | group {e e' : Expr} (inner : Renames C position e e') : Renames C position (.group e) (.group e')
  | unary (op : Token) {e e' : Expr} (operand : Renames C position e e') :
    Renames C position (.unary op e) (.unary op e')
  | binary (op : Token) {e e' f f' : Expr} (left : Renames C position e e')
    (right : Renames C position f f') : Renames C position (.binary e op f) (.binary e' op f')
  | logical (op : Token) {e e' f f' : Expr} (left : Renames C position e e')
    (right : Renames C position f f') : Renames C position (.logical e op f) (.logical e' op f')
  | use {id : UseId} {name name' : Token} (names : C.Names (C.Means position id) name name') :
    Renames C position (.use id name) (.use id name')
  | assign {id : UseId} {name name' : Token} {e e' : Expr}
    (names : C.Names (C.Means position id) name name') (value : Renames C position e e') :
    Renames C position (.assign id name e) (.assign id name' e')
  | call (paren : Token) {callee callee' : Expr} {args args' : List Expr}
    (head : Renames C position callee callee') (tail : AllRenames C position args args') :
    Renames C position (.call callee args paren) (.call callee' args' paren)

inductive Expr.AllRenames (C : Change) (position : Option Nat) : List Expr → List Expr → Prop
  | nil : AllRenames C position [] []
  | cons {e e' : Expr} {es es' : List Expr} (head : Renames C position e e')
    (tail : AllRenames C position es es') : AllRenames C position (e :: es) (e' :: es')

end

mutual

/-- Statements that are the same up to the names of variables. The position is that of the scope in which
they stand. -/
inductive Stmt.Renames (C : Change) : Option Nat → Stmt → Stmt → Prop
  | expression {position : Option Nat} {e e' : Expr} (value : e.Renames C position e') :
    Renames C position (.expression e) (.expression e')
  | print {position : Option Nat} {e e' : Expr} (value : e.Renames C position e') :
    Renames C position (.print e) (.print e')
  | var {position : Option Nat} {name name' : Token} (names : C.Names (position = some 0) name name') :
    Renames C position (.var name none) (.var name' none)
  | init {position : Option Nat} {name name' : Token} {e e' : Expr}
    (names : C.Names (position = some 0) name name') (value : e.Renames C position e') :
    Renames C position (.var name (some e)) (.var name' (some e'))
  | block {position inner : Option Nat} {body body' : List Stmt} (within : Within position inner)
    (all : AllRenames C inner body body') : Renames C position (.block body) (.block body')
  | branch {position : Option Nat} {e e' : Expr} {s s' : Stmt} (condition : e.Renames C position e')
    (consequent : Renames C position s s') : Renames C position (.branch e s none) (.branch e' s' none)
  | branchElse {position : Option Nat} {e e' : Expr} {s s' a a' : Stmt}
    (condition : e.Renames C position e') (consequent : Renames C position s s')
    (alternative : Renames C position a a') :
    Renames C position (.branch e s (some a)) (.branch e' s' (some a'))
  | loop {position : Option Nat} {e e' : Expr} {s s' : Stmt} (condition : e.Renames C position e')
    (body : Renames C position s s') : Renames C position (.loop e s) (.loop e' s')
  /-- The name of a function stays as it is. -/
  | function {position inner : Option Nat} {name : Token} {params params' : List Token}
    {body body' : List Stmt} (kept : C.Name (position = some 0) name.lexeme name.lexeme)
    (within : Within position inner) (names : List.Forall₂ (C.Names (inner = some 0)) params params')
    (all : AllRenames C inner body body') :
    Renames C position (.function name params body) (.function name params' body')
  | ret {position : Option Nat} (keyword : Token) :
    Renames C position (.ret keyword none) (.ret keyword none)
  | retValue {position : Option Nat} (keyword : Token) {e e' : Expr} (value : e.Renames C position e') :
    Renames C position (.ret keyword (some e)) (.ret keyword (some e'))

inductive Stmt.AllRenames (C : Change) : Option Nat → List Stmt → List Stmt → Prop
  | nil {position : Option Nat} : AllRenames C position [] []
  | cons {position : Option Nat} {s s' : Stmt} {ss ss' : List Stmt} (head : Renames C position s s')
    (tail : AllRenames C position ss ss') : AllRenames C position (s :: ss) (s' :: ss')

end

section

variable {C : Change} {here : Prop}

theorem Change.Names.renamed {c : Prop} [Decidable c] {t : Token} (h : t.lexeme ≠ C.new)
    (hc : here ↔ c) : C.Names here t (t.renamed C.old C.new c) := by
  unfold Token.renamed
  by_cases hold : c ∧ t.lexeme = C.old
  · rw [if_pos hold]
    refine ⟨?_, rfl⟩
    rw [hold.2] at h ⊢
    exact .renamed (hc.2 hold.1) h
  · rw [if_neg hold]
    exact ⟨.kept (fun hhere heq => hold ⟨hc.1 hhere, heq⟩) h, rfl⟩

theorem Change.Names.refl {t : Token} (hhere : ¬ here) (h : t.lexeme ≠ C.new) : C.Names here t t :=
  ⟨.kept (fun h => absurd h hhere) h, rfl⟩

theorem Change.not_means_none {id : UseId} : ¬ C.Means none id := by simp [Means]

mutual

theorem Expr.renames_refl : ∀ e : Expr, (∀ n ∈ e.names, n ≠ C.new) → e.Renames C none e
  | .literal value, _ => .literal value
  | .group inner, h => .group (Expr.renames_refl inner h)
  | .unary op operand, h => .unary op (Expr.renames_refl operand h)
  | .binary left op right, h =>
    have ⟨hleft, hright⟩ := List.forall_mem_append.1 h
    .binary op (Expr.renames_refl left hleft) (Expr.renames_refl right hright)
  | .logical left op right, h =>
    have ⟨hleft, hright⟩ := List.forall_mem_append.1 h
    .logical op (Expr.renames_refl left hleft) (Expr.renames_refl right hright)
  | .use _ _, h => .use (.refl Change.not_means_none (h _ List.mem_cons_self))
  | .assign _ _ value, h =>
    have ⟨hname, hvalue⟩ := List.forall_mem_cons.1 h
    .assign (.refl Change.not_means_none hname) (Expr.renames_refl value hvalue)
  | .call callee args paren, h =>
    have ⟨hcallee, hargs⟩ := List.forall_mem_append.1 h
    .call paren (Expr.renames_refl callee hcallee) (Expr.allRenames_refl args hargs)

theorem Expr.allRenames_refl : ∀ es : List Expr, (∀ n ∈ Expr.allNames es, n ≠ C.new) →
    Expr.AllRenames C none es es
  | [], _ => .nil
  | e :: es, h =>
    have ⟨hhead, htail⟩ := List.forall_mem_append.1 h
    .cons (Expr.renames_refl e hhead) (Expr.allRenames_refl es htail)

end

theorem Change.forall₂_refl {ts : List Token} (hhere : ¬ here)
    (h : ∀ n ∈ ts.map Token.lexeme, n ≠ C.new) : List.Forall₂ (C.Names here) ts ts :=
  List.forall₂_same.2 fun _ ht => .refl hhere (h _ (List.mem_map_of_mem ht))

mutual

theorem Stmt.renames_refl : ∀ s : Stmt, (∀ n ∈ s.names, n ≠ C.new) → s.Renames C none s
  | .expression e, h => .expression (e.renames_refl h)
  | .print e, h => .print (e.renames_refl h)
  | .var _ none, h => .var (.refl nofun (h _ List.mem_cons_self))
  | .var _ (some init), h =>
    have ⟨hname, hinit⟩ := List.forall_mem_cons.1 h
    .init (.refl nofun hname) (init.renames_refl hinit)
  | .block body, h => .block within_none (Stmt.allRenames_refl body h)
  | .branch condition consequent none, h =>
    have ⟨hcondition, hconsequent⟩ := List.forall_mem_append.1 h
    .branch (condition.renames_refl hcondition) (Stmt.renames_refl consequent hconsequent)
  | .branch condition consequent (some alternative), h =>
    have ⟨hcondition, hbranches⟩ := List.forall_mem_append.1 h
    have ⟨hconsequent, halternative⟩ := List.forall_mem_append.1 hbranches
    .branchElse (condition.renames_refl hcondition) (Stmt.renames_refl consequent hconsequent)
      (Stmt.renames_refl alternative halternative)
  | .loop condition body, h =>
    have ⟨hcondition, hbody⟩ := List.forall_mem_append.1 h
    .loop (condition.renames_refl hcondition) (Stmt.renames_refl body hbody)
  | .function _ _ body, h =>
    have ⟨hname, hinside⟩ := List.forall_mem_cons.1 h
    have ⟨hparams, hbody⟩ := List.forall_mem_append.1 hinside
    .function (.kept nofun hname) within_none (Change.forall₂_refl nofun hparams)
      (Stmt.allRenames_refl body hbody)
  | .ret keyword none, _ => .ret keyword
  | .ret keyword (some value), h => .retValue keyword (value.renames_refl h)

theorem Stmt.allRenames_refl : ∀ ss : List Stmt, (∀ n ∈ Stmt.allNames ss, n ≠ C.new) →
    Stmt.AllRenames C none ss ss
  | [], _ => .nil
  | s :: ss, h =>
    have ⟨hhead, htail⟩ := List.forall_mem_append.1 h
    .cons (Stmt.renames_refl s hhead) (Stmt.allRenames_refl ss htail)

end

end

def Resolution.change (r : Resolution) (x y : String) : Change := ⟨x, y, fun id => r[id]?⟩

section

variable {r : Resolution} {x y : String} {depth : Nat}

theorem Resolution.means_change {id : UseId} :
    (r.change x y).Means (some depth) id ↔ r[id]? = some depth := by
  simp [Change.Means, change]

mutual

theorem Expr.renames_renamed : ∀ e : Expr, (∀ n ∈ e.names, n ≠ y) →
    e.Renames (r.change x y) (some depth) (e.renamed r x y depth)
  | .literal value, _ => .literal value
  | .group inner, h => .group (Expr.renames_renamed inner h)
  | .unary op operand, h => .unary op (Expr.renames_renamed operand h)
  | .binary left op right, h =>
    have ⟨hleft, hright⟩ := List.forall_mem_append.1 h
    .binary op (Expr.renames_renamed left hleft) (Expr.renames_renamed right hright)
  | .logical left op right, h =>
    have ⟨hleft, hright⟩ := List.forall_mem_append.1 h
    .logical op (Expr.renames_renamed left hleft) (Expr.renames_renamed right hright)
  | .use _ _, h => .use (.renamed (h _ List.mem_cons_self) r.means_change)
  | .assign _ _ value, h =>
    have ⟨hname, hvalue⟩ := List.forall_mem_cons.1 h
    .assign (.renamed hname r.means_change) (Expr.renames_renamed value hvalue)
  | .call callee args paren, h =>
    have ⟨hcallee, hargs⟩ := List.forall_mem_append.1 h
    .call paren (Expr.renames_renamed callee hcallee) (Expr.allRenames_renamed args hargs)

theorem Expr.allRenames_renamed : ∀ es : List Expr, (∀ n ∈ Expr.allNames es, n ≠ y) →
    Expr.AllRenames (r.change x y) (some depth) es (Expr.allRenamed r x y depth es)
  | [], _ => .nil
  | e :: es, h =>
    have ⟨hhead, htail⟩ := List.forall_mem_append.1 h
    .cons (Expr.renames_renamed e hhead) (Expr.allRenames_renamed es htail)

end

mutual

/-- Renaming a variable of a scope further out, or of the scope itself if it is no function there. -/
theorem Stmt.renames_renamed {depth : Nat} : ∀ s : Stmt, (∀ n ∈ s.names, n ≠ y) →
    (depth = 0 → s.makes x = false) → s.Renames (r.change x y) (some depth) (s.renamed r x y depth)
  | .expression e, h, _ => .expression (e.renames_renamed h)
  | .print e, h, _ => .print (e.renames_renamed h)
  | .var _ none, h, _ => .var (.renamed (h _ List.mem_cons_self) (by simp))
  | .var _ (some init), h, _ =>
    have ⟨hname, hinit⟩ := List.forall_mem_cons.1 h
    .init (.renamed hname (by simp)) (init.renames_renamed hinit)
  | .block body, h, _ => .block (within_succ depth) (Stmt.allRenames_renamed body h nofun)
  | .branch condition consequent none, h, hmakes =>
    have ⟨hcondition, hconsequent⟩ := List.forall_mem_append.1 h
    .branch (condition.renames_renamed hcondition) (Stmt.renames_renamed consequent hconsequent hmakes)
  | .branch condition consequent (some alternative), h, hmakes =>
    have ⟨hcondition, hbranches⟩ := List.forall_mem_append.1 h
    have ⟨hconsequent, halternative⟩ := List.forall_mem_append.1 hbranches
    have hneither (hdepth : depth = 0) := Bool.or_eq_false_iff.1 (hmakes hdepth)
    .branchElse (condition.renames_renamed hcondition)
      (Stmt.renames_renamed consequent hconsequent fun hdepth => (hneither hdepth).1)
      (Stmt.renames_renamed alternative halternative fun hdepth => (hneither hdepth).2)
  | .loop condition body, h, hmakes =>
    have ⟨hcondition, hbody⟩ := List.forall_mem_append.1 h
    .loop (condition.renames_renamed hcondition) (Stmt.renames_renamed body hbody hmakes)
  | .function name params body, h, hmakes =>
    have ⟨hname, hinside⟩ := List.forall_mem_cons.1 h
    have ⟨hparams, hbody⟩ := List.forall_mem_append.1 hinside
    have hother (hdepth : some depth = some 0) : name.lexeme ≠ x :=
      of_decide_eq_false (hmakes (Option.some.inj hdepth))
    .function (.kept hother hname) (within_succ depth)
      (Change.forall₂_refl (by simp) hparams) (Stmt.allRenames_renamed body hbody nofun)
  | .ret keyword none, _, _ => .ret keyword
  | .ret keyword (some value), h, _ => .retValue keyword (value.renames_renamed h)

theorem Stmt.allRenames_renamed {depth : Nat} : ∀ ss : List Stmt, (∀ n ∈ Stmt.allNames ss, n ≠ y) →
    (depth = 0 → ∀ s ∈ ss, s.makes x = false) →
    Stmt.AllRenames (r.change x y) (some depth) ss (Stmt.allRenamed r x y depth ss)
  | [], _, _ => .nil
  | s :: ss, h, hmakes =>
    have ⟨hhead, htail⟩ := List.forall_mem_append.1 h
    .cons (Stmt.renames_renamed s hhead fun hdepth => hmakes hdepth s List.mem_cons_self)
      (Stmt.allRenames_renamed ss htail fun hdepth t ht => hmakes hdepth t (List.mem_cons_of_mem s ht))

end

theorem Change.forall₂_renamed {ts : List Token} (h : ∀ n ∈ ts.map Token.lexeme, n ≠ y) :
    List.Forall₂ ((r.change x y).Names (some 0 = some 0)) ts (ts.map (Token.renamed x y True)) := by
  rw [List.forall₂_map_right_iff]
  exact List.forall₂_same.2 fun t ht => .renamed (h _ (List.mem_map_of_mem ht)) (by simp)

mutual

theorem Stmt.ScopeRenamed.renames {s s' : Stmt} (hs : ∀ n ∈ s.names, n ≠ y) :
    s.ScopeRenamed r x y s' → s.Renames (r.change x y) none s'
  | .hereBlock noFunction => .block within_here (Stmt.allRenames_renamed _ hs fun _ => noFunction)
  | .hereBody noFunction =>
    have ⟨hname, hinside⟩ := List.forall_mem_cons.1 hs
    have ⟨hparams, hbody⟩ := List.forall_mem_append.1 hinside
    .function (.kept nofun hname) within_here (Change.forall₂_renamed hparams)
      (Stmt.allRenames_renamed _ hbody fun _ => noFunction)
  | .block inside => .block within_none (inside.renames hs)
  | .function inside =>
    have ⟨hname, hinside⟩ := List.forall_mem_cons.1 hs
    have ⟨hparams, hbody⟩ := List.forall_mem_append.1 hinside
    .function (.kept nofun hname) within_none (Change.forall₂_refl nofun hparams) (inside.renames hbody)
  | .branch inside =>
    have ⟨hcondition, hconsequent⟩ := List.forall_mem_append.1 hs
    .branch (Expr.renames_refl _ hcondition) (inside.renames hconsequent)
  | .consequent inside =>
    have ⟨hcondition, hbranches⟩ := List.forall_mem_append.1 hs
    have ⟨hconsequent, halternative⟩ := List.forall_mem_append.1 hbranches
    .branchElse (Expr.renames_refl _ hcondition) (inside.renames hconsequent)
      (Stmt.renames_refl _ halternative)
  | .alternative inside =>
    have ⟨hcondition, hbranches⟩ := List.forall_mem_append.1 hs
    have ⟨hconsequent, halternative⟩ := List.forall_mem_append.1 hbranches
    .branchElse (Expr.renames_refl _ hcondition) (Stmt.renames_refl _ hconsequent)
      (inside.renames halternative)
  | .loop inside =>
    have ⟨hcondition, hbody⟩ := List.forall_mem_append.1 hs
    .loop (Expr.renames_refl _ hcondition) (inside.renames hbody)

theorem Stmt.AllScopeRenamed.renames {ss ss' : List Stmt} (hs : ∀ n ∈ Stmt.allNames ss, n ≠ y) :
    Stmt.AllScopeRenamed r x y ss ss' → Stmt.AllRenames (r.change x y) none ss ss'
  | .head inside =>
    have ⟨hhead, htail⟩ := List.forall_mem_append.1 hs
    .cons (inside.renames hhead) (Stmt.allRenames_refl _ htail)
  | .tail inside =>
    have ⟨hhead, htail⟩ := List.forall_mem_append.1 hs
    .cons (Stmt.renames_refl _ hhead) (inside.renames htail)

end

end
end Lox
