import Lox.Resolution

/-! What the resolution of a program says about each use of a name in it.
A use is settled by a table if the table has for it the depth that the walk finds when it gets
there. All uses in a program with distinct ids are settled by its resolution
(`settled_of_resolve`), and stay settled in a table that keeps their entries (`Settled.congr`). -/
namespace Lox

mutual

/-- The ids of the uses of names in an expression, in the order of the walk. -/
def Expr.uses : Expr → List UseId
  | .literal _ => []
  | .group inner => inner.uses
  | .unary _ operand => operand.uses
  | .binary left _ right => left.uses ++ right.uses
  | .logical left _ right => left.uses ++ right.uses
  | .use id _ => [id]
  | .assign id _ value => value.uses ++ [id]
  | .call callee args _ => callee.uses ++ Expr.usesAll args

def Expr.usesAll : List Expr → List UseId
  | [] => []
  | e :: es => e.uses ++ Expr.usesAll es

end

mutual

def Stmt.uses : Stmt → List UseId
  | .expression e => e.uses
  | .print e => e.uses
  | .var _ none => []
  | .var _ (some init) => init.uses
  | .block body => Stmt.usesAll body
  | .branch condition consequent none => condition.uses ++ consequent.uses
  | .branch condition consequent (some alternative) =>
    condition.uses ++ (consequent.uses ++ alternative.uses)
  | .loop condition body => condition.uses ++ body.uses
  | .function _ _ body => Stmt.usesAll body
  | .ret _ none => []
  | .ret _ (some value) => value.uses

def Stmt.usesAll : List Stmt → List UseId
  | [] => []
  | s :: ss => s.uses ++ Stmt.usesAll ss

end

def Program.uses (p : Program) : List UseId := Stmt.usesAll p

namespace Walk

@[simp] theorem scopes_settle (w : Walk) (id : UseId) (name : String) :
    (w.settle id name).scopes = w.scopes := by
  unfold settle
  split <;> rfl

@[simp] theorem errors_settle (w : Walk) (id : UseId) (name : String) :
    (w.settle id name).errors = w.errors := by
  unfold settle
  split <;> rfl

/-- Names are looked up in the scopes only. -/
theorem depth?_congr {v w : Walk} (h : v.scopes = w.scopes) (name : String) :
    v.depth? name = w.depth? name := by
  rw [depth?, h, depth?]

theorem inOwnInitializer_congr {v w : Walk} (h : v.scopes = w.scopes) (name : String) :
    v.inOwnInitializer name = w.inOwnInitializer name := by
  rw [inOwnInitializer, h, inOwnInitializer]

theorem depths_settle_of_ne (w : Walk) {id id' : UseId} (name : String) (h : id' ≠ id) :
    (w.settle id name).depths[id']? = w.depths[id']? := by
  unfold settle
  split
  · rw [Std.TreeMap.getElem?_insert, if_neg]
    simpa using h.symm
  · rfl

theorem depths_settle_self (w : Walk) {id : UseId} (name : String) (h : w.depths[id]? = none) :
    (w.settle id name).depths[id]? = w.depth? name := by
  unfold settle
  split
  · next d hd => rw [Std.TreeMap.getElem?_insert, if_pos (by simp), hd]
  · next hd => rw [h, hd]

mutual

@[simp] theorem scopes_expression (w : Walk) : ∀ e : Expr, (w.expression e).scopes = w.scopes
  | .literal _ => rfl
  | .group inner => scopes_expression w inner
  | .unary _ operand => scopes_expression w operand
  | .binary left _ right | .logical left _ right => by
    rw [expression, scopes_expression _ right, scopes_expression w left]
  | .use id name => by
    rw [expression, scopes_settle]
    split <;> rfl
  | .assign id name value => by rw [expression, scopes_settle, scopes_expression w value]
  | .call callee args _ => by
    rw [expression, scopes_expressions _ args, scopes_expression w callee]

@[simp] theorem scopes_expressions (w : Walk) : ∀ es : List Expr,
    (w.expressions es).scopes = w.scopes
  | [] => rfl
  | e :: es => by rw [expressions, scopes_expressions _ es, scopes_expression w e]

end

/-- The walk leads from one state to another on a part of a program with these uses: it takes no
error back and settles no other use. -/
structure Leads (w : Walk) (ids : List UseId) (v : Walk) : Prop where
  errors : w.errors <+: v.errors
  depths : ∀ id, id ∉ ids → v.depths[id]? = w.depths[id]?

theorem Leads.refl (w : Walk) : w.Leads [] w := ⟨List.prefix_refl _, fun _ _ => rfl⟩

theorem Leads.append {u v w : Walk} {ids ids' : List UseId} (h : w.Leads ids v)
    (h' : v.Leads ids' u) : w.Leads (ids ++ ids') u where
  errors := h.errors.trans h'.errors
  depths id hid := by
    simp only [List.mem_append, not_or] at hid
    exact (h'.depths id hid.2).trans (h.depths id hid.1)

theorem leads_settle (w : Walk) (id : UseId) (name : String) : w.Leads [id] (w.settle id name) where
  errors := by simp
  depths id' h := depths_settle_of_ne w name (by simpa using h)

theorem leads_record (w : Walk) (e : SyntaxError) : w.Leads [] (w.record e) :=
  ⟨List.prefix_append _ _, fun _ _ => rfl⟩

mutual

theorem leads_expression (w : Walk) : ∀ e : Expr, w.Leads e.uses (w.expression e)
  | .literal _ => .refl w
  | .group inner => leads_expression w inner
  | .unary _ operand => leads_expression w operand
  | .binary left _ right | .logical left _ right =>
    (leads_expression w left).append (leads_expression _ right)
  | .use id name => by
    rw [expression, Expr.uses, ← List.nil_append [id]]
    split
    · exact (leads_record w _).append (leads_settle _ id _)
    · exact (Leads.refl w).append (leads_settle _ id _)
  | .assign id name value => (leads_expression w value).append (leads_settle _ id _)
  | .call callee args _ => (leads_expression w callee).append (leads_expressions _ args)

theorem leads_expressions (w : Walk) : ∀ es : List Expr, w.Leads (Expr.usesAll es) (w.expressions es)
  | [] => .refl w
  | e :: es => (leads_expression w e).append (leads_expressions _ es)

end

/-- Each use is met once on the way, and no error is. -/
structure Accepts (w : Walk) (ids : List UseId) (v : Walk) : Prop where
  nodup : ids.Nodup
  unsettled : ∀ id ∈ ids, w.depths[id]? = none
  errors : v.errors = w.errors

/-- What holds of the whole way holds of both parts, and the second part leaves the first alone. -/
theorem Accepts.split {u v w : Walk} {ids ids' : List UseId} (h : w.Accepts (ids ++ ids') u)
    (hv : w.Leads ids v) (hu : v.Leads ids' u) :
    w.Accepts ids v ∧ v.Accepts ids' u ∧ ∀ id ∈ ids, u.depths[id]? = v.depths[id]? := by
  obtain ⟨hn, hn', hd⟩ := List.nodup_append.1 h.nodup
  have hvw : v.errors = w.errors :=
    (hv.errors.eq_of_length_le (h.errors ▸ hu.errors.length_le)).symm
  refine ⟨⟨hn, fun id hid => h.unsettled id (List.mem_append_left _ hid), hvw⟩,
    ⟨hn', fun id hid => ?_, h.errors.trans hvw.symm⟩, fun id hid => ?_⟩
  · rw [hv.depths id fun hid' => hd id hid' id hid rfl]
    exact h.unsettled id (List.mem_append_right _ hid)
  · exact hu.depths id fun hid' => hd id hid id hid' rfl

mutual

/-- A table has for each use in an expression the depth that the walk finds for it, and no use reads
a variable in its own initializer. -/
def Settled (r : Resolution) (w : Walk) : Expr → Prop
  | .literal _ => True
  | .group inner => w.Settled r inner
  | .unary _ operand => w.Settled r operand
  | .binary left _ right => w.Settled r left ∧ (w.expression left).Settled r right
  | .logical left _ right => w.Settled r left ∧ (w.expression left).Settled r right
  | .use id name => r[id]? = w.depth? name.lexeme ∧ w.inOwnInitializer name.lexeme = false
  | .assign id name value => w.Settled r value ∧ r[id]? = w.depth? name.lexeme
  | .call callee args _ => w.Settled r callee ∧ (w.expression callee).SettledAll r args

def SettledAll (r : Resolution) (w : Walk) : List Expr → Prop
  | [] => True
  | e :: es => w.Settled r e ∧ (w.expression e).SettledAll r es

end

variable {r : Resolution}

mutual

/-- Where names are used as in other scopes, uses are settled alike. -/
theorem Settled.congr_walk {v w : Walk} (h : v.scopes = w.scopes) : ∀ e : Expr,
    v.Settled r e → w.Settled r e
  | .literal _, _ => trivial
  | .group inner, he => Settled.congr_walk h inner he
  | .unary _ operand, he => Settled.congr_walk h operand he
  | .binary left _ right, he | .logical left _ right, he =>
    ⟨Settled.congr_walk h left he.1, Settled.congr_walk (by simp [h]) right he.2⟩
  | .use id name, he => by
    rw [Settled, ← depth?_congr h, ← inOwnInitializer_congr h]
    exact he
  | .assign id name value, he => by
    rw [Settled, ← depth?_congr h]
    exact ⟨Settled.congr_walk h value he.1, he.2⟩
  | .call callee args _, he =>
    ⟨Settled.congr_walk h callee he.1, SettledAll.congr_walk (by simp [h]) args he.2⟩

theorem SettledAll.congr_walk {v w : Walk} (h : v.scopes = w.scopes) : ∀ es : List Expr,
    v.SettledAll r es → w.SettledAll r es
  | [], _ => trivial
  | e :: es, he =>
    ⟨Settled.congr_walk h e he.1, SettledAll.congr_walk (by simp [h]) es he.2⟩

end

mutual

/-- Only the entries of the uses themselves matter. -/
theorem Settled.congr {r r' : Resolution} {w : Walk} : ∀ e : Expr,
    (∀ id ∈ e.uses, r'[id]? = r[id]?) → w.Settled r e → w.Settled r' e
  | .literal _, _, _ => trivial
  | .group inner, h, he => Settled.congr inner h he
  | .unary _ operand, h, he => Settled.congr operand h he
  | .binary left _ right, h, he | .logical left _ right, h, he =>
    ⟨Settled.congr left (fun id hid => h id (List.mem_append_left _ hid)) he.1,
      Settled.congr right (fun id hid => h id (List.mem_append_right _ hid)) he.2⟩
  | .use id name, h, he => ⟨(h id (List.mem_singleton_self id)).trans he.1, he.2⟩
  | .assign id name value, h, he =>
    ⟨Settled.congr value (fun id hid => h id (List.mem_append_left _ hid)) he.1,
      (h id (by simp [Expr.uses])).trans he.2⟩
  | .call callee args _, h, he =>
    ⟨Settled.congr callee (fun id hid => h id (List.mem_append_left _ hid)) he.1,
      SettledAll.congr args (fun id hid => h id (List.mem_append_right _ hid)) he.2⟩

theorem SettledAll.congr {r r' : Resolution} {w : Walk} : ∀ es : List Expr,
    (∀ id ∈ Expr.usesAll es, r'[id]? = r[id]?) → w.SettledAll r es → w.SettledAll r' es
  | [], _, _ => trivial
  | e :: es, h, he =>
    ⟨Settled.congr e (fun id hid => h id (List.mem_append_left _ hid)) he.1,
      SettledAll.congr es (fun id hid => h id (List.mem_append_right _ hid)) he.2⟩

end

mutual

theorem Accepts.expression {w : Walk} : ∀ {e : Expr}, w.Accepts e.uses (w.expression e) →
    w.Settled (w.expression e).depths e
  | .literal _, _ => trivial
  | .group inner, h => Accepts.expression (e := inner) h
  | .unary _ operand, h => Accepts.expression (e := operand) h
  | .binary left _ right, h | .logical left _ right, h => by
    obtain ⟨hl, hr, hd⟩ := h.split (leads_expression w left) (leads_expression _ right)
    exact ⟨hl.expression.congr left hd, hr.expression⟩
  | .use id name, h => by
    have hid := h.unsettled id (List.mem_singleton_self id)
    have he := h.errors
    rw [Walk.expression, errors_settle] at he
    rw [Settled, Walk.expression]
    split at he
    · exact absurd he (by simp [record])
    · next hn =>
      rw [if_neg hn]
      exact ⟨depths_settle_self w _ hid, by simpa using hn⟩
  | .assign id name value, h => by
    obtain ⟨hv, hi, hd⟩ := h.split (leads_expression w value) (leads_settle _ id name.lexeme)
    refine ⟨hv.expression.congr value hd, ?_⟩
    rw [Walk.expression, depths_settle_self _ _ (hi.unsettled id (List.mem_singleton_self id))]
    exact depth?_congr (scopes_expression w value) _
  | .call callee args _, h => by
    obtain ⟨hl, hr, hd⟩ := h.split (leads_expression w callee) (leads_expressions _ args)
    exact ⟨hl.expression.congr callee hd, hr.expressions⟩

theorem Accepts.expressions {w : Walk} : ∀ {es : List Expr},
    w.Accepts (Expr.usesAll es) (w.expressions es) → w.SettledAll (w.expressions es).depths es
  | [], _ => trivial
  | e :: es, h => by
    obtain ⟨hl, hr, hd⟩ := h.split (leads_expression w e) (leads_expressions _ es)
    exact ⟨hl.expression.congr e hd, hr.expressions⟩

end

@[simp] theorem depths_enter (w : Walk) (name : String) (ready : Bool) :
    (w.enter name ready).depths = w.depths := by
  unfold enter
  split <;> rfl

@[simp] theorem errors_enter (w : Walk) (name : String) (ready : Bool) :
    (w.enter name ready).errors = w.errors := by
  unfold enter
  split <;> rfl

theorem leads_enter (w : Walk) (name : String) (ready : Bool) : w.Leads [] (w.enter name ready) :=
  ⟨by simp, fun _ _ => by simp⟩

@[simp] theorem depths_enterAll (w : Walk) (names : List String) :
    (w.enterAll names).depths = w.depths := by
  unfold enterAll
  induction names generalizing w with
  | nil => rfl
  | cons name names ih => rw [List.foldl_cons, ih, depths_enter]

@[simp] theorem errors_enterAll (w : Walk) (names : List String) :
    (w.enterAll names).errors = w.errors := by
  unfold enterAll
  induction names generalizing w with
  | nil => rfl
  | cons name names ih => rw [List.foldl_cons, ih, errors_enter]

/-- Open the scope that parameters and body of a function share. -/
def openBody (w : Walk) (params : List Token) : Walk :=
  w.openScope.enterAll (params.map Token.lexeme)

def enterBody (w : Walk) (name : Token) (params : List Token) : Walk :=
  (w.enter name.lexeme true).openBody params

theorem leads_enterBody (w : Walk) (name : Token) (params : List Token) :
    w.Leads [] (w.enterBody name params) :=
  ⟨by simp [enterBody, openBody, openScope], fun _ _ => by simp [enterBody, openBody, openScope]⟩

theorem leads_closeScope (w : Walk) : w.Leads [] w.closeScope :=
  ⟨List.prefix_refl _, fun _ _ => rfl⟩

theorem leads_openScope (w : Walk) : w.Leads [] w.openScope := ⟨List.prefix_refl _, fun _ _ => rfl⟩

def enterReturn (w : Walk) (inFunction : Bool) (keyword : Token) : Walk :=
  if inFunction then w else w.record (.atToken keyword .returnAtTopLevel)

@[simp] theorem scopes_enterReturn (w : Walk) (inFunction : Bool) (keyword : Token) :
    (w.enterReturn inFunction keyword).scopes = w.scopes := by
  unfold enterReturn
  split <;> rfl

theorem leads_enterReturn (w : Walk) (inFunction : Bool) (keyword : Token) :
    w.Leads [] (w.enterReturn inFunction keyword) := by
  unfold enterReturn
  split
  · exact .refl w
  · exact leads_record w _

mutual

theorem leads_statement (inFunction : Bool) (w : Walk) : ∀ s : Stmt,
    w.Leads s.uses (w.statement inFunction s)
  | .expression e => leads_expression w e
  | .print e => leads_expression w e
  | .var name none => leads_enter w _ _
  | .var name (some init) => by
    have h := ((leads_enter w name.lexeme false).append (leads_expression _ init)).append
      (leads_enter _ name.lexeme true)
    rwa [List.nil_append, List.append_nil] at h
  | .block body => by
    have h := ((leads_openScope w).append (leads_statements inFunction _ body)).append
      (leads_closeScope _)
    rwa [List.nil_append, List.append_nil] at h
  | .branch condition consequent none =>
    (leads_expression w condition).append (leads_statement inFunction _ consequent)
  | .branch condition consequent (some alternative) =>
    (leads_expression w condition).append
      ((leads_statement inFunction _ consequent).append (leads_statement inFunction _ alternative))
  | .loop condition body =>
    (leads_expression w condition).append (leads_statement inFunction _ body)
  | .function name params body => by
    have h := ((leads_enterBody w name params).append (leads_statements true _ body)).append
      (leads_closeScope _)
    rwa [List.nil_append, List.append_nil] at h
  | .ret keyword none => leads_enterReturn w inFunction keyword
  | .ret keyword (some value) =>
    (leads_enterReturn w inFunction keyword).append (leads_expression _ value)

theorem leads_statements (inFunction : Bool) (w : Walk) : ∀ ss : List Stmt,
    w.Leads (Stmt.usesAll ss) (w.statements inFunction ss)
  | [] => .refl w
  | s :: ss => (leads_statement inFunction w s).append (leads_statements inFunction _ ss)

end

mutual

def SettledStatement (r : Resolution) (inFunction : Bool) (w : Walk) : Stmt → Prop
  | .expression e => w.Settled r e
  | .print e => w.Settled r e
  | .var _ none => True
  | .var name (some init) => (w.enter name.lexeme false).Settled r init
  | .block body => w.openScope.SettledStatements r inFunction body
  | .branch condition consequent none =>
    w.Settled r condition ∧ (w.expression condition).SettledStatement r inFunction consequent
  | .branch condition consequent (some alternative) =>
    w.Settled r condition ∧ (w.expression condition).SettledStatement r inFunction consequent ∧
      ((w.expression condition).statement inFunction consequent).SettledStatement r inFunction
        alternative
  | .loop condition body =>
    w.Settled r condition ∧ (w.expression condition).SettledStatement r inFunction body
  | .function name params body => (w.enterBody name params).SettledStatements r true body
  | .ret _ none => True
  | .ret keyword (some value) => (w.enterReturn inFunction keyword).Settled r value

def SettledStatements (r : Resolution) (inFunction : Bool) (w : Walk) : List Stmt → Prop
  | [] => True
  | s :: ss => w.SettledStatement r inFunction s ∧
    (w.statement inFunction s).SettledStatements r inFunction ss

end

mutual

theorem SettledStatement.congr {r r' : Resolution} {inFunction : Bool} {w : Walk} : ∀ s : Stmt,
    (∀ id ∈ s.uses, r'[id]? = r[id]?) → w.SettledStatement r inFunction s →
      w.SettledStatement r' inFunction s
  | .expression e, h, hs => Settled.congr e h hs
  | .print e, h, hs => Settled.congr e h hs
  | .var _ none, _, _ => trivial
  | .var _ (some init), h, hs => Settled.congr init h hs
  | .block body, h, hs => SettledStatements.congr body h hs
  | .branch condition consequent none, h, hs =>
    ⟨Settled.congr condition (fun id hid => h id (List.mem_append_left _ hid)) hs.1,
      SettledStatement.congr consequent (fun id hid => h id (List.mem_append_right _ hid)) hs.2⟩
  | .branch condition consequent (some alternative), h, hs =>
    ⟨Settled.congr condition (fun id hid => h id (List.mem_append_left _ hid)) hs.1,
      SettledStatement.congr consequent
        (fun id hid => h id (List.mem_append_right _ (List.mem_append_left _ hid))) hs.2.1,
      SettledStatement.congr alternative
        (fun id hid => h id (List.mem_append_right _ (List.mem_append_right _ hid))) hs.2.2⟩
  | .loop condition body, h, hs =>
    ⟨Settled.congr condition (fun id hid => h id (List.mem_append_left _ hid)) hs.1,
      SettledStatement.congr body (fun id hid => h id (List.mem_append_right _ hid)) hs.2⟩
  | .function _ _ body, h, hs => SettledStatements.congr body h hs
  | .ret _ none, _, _ => trivial
  | .ret _ (some value), h, hs => Settled.congr value h hs

theorem SettledStatements.congr {r r' : Resolution} {inFunction : Bool} {w : Walk} :
    ∀ ss : List Stmt, (∀ id ∈ Stmt.usesAll ss, r'[id]? = r[id]?) →
      w.SettledStatements r inFunction ss → w.SettledStatements r' inFunction ss
  | [], _, _ => trivial
  | s :: ss, h, hs =>
    ⟨SettledStatement.congr s (fun id hid => h id (List.mem_append_left _ hid)) hs.1,
      SettledStatements.congr ss (fun id hid => h id (List.mem_append_right _ hid)) hs.2⟩

end

mutual

theorem Accepts.statement {inFunction : Bool} {w : Walk} : ∀ {s : Stmt},
    w.Accepts s.uses (w.statement inFunction s) →
      w.SettledStatement (w.statement inFunction s).depths inFunction s
  | .expression e, h => Accepts.expression (e := e) h
  | .print e, h => Accepts.expression (e := e) h
  | .var _ none, _ => trivial
  | .var name (some init), h => by
    have hi : (w.enter name.lexeme false).Accepts init.uses
        ((w.enter name.lexeme false).expression init) :=
      ⟨h.nodup, fun id hid => by rw [depths_enter]; exact h.unsettled id hid,
        by simpa [Walk.statement] using h.errors⟩
    rw [Walk.statement, depths_enter]
    exact hi.expression
  | .block body, h => by
    have hb : w.openScope.Accepts (Stmt.usesAll body) (w.openScope.statements inFunction body) :=
      ⟨h.nodup, h.unsettled, h.errors⟩
    exact hb.statements
  | .branch condition consequent none, h => by
    obtain ⟨hc, hs, hd⟩ :=
      h.split (leads_expression w condition) (leads_statement inFunction _ consequent)
    exact ⟨hc.expression.congr condition hd, hs.statement⟩
  | .branch condition consequent (some alternative), h => by
    obtain ⟨hc, hs, hd⟩ := h.split (leads_expression w condition)
      ((leads_statement inFunction _ consequent).append (leads_statement inFunction _ alternative))
    obtain ⟨hs, ha, hd'⟩ :=
      hs.split (leads_statement inFunction _ consequent) (leads_statement inFunction _ alternative)
    exact ⟨hc.expression.congr condition hd, hs.statement.congr consequent hd', ha.statement⟩
  | .loop condition body, h => by
    obtain ⟨hc, hs, hd⟩ :=
      h.split (leads_expression w condition) (leads_statement inFunction _ body)
    exact ⟨hc.expression.congr condition hd, hs.statement⟩
  | .function name params body, h => by
    have hb : (w.enterBody name params).Accepts (Stmt.usesAll body)
        ((w.enterBody name params).statements true body) :=
      ⟨h.nodup, fun id hid => by
          rw [(leads_enterBody w name params).depths id List.not_mem_nil]
          exact h.unsettled id hid,
        by simpa [Walk.statement, enterBody, openBody, openScope, closeScope] using h.errors⟩
    exact hb.statements
  | .ret _ none, _ => trivial
  | .ret keyword (some value), h => by
    have h : w.Accepts ([] ++ value.uses) _ := h
    obtain ⟨_, hv, _⟩ := h.split (leads_enterReturn w inFunction keyword) (leads_expression _ value)
    exact hv.expression

theorem Accepts.statements {inFunction : Bool} {w : Walk} : ∀ {ss : List Stmt},
    w.Accepts (Stmt.usesAll ss) (w.statements inFunction ss) →
      w.SettledStatements (w.statements inFunction ss).depths inFunction ss
  | [], _ => trivial
  | s :: ss, h => by
    obtain ⟨hs, hss, hd⟩ :=
      h.split (leads_statement inFunction w s) (leads_statements inFunction _ ss)
    exact ⟨hs.statement.congr s hd, hss.statements⟩

end

end Walk

/-- In a program that is accepted, every use is settled by the resolution. -/
theorem settled_of_resolve {p : Program} {r : Resolution} (hp : p.uses.Nodup)
    (h : resolve p = .ok r) : Walk.initial.SettledStatements r false p := by
  unfold resolve at h
  dsimp only at h
  split at h
  · next he =>
    injection h with h
    subst h
    exact Walk.Accepts.statements
      ⟨hp, fun id _ => by simp [Walk.initial], List.isEmpty_iff.1 he⟩
  · cases h

theorem resolve_getElem?_eq_none {p : Program} {r : Resolution} (h : resolve p = .ok r)
    {id : UseId} (hid : id ∉ p.uses) : r[id]? = none := by
  unfold resolve at h
  dsimp only at h
  split at h
  · injection h with h
    rw [← h, (Walk.leads_statements false .initial p).depths id hid]
    simp [Walk.initial]
  · cases h

end Lox
