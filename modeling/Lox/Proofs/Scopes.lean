import Lox.Proofs.Settled

/-! How the open scopes change along the walk.
A statement touches the innermost scope at most. A statement that declares nothing itself leaves all
scopes as they are, where branches and loop bodies are no bare declarations
(`scopes_statement_of_isPlain`). -/
namespace Lox

/-- Whether a statement declares a name in the scope that it stands in. -/
def Stmt.declares : Stmt → Bool
  | .var .. | .function .. => true
  | _ => false

mutual

/-- No branch of an `if` and no body of a loop is a bare declaration. -/
def Stmt.isPlain : Stmt → Bool
  | .block body => Stmt.arePlain body
  | .branch _ consequent none => !consequent.declares && consequent.isPlain
  | .branch _ consequent (some alternative) =>
    (!consequent.declares && consequent.isPlain) && (!alternative.declares && alternative.isPlain)
  | .loop _ body => !body.declares && body.isPlain
  | .function _ _ body => Stmt.arePlain body
  | _ => true

def Stmt.arePlain : List Stmt → Bool
  | [] => true
  | s :: ss => s.isPlain && Stmt.arePlain ss

end

def Stmt.isBody (s : Stmt) : Bool := !s.declares && s.isPlain

theorem Stmt.isPlain_of_isBody {s : Stmt} (h : s.isBody) : s.isPlain :=
  (Bool.and_eq_true_iff.1 h).2

namespace Walk

theorem scopes_enter (w : Walk) (name : String) (ready : Bool) :
    (w.enter name ready).scopes = match w.scopes with
      | [] => []
      | scope :: outer => ((name, ready) :: scope) :: outer := by
  unfold enter
  cases h : w.scopes <;> simp [h]

@[simp] theorem length_scopes_enter (w : Walk) (name : String) (ready : Bool) :
    (w.enter name ready).scopes.length = w.scopes.length := by
  rw [scopes_enter]
  cases w.scopes <;> rfl

@[simp] theorem tail_scopes_enter (w : Walk) (name : String) (ready : Bool) :
    (w.enter name ready).scopes.tail = w.scopes.tail := by
  rw [scopes_enter]
  cases w.scopes <;> rfl

theorem scopes_enterAll {w : Walk} {scope : Scope} {outer : List Scope}
    (h : w.scopes = scope :: outer) (names : List String) :
    (w.enterAll names).scopes = ((names.map (·, true)).reverse ++ scope) :: outer := by
  unfold enterAll
  induction names generalizing w scope with
  | nil => simpa using h
  | cons name names ih =>
    rw [List.foldl_cons, ih (w := w.enter name true) (by rw [scopes_enter, h])]
    simp

theorem scopes_enterBody (w : Walk) (name : Token) (params : List Token) :
    (w.enterBody name params).scopes =
      ((params.map Token.lexeme).map (·, true)).reverse :: (w.enter name.lexeme true).scopes := by
  have h : (w.enter name.lexeme true).openScope.scopes =
      [] :: (w.enter name.lexeme true).scopes := rfl
  rw [enterBody, openBody, scopes_enterAll h, List.append_nil]

mutual

/-- Statements touch the innermost scope only, and neither open nor close one for good. -/
theorem tail_scopes_statement (inFunction : Bool) (w : Walk) : ∀ s : Stmt,
    (w.statement inFunction s).scopes.tail = w.scopes.tail ∧
      (w.statement inFunction s).scopes.length = w.scopes.length
  | .expression e | .print e => by simp [statement]
  | .var name none => by simp [statement]
  | .var name (some init) => by simp [statement]
  | .block body => by
    have h := tail_scopes_statements inFunction w.openScope body
    simp only [statement, closeScope, h.1]
    exact ⟨rfl, rfl⟩
  | .branch condition consequent none => by
    simpa [statement] using tail_scopes_statement inFunction (w.expression condition) consequent
  | .branch condition consequent (some alternative) => by
    have h := tail_scopes_statement inFunction (w.expression condition) consequent
    have h' := tail_scopes_statement inFunction
      ((w.expression condition).statement inFunction consequent) alternative
    simpa [statement, h.1, h.2] using h'
  | .loop condition body => by
    simpa [statement] using tail_scopes_statement inFunction (w.expression condition) body
  | .function name params body => by
    have h := tail_scopes_statements true (w.enterBody name params) body
    rw [scopes_enterBody] at h
    change ((w.enterBody name params).statements true body).scopes.tail.tail = _ ∧
      ((w.enterBody name params).statements true body).scopes.tail.length = _
    simp [h.1]
  | .ret keyword none => by
    have h := scopes_enterReturn w inFunction keyword
    exact ⟨congrArg List.tail h, congrArg List.length h⟩
  | .ret keyword (some value) => by
    have h : ((w.enterReturn inFunction keyword).expression value).scopes = w.scopes := by simp
    exact ⟨congrArg List.tail h, congrArg List.length h⟩

theorem tail_scopes_statements (inFunction : Bool) (w : Walk) : ∀ ss : List Stmt,
    (w.statements inFunction ss).scopes.tail = w.scopes.tail ∧
      (w.statements inFunction ss).scopes.length = w.scopes.length
  | [] => ⟨rfl, rfl⟩
  | s :: ss => by
    have h := tail_scopes_statement inFunction w s
    have h' := tail_scopes_statements inFunction (w.statement inFunction s) ss
    exact ⟨h'.1.trans h.1, h'.2.trans h.2⟩

end

theorem scopes_block (inFunction : Bool) (w : Walk) (body : List Stmt) :
    (w.statement inFunction (.block body)).scopes = w.scopes :=
  (tail_scopes_statements inFunction w.openScope body).1

theorem scopes_function (inFunction : Bool) (w : Walk) (name : Token) (params : List Token)
    (body : List Stmt) : (w.statement inFunction (.function name params body)).scopes =
      (w.enter name.lexeme true).scopes := by
  have h := (tail_scopes_statements true (w.enterBody name params) body).1
  rw [scopes_enterBody] at h
  exact h

theorem scopes_statement_of_isPlain (inFunction : Bool) (w : Walk) (s : Stmt) (hp : s.isPlain)
    (hd : s.declares = false) : (w.statement inFunction s).scopes = w.scopes := by
  match s with
  | .expression e | .print e => simp [statement]
  | .var .. | .function .. => cases hd
  | .block body => exact scopes_block inFunction w body
  | .branch condition consequent none =>
    simp only [Stmt.isPlain, Bool.and_eq_true, Bool.not_eq_true'] at hp
    rw [statement, scopes_statement_of_isPlain inFunction _ consequent hp.2 hp.1, scopes_expression]
  | .branch condition consequent (some alternative) =>
    simp only [Stmt.isPlain, Bool.and_eq_true, Bool.not_eq_true'] at hp
    rw [statement, scopes_statement_of_isPlain inFunction _ alternative hp.2.2 hp.2.1,
      scopes_statement_of_isPlain inFunction _ consequent hp.1.2 hp.1.1, scopes_expression]
  | .loop condition body =>
    simp only [Stmt.isPlain, Bool.and_eq_true, Bool.not_eq_true'] at hp
    rw [statement, scopes_statement_of_isPlain inFunction _ body hp.2 hp.1, scopes_expression]
  | .ret keyword none => exact scopes_enterReturn w inFunction keyword
  | .ret keyword (some value) =>
    change ((w.enterReturn inFunction keyword).expression value).scopes = _
    simp

end Walk
end Lox
