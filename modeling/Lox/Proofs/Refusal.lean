import Lox.Proofs.Watch.Lockstep

/-! What the resolution refuses, and what a run can take for granted after it.
A program is refused for its `return`s outside functions and for the local variables read in their
own initializers, in the order of the text (`resolve_faults`). Whatever is accepted never returns
from its top level. -/
namespace Lox

/-- What a use or a `return` can stand in. -/
inductive Around
  | block
  | function
  | initializer (name : String)
  deriving DecidableEq

def Around.isLocal (around : List Around) : Prop := .block ∈ around ∨ .function ∈ around

instance (around : List Around) : Decidable (Around.isLocal around) :=
  inferInstanceAs (Decidable (_ ∨ _))

/-- Whether a place is in the initializer of a local variable of the name. Lists of what a place
stands in begin with the innermost. -/
def Around.inInitializer (x : String) (around : List Around) : Prop :=
  Around.isLocal (around.dropWhile (· ≠ .initializer x))

instance (x : String) (around : List Around) : Decidable (Around.inInitializer x around) :=
  inferInstanceAs (Decidable (Around.isLocal _))

/-- The places of a program that can be refused. -/
inductive Spot
  | ret (around : List Around) (keyword : Token)
  | use (around : List Around) (name : Token)

mutual

def Expr.reads : Expr → List Token
  | .literal _ => []
  | .group inner => inner.reads
  | .unary _ operand => operand.reads
  | .binary left _ right | .logical left _ right => left.reads ++ right.reads
  | .use _ name => [name]
  | .assign _ _ value => value.reads
  | .call callee args _ => callee.reads ++ Expr.allReads args

def Expr.allReads : List Expr → List Token
  | [] => []
  | e :: es => e.reads ++ Expr.allReads es

end

def Expr.spots (around : List Around) (e : Expr) : List Spot := e.reads.map (.use around)

mutual

def Stmt.spots (around : List Around) : Stmt → List Spot
  | .expression e | .print e => e.spots around
  | .var _ none => []
  | .var name (some init) => init.spots (.initializer name.lexeme :: around)
  | .block body => Stmt.allSpots (.block :: around) body
  | .branch condition consequent none => condition.spots around ++ consequent.spots around
  | .branch condition consequent (some alternative) =>
    condition.spots around ++ (consequent.spots around ++ alternative.spots around)
  | .loop condition body => condition.spots around ++ body.spots around
  | .function _ _ body => Stmt.allSpots (.function :: around) body
  | .ret keyword none => [.ret around keyword]
  | .ret keyword (some value) => .ret around keyword :: value.spots around

def Stmt.allSpots (around : List Around) : List Stmt → List Spot
  | [] => []
  | s :: ss => s.spots around ++ Stmt.allSpots around ss

end

def Spot.fault? : Spot → Option SyntaxError
  | .ret around keyword =>
    if .function ∈ around then none else some (.atToken keyword .returnAtTopLevel)
  | .use around name =>
    if Around.inInitializer name.lexeme around then some (.atToken name .ownInitializer) else none

/-- What is wrong with a program, from its start to its end. -/
def Program.faults (p : Program) : List SyntaxError := (Stmt.allSpots [] p).filterMap Spot.fault?

namespace Around

variable {around : List Around} {x name : String}

theorem inInitializer_iff : inInitializer x around ↔
    ∃ inner outer, around = inner ++ .initializer x :: outer ∧ isLocal outer := by
  induction around with
  | nil => simp [inInitializer, isLocal]
  | cons a around ih =>
    by_cases ha : a = .initializer x
    · subst ha
      rw [inInitializer, List.dropWhile_cons_of_neg (by simp)]
      refine ⟨fun h => ⟨[], around, rfl, by simpa [isLocal] using h⟩, ?_⟩
      rintro ⟨inner, outer, h, hl⟩
      have hsuffix : outer <:+ .initializer x :: around := h ▸ ⟨inner ++ [.initializer x], by simp⟩
      exact hl.imp (hsuffix.subset ·) (hsuffix.subset ·)
    · rw [inInitializer, List.dropWhile_cons_of_pos (by simpa using ha)]
      refine ih.trans ⟨?_, ?_⟩
      · rintro ⟨inner, outer, rfl, hl⟩
        exact ⟨a :: inner, outer, rfl, hl⟩
      · rintro ⟨inner, outer, h, hl⟩
        cases inner with
        | nil => exact absurd (List.cons.inj h).1 ha
        | cons b inner => exact ⟨inner, outer, (List.cons.inj h).2, hl⟩

theorem not_inInitializer (h : ∀ y, .initializer y ∉ around) : ¬ inInitializer x around := by
  rw [inInitializer_iff]
  rintro ⟨inner, outer, rfl, -⟩
  exact h x (by simp)

theorem inInitializer_cons (h : ∀ y, .initializer y ∉ around) :
    inInitializer x (.initializer name :: around) ↔ x = name ∧ isLocal around := by
  by_cases hx : x = name
  · subst hx
    rw [inInitializer, List.dropWhile_cons_of_neg (by simp)]
    simp [isLocal]
  · rw [inInitializer, List.dropWhile_cons_of_pos (by simpa using fun hn => hx hn.symm)]
    exact ⟨fun hi => absurd hi (not_inInitializer h), fun hi => absurd hi.1 hx⟩

end Around

namespace Walk

/-- The walk refuses to read the names that it is in the initializers of. -/
def Refuses (w : Walk) (around : List Around) : Prop :=
  ∀ x, w.inOwnInitializer x = true ↔ Around.inInitializer x around

theorem Refuses.expression {w : Walk} {around : List Around} (h : w.Refuses around) (e : Expr) :
    (w.expression e).Refuses around := by
  intro x
  rw [inOwnInitializer_congr (scopes_expression w e)]
  exact h x

mutual

theorem errors_expression {w : Walk} {around : List Around} (h : w.Refuses around) : ∀ e : Expr,
    (w.expression e).errors = w.errors ++ (e.spots around).filterMap Spot.fault?
  | .literal _ => (List.append_nil _).symm
  | .group inner | .unary _ inner => errors_expression h inner
  | .binary left _ right | .logical left _ right => by
    rw [expression, errors_expression (h.expression left) right, errors_expression h left]
    simp [Expr.spots, Expr.reads]
  | .use id name => by
    rw [expression, errors_settle]
    by_cases hname : w.inOwnInitializer name.lexeme
    · simp [hname, record, Expr.spots, Expr.reads, Spot.fault?, (h name.lexeme).1 hname]
    · simp [hname, Expr.spots, Expr.reads, Spot.fault?, mt (h name.lexeme).2 hname]
  | .assign id name value => by
    rw [expression, errors_settle, errors_expression h value]
    rfl
  | .call callee args _ => by
    rw [expression, errors_expressions (h.expression callee) args, errors_expression h callee]
    simp [Expr.spots, Expr.reads]

theorem errors_expressions {w : Walk} {around : List Around} (h : w.Refuses around) :
    ∀ es : List Expr, (w.expressions es).errors =
      w.errors ++ ((Expr.allReads es).map (.use around)).filterMap Spot.fault?
  | [] => (List.append_nil _).symm
  | e :: es => by
    rw [expressions, errors_expressions (h.expression e) es, errors_expression h e]
    simp [Expr.spots, Expr.allReads]

end

variable {w v : Walk} {inFunction : Bool} {around : List Around}

/-- The walk knows as much of a place as its errors depend on. -/
structure Knows (w : Walk) (inFunction : Bool) (around : List Around) : Prop where
  ready : w.Ready
  noInitializer : ∀ x, .initializer x ∉ around
  isLocal_iff : w.scopes ≠ [] ↔ Around.isLocal around
  inFunction_iff : inFunction = true ↔ .function ∈ around

theorem Knows.congr (h : w.Knows inFunction around) (hv : v.Ready)
    (hs : v.scopes.length = w.scopes.length) : v.Knows inFunction around where
  ready := hv
  noInitializer := h.noInitializer
  isLocal_iff := by
    rw [← h.isLocal_iff, ← List.length_pos_iff, hs, List.length_pos_iff]
  inFunction_iff := h.inFunction_iff

theorem Knows.expression (h : w.Knows inFunction around) (e : Expr) :
    (w.expression e).Knows inFunction around :=
  h.congr (h.ready.congr (scopes_expression w e)) (congrArg List.length (scopes_expression w e))

theorem Knows.statement (h : w.Knows inFunction around) (s : Stmt) :
    (w.statement inFunction s).Knows inFunction around :=
  h.congr (h.ready.statement inFunction s) (tail_scopes_statement inFunction w s).2

theorem Knows.openScope (h : w.Knows inFunction around) :
    w.openScope.Knows inFunction (.block :: around) where
  ready := h.ready.openScope
  noInitializer x := by simpa using h.noInitializer x
  isLocal_iff := by simp [Walk.openScope, Around.isLocal]
  inFunction_iff := by simpa using h.inFunction_iff

theorem Knows.enterBody (h : w.Knows inFunction around) (name : Token) (params : List Token) :
    (w.enterBody name params).Knows true (.function :: around) where
  ready := (h.ready.enter name.lexeme).openBody params
  noInitializer x := by simpa using h.noInitializer x
  isLocal_iff := by simp [scopes_enterBody, Around.isLocal]
  inFunction_iff := by simp

/-- Outside initializers nothing that is read is refused. -/
theorem Knows.refuses (h : w.Knows inFunction around) : w.Refuses around := by
  intro x
  refine iff_of_false (fun hx => ?_) (Around.not_inInitializer h.noInitializer)
  unfold inOwnInitializer at hx
  split at hx
  · cases hx
  · next scope outer hs =>
    exact h.ready scope (by rw [hs]; exact List.mem_cons_self) x (eq_of_beq hx)

/-- In an initializer the name that it is for is refused, unless it is a global. -/
theorem Knows.refuses_enter (h : w.Knows inFunction around) (name : String) :
    (w.enter name false).Refuses (.initializer name :: around) := by
  intro x
  rw [Around.inInitializer_cons h.noInitializer, ← h.isLocal_iff, inOwnInitializer, scopes_enter]
  cases hw : w.scopes with
  | nil => simp
  | cons scope outer =>
    have hready := h.ready scope (by rw [hw]; exact List.mem_cons_self) x
    simp only [List.lookup_cons]
    by_cases hx : x = name
    · simp [hx]
    · simp [hx, beq_eq_false_iff_ne.2 hx, hready]

theorem Knows.errors_enterReturn (h : w.Knows inFunction around) (keyword : Token) :
    (w.enterReturn inFunction keyword).errors =
      w.errors ++ (Spot.ret around keyword).fault?.toList := by
  simp only [enterReturn, Spot.fault?, ← h.inFunction_iff]
  split <;> simp [record]

mutual

/-- A statement adds the errors of its places, in their order. -/
theorem errors_statement {w : Walk} {inFunction : Bool} {around : List Around}
    (h : w.Knows inFunction around) : ∀ s : Stmt,
    (w.statement inFunction s).errors = w.errors ++ (s.spots around).filterMap Spot.fault?
  | .expression e | .print e => errors_expression h.refuses e
  | .var name none => by simp [statement, Stmt.spots]
  | .var name (some init) => by
    simp only [statement, Stmt.spots, errors_enter]
    rw [errors_expression (h.refuses_enter name.lexeme) init, errors_enter]
  | .block body => errors_statements h.openScope body
  | .branch condition consequent none => by
    rw [statement, errors_statement (h.expression condition) consequent,
      errors_expression h.refuses condition]
    simp [Stmt.spots]
  | .branch condition consequent (some alternative) => by
    rw [statement, errors_statement ((h.expression condition).statement consequent) alternative,
      errors_statement (h.expression condition) consequent, errors_expression h.refuses condition]
    simp [Stmt.spots]
  | .loop condition body => by
    rw [statement, errors_statement (h.expression condition) body,
      errors_expression h.refuses condition]
    simp [Stmt.spots]
  | .function name params body => by
    have hw : (w.enterBody name params).errors = w.errors := by
      simp [enterBody, openBody, openScope]
    rw [Stmt.spots, ← hw]
    exact errors_statements (h.enterBody name params) body
  | .ret keyword none => by
    change (w.enterReturn inFunction keyword).errors = _
    rw [h.errors_enterReturn, Stmt.spots, List.filterMap_cons, List.filterMap_nil]
    cases (Spot.ret around keyword).fault? <;> rfl
  | .ret keyword (some value) => by
    have hv : (w.enterReturn inFunction keyword).Knows inFunction around :=
      h.congr (h.ready.congr (scopes_enterReturn w inFunction keyword))
        (congrArg List.length (scopes_enterReturn w inFunction keyword))
    change ((w.enterReturn inFunction keyword).expression value).errors = _
    rw [errors_expression hv.refuses value, h.errors_enterReturn, Stmt.spots, List.filterMap_cons]
    cases (Spot.ret around keyword).fault? <;> simp

theorem errors_statements {w : Walk} {inFunction : Bool} {around : List Around}
    (h : w.Knows inFunction around) : ∀ ss : List Stmt,
    (w.statements inFunction ss).errors =
      w.errors ++ (Stmt.allSpots around ss).filterMap Spot.fault?
  | [] => (List.append_nil _).symm
  | s :: ss => by
    rw [statements, errors_statements (h.statement s) ss, errors_statement h s]
    simp [Stmt.allSpots]

end

end Walk

theorem errors_initial (p : Program) : (Walk.initial.statements false p).errors = p.faults := by
  have h : Walk.initial.Knows false [] :=
    ⟨nofun, by simp, by simp [Walk.initial, Around.isLocal], by simp⟩
  exact Walk.errors_statements h p

theorem resolve_eq_error_iff {p : Program} {es : List SyntaxError} :
    resolve p = .error es ↔ p.faults = es ∧ es ≠ [] := by
  unfold resolve
  simp only [errors_initial, List.isEmpty_iff]
  split
  · next h => simp [h, eq_comm]
  · next h =>
    rw [Except.error.injEq, iff_self_and]
    rintro rfl
    exact h

theorem exists_resolve_iff {p : Program} : (∃ r, resolve p = .ok r) ↔ p.faults = [] := by
  unfold resolve
  simp only [errors_initial, List.isEmpty_iff]
  split
  · next h => simp [h]
  · next h => simp [h]

/-! ### Execution -/

namespace Run

def Continues (x : Run Flow) : Prop := ∀ s flow t, x s = .done flow t → flow = .next

theorem Continues.next : Continues (pure .next) := by
  rintro s flow t h
  cases h
  rfl

theorem Continues.bind {α : Type} {x : Run α} {f : α → Run Flow} (hf : ∀ a, (f a).Continues) :
    (x >>= f).Continues := by
  intro s flow t h
  rw [Computation.bind_apply] at h
  cases hx : x s with
  | done a u => exact hf a u flow t (by rwa [hx] at h)
  | failed e u => simp [hx] at h
  | unfinished u => simp [hx] at h

theorem Continues.andThen {x : Run Flow} {f : Flow → Run Flow} (hx : x.Continues)
    (hf : (f .next).Continues) : (x >>= f).Continues := by
  intro s flow t h
  rw [Computation.bind_apply] at h
  cases hs : x s with
  | done r u =>
    obtain rfl := hx s r u hs
    exact hf u flow t (by rwa [hs] at h)
  | failed e u => simp [hs] at h
  | unfinished u => simp [hs] at h

theorem Continues.repeatWhile (condition : Run Value) {body : Run Flow} (hb : body.Continues) :
    ∀ n, Continues (repeatWhile condition body n)
  | 0 => nofun
  | n + 1 => by
    rw [Computation.repeatWhile_succ]
    refine .bind fun v => ?_
    split
    · exact hb.andThen (Continues.repeatWhile condition hb n)
    · exact .next

end Run

def Spot.NoneReturns (spots : List Spot) : Prop :=
  ∀ around keyword, .ret around keyword ∈ spots → .function ∈ around

theorem Spot.NoneReturns.append {spots spots' : List Spot} :
    NoneReturns (spots ++ spots') ↔ NoneReturns spots ∧ NoneReturns spots' := by
  simp only [NoneReturns, List.mem_append, or_imp, forall_and]

theorem noneReturns_of_faults {p : Program} (h : p.faults = []) :
    Spot.NoneReturns (Stmt.allSpots [] p) := by
  intro around keyword hs
  have hf := List.filterMap_eq_nil_iff.1 h _ hs
  simpa [Spot.fault?] using hf

theorem noneReturns_of_mem {s : Stmt} {around : List Around} {ss : List Stmt} (hs : s ∈ ss)
    (h : Spot.NoneReturns (Stmt.allSpots around ss)) : Spot.NoneReturns (s.spots around) := by
  induction ss with
  | nil => cases hs
  | cons s' ss ih =>
    rw [Stmt.allSpots, Spot.NoneReturns.append] at h
    rcases List.mem_cons.1 hs with rfl | hs
    · exact h.1
    · exact ih hs h.2

section

variable {σ : Setting} {caller : Caller} {rounds : Nat}

mutual

/-- Only a `return` of its own makes a statement return: those of functions that it declares do not
run, and those of functions that it calls end with the calls. -/
theorem execute_continues {around : List Around} (hf : .function ∉ around) (env : EnvironmentId) :
    ∀ s : Stmt, Spot.NoneReturns (s.spots around) → (execute σ caller rounds env s).Continues
  | .expression _, _ => .bind fun _ => .next
  | .print _, _ => .bind fun _ => .bind fun _ => .bind fun _ => .bind fun _ => .next
  | .var _ none, _ => .bind fun _ => .next
  | .var _ (some _), _ => .bind fun _ => .bind fun _ => .next
  | .block body, h => .bind fun inner =>
    have hf' : .function ∉ .block :: around := by simpa using hf
    executeAll_continues hf' inner body h
  | .branch condition consequent none, h => .bind fun v => by
    split
    · exact execute_continues hf env consequent (Spot.NoneReturns.append.1 h).2
    · exact .next
  | .branch condition consequent (some alternative), h => .bind fun v => by
    obtain ⟨-, h⟩ := Spot.NoneReturns.append.1 h
    obtain ⟨hc, ha⟩ := Spot.NoneReturns.append.1 h
    split
    · exact execute_continues hf env consequent hc
    · exact execute_continues hf env alternative ha
  | .loop condition body, h =>
    .repeatWhile _ (execute_continues hf env body (Spot.NoneReturns.append.1 h).2) rounds
  | .function .., _ => .bind fun _ => .bind fun _ => .next
  | .ret keyword none, h | .ret keyword (some _), h =>
    absurd (h around keyword List.mem_cons_self) hf

theorem executeAll_continues {around : List Around} (hf : .function ∉ around)
    (env : EnvironmentId) : ∀ ss : List Stmt, Spot.NoneReturns (Stmt.allSpots around ss) →
      (executeAll σ caller rounds env ss).Continues
  | [], _ => .next
  | s :: ss, h => by
    obtain ⟨hs, hss⟩ := Spot.NoneReturns.append.1 h
    exact (execute_continues hf env s hs).andThen (executeAll_continues hf env ss hss)

end

end

/-- A program whose statements do not return runs as the body of a function does. -/
theorem runProgram_eq_executeAll {σ : Setting} {budget : Nat} {p : Program}
    (h : ∀ s ∈ p, (execute σ (call σ budget) budget globals s).Continues) :
    runProgram σ budget p =
      executeAll σ (call σ budget) budget globals p >>= fun _ => pure () := by
  induction p with
  | nil => rfl
  | cons s p ih =>
    funext st
    rw [runProgram, executeAll, bind_assoc, Computation.bind_apply, Computation.bind_apply]
    cases hs : execute σ (call σ budget) budget globals s st with
    | done flow t =>
      obtain rfl := h s List.mem_cons_self st flow t hs
      exact congrFun (ih fun s' hs' => h s' (List.mem_cons_of_mem s hs')) t
    | failed e t => rfl
    | unfinished t => rfl

/-- Every program is refused for exactly its faults, and what is not refused has no `return` that a
run of it could drop. -/
theorem resolve_faults (p : Program) :
    (∀ es, resolve p = .error es ↔ p.faults = es ∧ es ≠ []) ∧
    ((∃ r, resolve p = .ok r) ↔ p.faults = []) ∧
    ∀ r, resolve p = .ok r → ∀ σ : Setting,
      (∀ s ∈ p, ∀ caller rounds env, (execute σ caller rounds env s).Continues) ∧
      ∀ budget, runProgram σ budget p =
        executeAll σ (call σ budget) budget globals p >>= fun _ => pure () := by
  refine ⟨fun es => resolve_eq_error_iff, exists_resolve_iff, fun r hr σ => ?_⟩
  have hp := noneReturns_of_faults (exists_resolve_iff.1 ⟨r, hr⟩)
  have hs : ∀ s ∈ p, ∀ caller rounds env, (execute σ caller rounds env s).Continues :=
    fun s hs caller rounds env =>
      execute_continues List.not_mem_nil env s (noneReturns_of_mem hs hp)
  exact ⟨hs, fun budget => runProgram_eq_executeAll fun s h => hs s h _ _ _⟩

namespace Refusal

private def name (text : String) : Token := ⟨.identifier, text, none, 1⟩

private def word (line : UInt32) : Token := ⟨.returnWord, "return", none, line⟩

/-- `var a = a; { return a; var a = a; fun f(b) { var b = a + b; return b; } } return;` -/
def faulty : Program :=
  [.var (name "a") (some (.use 0 (name "a"))),
    .block [.ret (word 1) (some (.use 1 (name "a"))), .var (name "a") (some (.use 2 (name "a"))),
      .function (name "f") [name "b"]
        [.var (name "b") (some (.binary (.use 3 (name "a")) (name "+") (.use 4 (name "b")))),
          .ret (word 2) (some (.use 5 (name "b")))]],
    .ret (word 3) none]

/-- `if (true) { fun f() { while (true) return; } f(); }` -/
def sound : Program :=
  [.branch (.literal (.bool true)) (.block
    [.function (name "f") [] [.loop (.literal (.bool true)) (.ret (word 1) none)],
      .expression (.call (.use 0 (name "f")) [] (name ")"))]) none]

theorem resolve_faults_nested :
    (resolve faulty = .error
      [.atToken (word 1) .returnAtTopLevel, .atToken (name "a") .ownInitializer,
        .atToken (name "b") .ownInitializer, .atToken (word 3) .returnAtTopLevel]) ∧
    ∃ r, resolve sound = .ok r ∧ ∀ σ : Setting, ∀ s ∈ sound, ∀ caller rounds env,
      (execute σ caller rounds env s).Continues := by
  refine ⟨((resolve_faults faulty).1 _).2 ⟨by decide, by decide⟩, ?_⟩
  obtain ⟨r, hr⟩ := (resolve_faults sound).2.1.2 (by decide)
  exact ⟨r, hr, fun σ => ((resolve_faults sound).2.2 r hr σ).1⟩

end Refusal
end Lox
