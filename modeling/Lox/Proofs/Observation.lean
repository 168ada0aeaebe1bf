import Lox.Proofs.Growth

/-! Observed runs.
An observer takes notes on a run: on the expressions and statements that it enters, on the assignments
that it is about to make, and on operations that are at fault. It knows something at each place of the
program, and keeps with a function object what it has to know at the places of the body. An observer is
plain data and cannot interfere: an observed run does what a run does (`Observer.runProgram_erases`). -/
namespace Lox

namespace Result

variable {σ τ υ α : Type}

def map (f : σ → τ) : Result σ α → Result τ α
  | .done a s => .done a (f s)
  | .failed e s => .failed e (f s)
  | .unfinished s => .unfinished (f s)

theorem state_map (f : σ → τ) (x : Result σ α) : (x.map f).state = f x.state := by cases x <;> rfl

theorem map_map (f : σ → τ) (g : τ → υ) (x : Result σ α) : (x.map f).map g = x.map fun s => g (f s) := by
  cases x <;> rfl

theorem map_id (x : Result σ α) : (x.map fun s => s) = x := by cases x <;> rfl

theorem map_congr {f g : σ → τ} {x : Result σ α} (h : f x.state = g x.state) : x.map f = x.map g := by
  cases x with
  | done a s => exact congrArg (Result.done a) h
  | failed e s => exact congrArg (Result.failed e) h
  | unfinished s => exact congrArg Result.unfinished h

end Result

structure Observed (K N : Type) where
  state : State
  /-- What is kept with each function object. -/
  kept : FunctionId → K
  notes : N

/-- What is known at the expressions of a program (`E`) and at its statements (`S`), what is kept with
functions (`K`), and what is noted (`N`). -/
structure Observer (E S K N : Type) where
  /-- Notes on an expression that is entered in an environment. -/
  expression : E → EnvironmentId → Expr → Store → N → N
  /-- Notes on an assignment, when its value has been evaluated. -/
  write : E → EnvironmentId → UseId → Token → Store → N → N
  /-- Notes on an expression whose operation is at fault on these operands. -/
  fault : E → Expr → List Value → N → N
  /-- Notes on a statement that is entered in an environment. -/
  statement : S → EnvironmentId → Stmt → Store → N → N
  behind : E → Expr → E
  /-- At an expression that a statement starts with. -/
  operand : S → E
  initializer : S → Token → E
  returned : S → Token → E
  block : S → S
  behindCondition : S → Expr → S
  behindStatement : S → Stmt → S
  /-- What is kept with a function of this name that is declared here. -/
  function : S → Token → K
  /-- At the body of a function with these parameters. -/
  body : K → List Token → S

namespace Observer

variable {E S K N α β : Type}

def lift (x : Run α) : Computation (Observed K N) α := fun s =>
  (x s.state).map fun state => { s with state }

def note (f : Store → N → N) : Computation (Observed K N) Unit := fun s =>
  .done () { s with notes := f s.state.store s.notes }

def keep (f : FunctionId) (k : K) : Computation (Observed K N) Unit := fun s =>
  .done () { s with kept := fun g => if g = f then k else s.kept g }

/-- Take a note if the program is at fault, but not if the sink refuses a text. -/
def onFault (f : N → N) (x : Computation (Observed K N) α) : Computation (Observed K N) α := fun s =>
  match x s with
  | .done a t => .done a t
  | .failed (.fault line cause) t => .failed (.fault line cause) { t with notes := f t.notes }
  | .failed (@RuntimeError.output words) t => .failed (@RuntimeError.output words) t
  | .unfinished t => .unfinished t

theorem onFault_id (x : Computation (Observed K N) α) : onFault (fun notes => notes) x = x := by
  funext s
  unfold onFault
  cases x s with
  | done a t => rfl
  | failed e t => cases e <;> rfl
  | unfinished t => rfl

section

variable (O : Observer E S K N) (σ : Setting)
  (call : Value → List Value → UInt32 → Computation (Observed K N) Value)

mutual

def evaluate (place : E) (env : EnvironmentId) (e : Expr) : Computation (Observed K N) Value := do
  note (O.expression place env e)
  match e with
  | .literal value => pure (.ofLiteral value)
  | .group inner => evaluate place env inner
  | .unary op operand =>
    let v ← evaluate place env operand
    onFault (O.fault place (.unary op operand) [v]) (.ofExcept (unaryOperation op v))
  | .binary left op right =>
    let l ← evaluate place env left
    let r ← evaluate (O.behind place left) env right
    onFault (O.fault place (.binary left op right) [l, r]) (.ofExcept (binaryOperation op l r))
  | .logical left op right =>
    let l ← evaluate place env left
    if decides op l then pure l else evaluate (O.behind place left) env right
  | .use id name =>
    onFault (O.fault place (.use id name) [])
      (lift (.read (σ.locate env id).1 (σ.locate env id).2 name))
  | .assign id name value =>
    let v ← evaluate place env value
    note (O.write (O.behind place value) env id name)
    onFault (O.fault place (.assign id name value) [v])
      (lift (.assign (σ.locate env id).1 (σ.locate env id).2 name v))
    pure v
  | .call callee args paren =>
    let f ← evaluate place env callee
    let vs ← evaluateAll (O.behind place callee) env args
    onFault (O.fault place (.call callee args paren) (f :: vs)) (call f vs paren.line)

def evaluateAll (place : E) (env : EnvironmentId) :
    List Expr → Computation (Observed K N) (List Value)
  | [] => pure []
  | e :: es => do
    let v ← evaluate place env e
    let vs ← evaluateAll (O.behind place e) env es
    pure (v :: vs)

end

variable (rounds : Nat)

mutual

def execute (place : S) (env : EnvironmentId) (s : Stmt) : Computation (Observed K N) Flow := do
  note (O.statement place env s)
  match s with
  | .expression e =>
    let _ ← O.evaluate σ call (O.operand place) env e
    pure .next
  | .print e =>
    let v ← O.evaluate σ call (O.operand place) env e
    let text ← Computation.inspect (·.state.store.text v)
    lift (.write text)
    lift (.write "\n")
    pure .next
  | .var name none =>
    lift (.define env name.lexeme .nil)
    pure .next
  | .var name (some init) =>
    let v ← O.evaluate σ call (O.initializer place name) env init
    lift (.define env name.lexeme v)
    pure .next
  | .block body =>
    let inner ← lift (.enter env)
    executeAll (O.block place) inner body
  | .branch condition consequent none =>
    let v ← O.evaluate σ call (O.operand place) env condition
    if v.isTruthy then execute (O.behindCondition place condition) env consequent else pure .next
  | .branch condition consequent (some alternative) =>
    let v ← O.evaluate σ call (O.operand place) env condition
    if v.isTruthy then execute (O.behindCondition place condition) env consequent
    else
      execute (O.behindStatement (O.behindCondition place condition) consequent) env alternative
  | .loop condition body =>
    repeatWhile (O.evaluate σ call (O.operand place) env condition)
      (execute (O.behindCondition place condition) env body) rounds
  | .function name params body =>
    let f ← lift (.allocate (.declared name params body env))
    keep f (O.function place name)
    lift (.define env name.lexeme (.function f))
    pure .next
  | .ret _ none => pure (.returned .nil)
  | .ret keyword (some value) =>
    let v ← O.evaluate σ call (O.returned place keyword) env value
    pure (.returned v)

def executeAll (place : S) (env : EnvironmentId) : List Stmt → Computation (Observed K N) Flow
  | [] => pure .next
  | s :: ss => do
    match ← execute place env s with
    | .next => executeAll (O.behindStatement place s) env ss
    | .returned v => pure (.returned v)

end

end

/-- Calls nested at most so deep. What is kept with a function tells what is known in its body. -/
def call (O : Observer E S K N) (σ : Setting) :
    Nat → Value → List Value → UInt32 → Computation (Observed K N) Value
  | 0, _, _, _ => .exhaust
  | depth + 1, .function f, args, line => do
    match ← Computation.inspect (·.state.store.function? f) with
    | none => .fail (.fault line .notCallable)
    | some g =>
      if args.length ≠ g.arity then .fail (.fault line (.arity g.arity args.length))
      else match g with
        | .native _ _ builtin => lift (.ticking fun ticks => builtin.answer σ.clock line ticks args)
        | .declared _ params body closure => do
          let k ← Computation.inspect (·.kept f)
          let env ← lift (.enter closure)
          lift (.defineAll env ((params.map Token.lexeme).zip args))
          match ← O.executeAll σ (call O σ depth) depth (O.body k params) env body with
          | .next => pure .nil
          | .returned v => pure v
  | _ + 1, _, _, line => .fail (.fault line .notCallable)

def runProgram (O : Observer E S K N) (σ : Setting) (budget : Nat) (place : S) :
    Program → Computation (Observed K N) Unit
  | [] => pure ()
  | s :: ss => do
    let _ ← O.execute σ (O.call σ budget) budget place globals s
    runProgram O σ budget (O.behindStatement place s) ss

def Erases (x : Computation (Observed K N) α) (y : Run α) : Prop :=
  ∀ s, (x s).map Observed.state = y s.state

namespace Erases

theorem pure (a : α) : Erases (Pure.pure a : Computation (Observed K N) α) (Pure.pure a) :=
  fun _ => rfl

theorem fail (e : RuntimeError) : Erases (.fail e : Computation (Observed K N) α) (.fail e) :=
  fun _ => rfl

theorem ofExcept (x : Except RuntimeError α) :
    Erases (.ofExcept x : Computation (Observed K N) α) (.ofExcept x) := by
  cases x <;> exact fun _ => rfl

theorem inspect (f : State → α) :
    Erases (.inspect fun s => f s.state : Computation (Observed K N) α) (.inspect f) :=
  fun _ => rfl

theorem lift (x : Run α) : Erases (lift x : Computation (Observed K N) α) x := fun _ =>
  (Result.map_map ..).trans (Result.map_id _)

variable {x : Computation (Observed K N) α} {y : Run α}

theorem bind {f : α → Computation (Observed K N) β} {g : α → Run β} (hx : Erases x y)
    (hf : ∀ a, Erases (f a) (g a)) : Erases (x >>= f) (y >>= g) := by
  intro s
  have h := hx s
  rw [Computation.bind_apply, Computation.bind_apply, ← h]
  cases x s with
  | done a t => exact hf a t
  | failed e t => rfl
  | unfinished t => rfl

theorem state_eq (hx : Erases x y) (s : Observed K N) : (x s).state.state = (y s.state).state := by
  rw [← hx s, Result.state_map]

theorem note {f : Store → N → N} (hx : Erases x y) : Erases (note f >>= fun _ => x) y :=
  fun _ => hx _

theorem keep {f : FunctionId} {k : K} (hx : Erases x y) : Erases (keep f k >>= fun _ => x) y :=
  fun _ => hx _

theorem onFault {f : N → N} (hx : Erases x y) : Erases (onFault f x) y := by
  intro s
  rw [← hx s]
  unfold Observer.onFault
  cases x s with
  | done a t => rfl
  | failed e t => cases e <;> rfl
  | unfinished t => rfl

theorem look {h : Observed K N → β} {f : β → Computation (Observed K N) α}
    (hf : ∀ b, Erases (f b) y) : Erases (.inspect h >>= f) y :=
  fun s => hf (h s) s

theorem repeatWhile {c : Computation (Observed K N) Value} {c' : Run Value}
    {b : Computation (Observed K N) Flow} {b' : Run Flow} (hc : Erases c c') (hb : Erases b b')
    (n : Nat) : Erases (repeatWhile c b n) (repeatWhile c' b' n) := by
  induction n with
  | zero => exact fun _ => rfl
  | succ n ih =>
    rw [Computation.repeatWhile_succ, Computation.repeatWhile_succ]
    refine hc.bind fun v => ?_
    split
    · refine hb.bind fun flow => ?_
      cases flow with
      | next => exact ih
      | returned v => exact .pure _
    · exact .pure _

end Erases

section

variable {O : Observer E S K N} {σ : Setting} {rounds : Nat} {call' : Caller}
  {call : Value → List Value → UInt32 → Computation (Observed K N) Value}

mutual

theorem evaluate_erases (hcall : ∀ f args line, Erases (call f args line) (call' f args line))
    (env : EnvironmentId) : ∀ (e : Expr) (place : E),
    Erases (O.evaluate σ call place env e) (Lox.evaluate σ call' env e)
  | .literal _, _ => .note (.pure _)
  | .group inner, place => .note (evaluate_erases hcall env inner place)
  | .unary _ operand, place => .note ((evaluate_erases hcall env operand place).bind fun _ =>
    .onFault (.ofExcept _))
  | .binary left _ right, place => .note ((evaluate_erases hcall env left place).bind fun _ =>
    (evaluate_erases hcall env right _).bind fun _ => .onFault (.ofExcept _))
  | .logical left op right, place => .note ((evaluate_erases hcall env left place).bind fun l => by
    split
    · exact .pure l
    · exact evaluate_erases hcall env right _)
  | .use _ _, _ => .note (.onFault (.lift _))
  | .assign _ _ value, place => .note ((evaluate_erases hcall env value place).bind fun v =>
    .note ((Erases.onFault (.lift _)).bind fun _ => .pure v))
  | .call callee args paren, place => .note ((evaluate_erases hcall env callee place).bind fun f =>
    (evaluateAll_erases hcall env args _).bind fun vs => .onFault (hcall f vs paren.line))

theorem evaluateAll_erases (hcall : ∀ f args line, Erases (call f args line) (call' f args line))
    (env : EnvironmentId) : ∀ (es : List Expr) (place : E),
    Erases (O.evaluateAll σ call place env es) (Lox.evaluateAll σ call' env es)
  | [], _ => .pure _
  | e :: es, place => (evaluate_erases hcall env e place).bind fun _ =>
    (evaluateAll_erases hcall env es _).bind fun _ => .pure _

end

mutual

theorem execute_erases (hcall : ∀ f args line, Erases (call f args line) (call' f args line)) :
    ∀ (s : Stmt) (place : S) (env : EnvironmentId),
      Erases (O.execute σ call rounds place env s) (Lox.execute σ call' rounds env s)
  | .expression e, _, env => .note ((evaluate_erases hcall env e _).bind fun _ => .pure _)
  | .print e, _, env => .note ((evaluate_erases hcall env e _).bind fun v =>
    (Erases.inspect (·.store.text v)).bind fun text =>
      (Erases.lift (.write text)).bind fun _ => (Erases.lift (.write "\n")).bind fun _ => .pure _)
  | .var name none, _, _ => .note ((Erases.lift _).bind fun _ => .pure _)
  | .var name (some init), _, env => .note ((evaluate_erases hcall env init _).bind fun _ =>
    (Erases.lift _).bind fun _ => .pure _)
  | .block body, _, env => .note ((Erases.lift (.enter env)).bind fun inner =>
    executeAll_erases hcall body _ inner)
  | .branch condition consequent none, _, env =>
    .note ((evaluate_erases hcall env condition _).bind fun v => by
      split
      · exact execute_erases hcall consequent _ env
      · exact .pure _)
  | .branch condition consequent (some alternative), _, env =>
    .note ((evaluate_erases hcall env condition _).bind fun v => by
      split
      · exact execute_erases hcall consequent _ env
      · exact execute_erases hcall alternative _ env)
  | .loop condition body, _, env =>
    .note (.repeatWhile (evaluate_erases hcall env condition _) (execute_erases hcall body _ env)
      rounds)
  | .function name params body, _, _ => .note ((Erases.lift _).bind fun f =>
    .keep ((Erases.lift _).bind fun _ => .pure _))
  | .ret _ none, _, _ => .note (.pure _)
  | .ret _ (some value), _, env => .note ((evaluate_erases hcall env value _).bind fun _ => .pure _)

theorem executeAll_erases (hcall : ∀ f args line, Erases (call f args line) (call' f args line)) :
    ∀ (ss : List Stmt) (place : S) (env : EnvironmentId),
      Erases (O.executeAll σ call rounds place env ss) (Lox.executeAll σ call' rounds env ss)
  | [], _, _ => .pure _
  | s :: ss, place, env => (execute_erases hcall s place env).bind fun flow => by
    cases flow with
    | next => exact executeAll_erases hcall ss _ env
    | returned v => exact .pure _

end

end

section

variable (O : Observer E S K N) (σ : Setting)

theorem call_erases (depth : Nat) :
    ∀ f args line, Erases (O.call σ depth f args line) (Lox.call σ depth f args line) := by
  induction depth with
  | zero => exact fun _ _ _ _ => rfl
  | succ depth ih =>
    intro f args line
    cases f with
    | nil | bool | number | string => exact .fail _
    | function f =>
      refine (Erases.inspect (·.store.function? f)).bind fun g => ?_
      cases g with
      | none => exact .fail _
      | some g =>
        dsimp only
        split
        · exact .fail _
        cases g with
        | native name arity builtin => exact .lift _
        | declared name params body closure =>
          refine Erases.look fun k => (Erases.lift (.enter closure)).bind fun env => ?_
          refine (Erases.lift (.defineAll env _)).bind fun _ => ?_
          refine (executeAll_erases ih body _ env).bind fun flow => ?_
          cases flow <;> exact .pure _

/-- Whatever is noted, the program is run as it is unobserved. -/
theorem runProgram_erases (budget : Nat) : ∀ (p : Program) (place : S),
    Erases (O.runProgram σ budget place p) (Lox.runProgram σ budget p)
  | [], _ => .pure _
  | s :: ss, place => (execute_erases (call_erases O σ budget) s place globals).bind fun _ =>
    runProgram_erases budget ss _

end

end Observer
end Lox
