import Lox.Proofs.Observation
import Lox.Proofs.Settled
import Lox.Session

/-! Watched runs.
A watched run carries along the state that the resolver's walk has at each place of the program. It
notes every expression and statement that it enters and every assignment that it is about to make,
with that walk, the environment and the store. -/
namespace Lox
namespace Watch

inductive Site
  | expression (e : Expr)
  | statement (s : Stmt)
  /-- An assignment, when its value has been evaluated. -/
  | write (id : UseId) (name : Token)

structure Visit where
  site : Site
  /-- The walk of the resolver when it comes to the same place. -/
  walk : Walk
  resolution : Resolution
  env : EnvironmentId
  store : Store

/-- For each declared function the walk around its parameters and body is kept, and the visits are noted,
the latest first. -/
abbrev Watched : Type := Observed Walk (List Visit)

abbrev Watched.visits (s : Watched) : List Visit := s.notes

abbrev Watched.around (s : Watched) : FunctionId → Walk := s.kept

abbrev Run : Type → Type := Computation Watched

abbrev note (r : Resolution) (w : Walk) (env : EnvironmentId) (site : Site) : Run Unit :=
  Observer.note fun store visits => ⟨site, w, r, env, store⟩ :: visits

/-- Notes visits. An expression is known by the walk there, and a statement also by whether it stands in a
function. -/
def observer (r : Resolution) : Observer Walk (Bool × Walk) Walk (List Visit) where
  expression w env e store visits := ⟨.expression e, w, r, env, store⟩ :: visits
  write w env id name store visits := ⟨.write id name, w, r, env, store⟩ :: visits
  fault _ _ _ visits := visits
  statement | (_, w), env, s, store, visits => ⟨.statement s, w, r, env, store⟩ :: visits
  behind := Walk.expression
  operand | (_, w) => w
  initializer | (_, w), name => w.enter name.lexeme false
  returned | (inFunction, w), keyword => w.enterReturn inFunction keyword
  block | (inFunction, w) => (inFunction, w.openScope)
  behindCondition | (inFunction, w), e => (inFunction, w.expression e)
  behindStatement | (inFunction, w), s => (inFunction, w.statement inFunction s)
  function | (_, w), name => w.enter name.lexeme true
  body w params := (true, w.openBody params)

section

variable (σ : Setting) (call : Value → List Value → UInt32 → Run Value)

abbrev evaluate (w : Walk) (env : EnvironmentId) (e : Expr) : Run Value :=
  (observer σ.resolution).evaluate σ call w env e

abbrev evaluateAll (w : Walk) (env : EnvironmentId) (es : List Expr) : Run (List Value) :=
  (observer σ.resolution).evaluateAll σ call w env es

variable (rounds : Nat)

abbrev execute (inFunction : Bool) (w : Walk) (env : EnvironmentId) (s : Stmt) : Run Flow :=
  (observer σ.resolution).execute σ call rounds (inFunction, w) env s

abbrev executeAll (inFunction : Bool) (w : Walk) (env : EnvironmentId) (ss : List Stmt) : Run Flow :=
  (observer σ.resolution).executeAll σ call rounds (inFunction, w) env ss

end

abbrev call (σ : Setting) (depth : Nat) : Value → List Value → UInt32 → Run Value :=
  (observer σ.resolution).call σ depth

abbrev runProgram (σ : Setting) (budget : Nat) (w : Walk) (p : Program) : Run Unit :=
  (observer σ.resolution).runProgram σ budget (false, w) p

end Watch
end Lox
