import Lox.Sink
import Lox.Store

/-! Runs: computations on the state of a session.
A computation has a value or an error, or it uses up its budget; in each case it leaves a state.
Runs are the computations on the state that programs act on. -/
namespace Lox

inductive Result (σ α : Type) where
  | done (a : α) (s : σ)
  | failed (e : RuntimeError) (s : σ)
  | unfinished (s : σ)

def Computation (σ α : Type) : Type := σ → Result σ α

namespace Computation

variable {σ α β : Type}

@[inline] protected def pure (a : α) : Computation σ α := fun s => .done a s

@[inline] protected def bind (x : Computation σ α) (f : α → Computation σ β) : Computation σ β :=
  fun s => match x s with
    | .done a s => f a s
    | .failed e s => .failed e s
    | .unfinished s => .unfinished s

instance : Monad (Computation σ) where
  pure := Computation.pure
  bind := Computation.bind

@[inline] def fail (e : RuntimeError) : Computation σ α := fun s => .failed e s

@[inline] def exhaust : Computation σ α := fun s => .unfinished s

@[inline] def ofExcept : Except RuntimeError α → Computation σ α
  | .ok a => pure a
  | .error e => fail e

theorem pure_apply (a : α) (s : σ) : (pure a : Computation σ α) s = .done a s := rfl

theorem bind_apply (x : Computation σ α) (f : α → Computation σ β) (s : σ) :
    (x >>= f) s = match x s with
      | .done a s => f a s
      | .failed e s => .failed e s
      | .unfinished s => .unfinished s := rfl

theorem bind_done {x : Computation σ α} {f : α → Computation σ β} {s t : σ} {a : α}
    (h : x s = .done a t) : (x >>= f) s = f a t := by
  rw [bind_apply, h]

theorem bind_failed {x : Computation σ α} {f : α → Computation σ β} {s t : σ} {e : RuntimeError}
    (h : x s = .failed e t) : (x >>= f) s = .failed e t := by
  rw [bind_apply, h]

theorem bind_unfinished {x : Computation σ α} {f : α → Computation σ β} {s t : σ}
    (h : x s = .unfinished t) : (x >>= f) s = .unfinished t := by
  rw [bind_apply, h]

theorem id_map' (x : Computation σ α) : id <$> x = x := by
  funext s
  change (match x s with | .done a s => _ | .failed e s => _ | .unfinished s => _) = _
  cases x s <;> rfl

theorem bind_assoc {γ : Type} (x : Computation σ α) (f : α → Computation σ β)
    (g : β → Computation σ γ) : x >>= f >>= g = x >>= fun a => f a >>= g := by
  funext s
  simp only [bind_apply]
  cases x s <;> rfl

instance : LawfulMonad (Computation σ) :=
  .mk' (Computation σ) id_map' (fun _ _ => rfl) bind_assoc

@[inline] def inspect (f : σ → α) : Computation σ α := fun s => .done (f s) s

end Computation

structure State where
  store : Store
  sink : Sink
  /-- Readings taken of the clock. -/
  ticks : Nat

abbrev Run : Type → Type := Computation State

namespace Run

def write (text : String) : Run Unit := fun s =>
  if s.sink.refuses text then .failed s.sink.error s
  else .done () { s with sink := s.sink.receive text }

/-- Ask something that may take readings of the clock. -/
def ticking {α : Type} (f : Nat → Except RuntimeError (α × Nat)) : Run α := fun s =>
  match f s.ticks with
  | .ok (a, ticks) => .done a { s with ticks }
  | .error e => .failed e s

def define (e : EnvironmentId) (name : String) (v : Value) : Run Unit := fun s =>
  .done () { s with store := s.store.define e name v }

def defineAll (e : EnvironmentId) (bs : List (String × Value)) : Run Unit := fun s =>
  .done () { s with store := s.store.defineAll e bs }

def read (e : EnvironmentId) (depth : Nat) (name : Token) : Run Value := fun s =>
  match s.store.read e depth name.lexeme name.line with
  | .ok v => .done v s
  | .error err => .failed err s

/-- Overwrite a name. The owner is found first, so that the store is updated in place. -/
def assign (e : EnvironmentId) (depth : Nat) (name : Token) (v : Value) : Run Unit := fun s =>
  match s.store.owner? e depth name.lexeme with
  | some a => .done () { s with store := s.store.define a name.lexeme v }
  | none => .failed (.fault name.line (.undefinedVariable name.lexeme)) s

theorem assign_apply (e : EnvironmentId) (depth : Nat) (name : Token) (v : Value) (s : State) :
    assign e depth name v s = match s.store.write e depth name.lexeme name.line v with
      | .ok store => .done () { s with store }
      | .error err => .failed err s := by
  unfold assign Store.write
  cases s.store.owner? e depth name.lexeme <;> rfl

def enter (enclosing : EnvironmentId) : Run EnvironmentId := fun s =>
  .done s.store.nextEnvironment { s with store := s.store.push (some enclosing) }

def allocate (f : Function) : Run FunctionId := fun s =>
  let (id, store) := s.store.allocate f
  .done id { s with store }

end Run
end Lox
