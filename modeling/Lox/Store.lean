import Lox.Diagnostic
import Lox.Value

/-! The store: environments and function objects.
Environments are numbered as they are made and form a forest by their enclosing links. Each binds
names to values; a name is read and written at a stated number of links up the chain. -/
namespace Lox

abbrev Bindings := List (String × Value)

namespace Bindings

def get? : Bindings → String → Option Value
  | [], _ => none
  | (n, u) :: b, name => if n = name then some u else get? b name

def set : Bindings → String → Value → Bindings
  | [], name, v => [(name, v)]
  | (n, u) :: b, name, v => if n = name then (n, v) :: b else (n, u) :: set b name v

@[simp] theorem get?_nil (name : String) : get? [] name = none := rfl

theorem get?_cons (n : String) (u : Value) (b : Bindings) (name : String) :
    get? ((n, u) :: b) name = if n = name then some u else get? b name := rfl

theorem get?_set (b : Bindings) (n name : String) (v : Value) :
    (b.set n v).get? name = if n = name then some v else b.get? name := by
  induction b with
  | nil => simp [set, get?_cons]
  | cons p b ih =>
    obtain ⟨m, u⟩ := p
    unfold set
    split
    · next h =>
      subst h
      simp only [get?_cons]
      split <;> rfl
    · next h =>
      simp only [get?_cons, ih]
      split <;> split <;> simp_all

end Bindings

structure Environment where
  enclosing : Option EnvironmentId
  bindings : Bindings

structure Store where
  environments : Array Environment
  functions : Array Function

namespace Store

def empty : Store := ⟨#[], #[]⟩

def nextEnvironment (s : Store) : EnvironmentId := s.environments.size

def push (s : Store) (enclosing : Option EnvironmentId) : Store :=
  { s with environments := s.environments.push ⟨enclosing, []⟩ }

def allocate (s : Store) (f : Function) : FunctionId × Store :=
  (s.functions.size, { s with functions := s.functions.push f })

def function? (s : Store) (f : FunctionId) : Option Function := s.functions[f]?

def enclosing? (s : Store) (e : EnvironmentId) : Option EnvironmentId :=
  s.environments[e]?.bind Environment.enclosing

/-- The environment so many links up the chain. -/
def ancestor? (s : Store) (e : EnvironmentId) : Nat → Option EnvironmentId
  | 0 => some e
  | d + 1 => (s.enclosing? e).bind fun e' => s.ancestor? e' d

/-- The value of a name in this environment itself. -/
def binding? (s : Store) (e : EnvironmentId) (name : String) : Option Value :=
  s.environments[e]?.bind fun env => env.bindings.get? name

def define (s : Store) (e : EnvironmentId) (name : String) (v : Value) : Store :=
  { s with environments :=
      s.environments.modify e fun env => { env with bindings := env.bindings.set name v } }

@[simp] theorem nextEnvironment_push (s : Store) (p : Option EnvironmentId) :
    (s.push p).nextEnvironment = s.nextEnvironment + 1 := by
  simp [push, nextEnvironment]

theorem enclosing?_push (s : Store) (p : Option EnvironmentId) (e : EnvironmentId) :
    (s.push p).enclosing? e = if e = s.nextEnvironment then p else s.enclosing? e := by
  unfold enclosing? push nextEnvironment
  rw [Array.getElem?_push]
  split <;> rfl

@[simp] theorem binding?_push (s : Store) (p : Option EnvironmentId) (e : EnvironmentId)
    (name : String) : (s.push p).binding? e name = s.binding? e name := by
  unfold binding? push
  rw [Array.getElem?_push]
  split
  · next h => simp [h]
  · rfl

@[simp] theorem enclosing?_define (s : Store) (e e' : EnvironmentId) (name : String) (v : Value) :
    (s.define e name v).enclosing? e' = s.enclosing? e' := by
  unfold enclosing? define
  rw [Array.getElem?_modify]
  split <;> cases s.environments[e']? <;> rfl

@[simp] theorem nextEnvironment_define (s : Store) (e : EnvironmentId) (name : String)
    (v : Value) : (s.define e name v).nextEnvironment = s.nextEnvironment := by
  simp [define, nextEnvironment]

theorem binding?_define (s : Store) (e e' : EnvironmentId) (n name : String) (v : Value) :
    (s.define e n v).binding? e' name =
      if e' = e ∧ n = name ∧ e < s.nextEnvironment then some v else s.binding? e' name := by
  unfold binding? define nextEnvironment
  rw [Array.getElem?_modify]
  by_cases h : e = e'
  · subst h
    by_cases he : e < s.environments.size
    · simp [he, Bindings.get?_set]
    · simp [he]
  · simp [h, Ne.symm h]

theorem function?_allocate (s : Store) (g : Function) (f : FunctionId) :
    (s.allocate g).2.function? f = if f = s.functions.size then some g else s.function? f := by
  simp [function?, allocate, Array.getElem?_push]

theorem lt_of_binding? {s : Store} {e : EnvironmentId} {name : String}
    (h : (s.binding? e name).isSome) : e < s.nextEnvironment := by
  refine Nat.lt_of_not_le fun he => ?_
  simp [binding?, Array.getElem?_eq_none he] at h

theorem lt_of_enclosing? {s : Store} {e e' : EnvironmentId} (h : s.enclosing? e = some e') :
    e < s.nextEnvironment := by
  refine Nat.lt_of_not_le fun he => ?_
  simp [enclosing?, Array.getElem?_eq_none he] at h

def defineAll (s : Store) (e : EnvironmentId) (bs : List (String × Value)) : Store :=
  bs.foldl (fun s (name, v) => s.define e name v) s

/-- The environment so many links up, if it binds the name. -/
def owner? (s : Store) (e : EnvironmentId) (depth : Nat) (name : String) : Option EnvironmentId :=
  (s.ancestor? e depth).filter fun a => (s.binding? a name).isSome

def read (s : Store) (e : EnvironmentId) (depth : Nat) (name : String) (line : UInt32) :
    Except RuntimeError Value :=
  match (s.ancestor? e depth).bind fun a => s.binding? a name with
  | some v => .ok v
  | none => .error (.fault line (.undefinedVariable name))

/-- Overwrite a name so many links up the chain. It has to be bound there. -/
def write (s : Store) (e : EnvironmentId) (depth : Nat) (name : String) (line : UInt32)
    (v : Value) : Except RuntimeError Store :=
  match s.owner? e depth name with
  | some a => .ok (s.define a name v)
  | none => .error (.fault line (.undefinedVariable name))

def text (s : Store) : Value → String :=
  Value.text fun f => match s.function? f with
    | some g => g.text
    | none => ""

end Store
end Lox
