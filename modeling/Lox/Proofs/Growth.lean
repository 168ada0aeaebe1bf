import Lox.Evaluation

/-! How runs change the shape of the store.
Environments and function objects are never removed, links never change and no name is ever
unbound. New names appear in new environments, and, while statements of a scope are executed, in
the environment of that scope (`evaluate_grows`, `execute_grows`). -/
namespace Lox

def Result.state {σ α : Type} : Result σ α → σ
  | .done _ s | .failed _ s | .unfinished s => s

namespace Computation

variable {σ α β : Type} {R : σ → σ → Prop}

def Keeps (R : σ → σ → Prop) (x : Computation σ α) : Prop := ∀ s, R s (x s).state

theorem Keeps.pure (hr : ∀ s, R s s) (a : α) : Keeps R (pure a : Computation σ α) := hr

theorem Keeps.ofExcept (hr : ∀ s, R s s) (x : Except RuntimeError α) :
    Keeps R (ofExcept x) := by
  intro s
  cases x <;> exact hr s

theorem Keeps.bind (ht : ∀ s t u, R s t → R t u → R s u) {x : Computation σ α}
    {f : α → Computation σ β} (hx : Keeps R x) (hf : ∀ a, Keeps R (f a)) : Keeps R (x >>= f) := by
  intro s
  have h := hx s
  rw [bind_apply]
  cases hs : x s with
  | done a t =>
    rw [hs] at h
    exact ht _ _ _ h (hf a t)
  | failed e t => rwa [hs] at h
  | unfinished t => rwa [hs] at h

theorem repeatWhile_succ (condition : Computation σ Value) (body : Computation σ Flow) (n : Nat) :
    repeatWhile condition body (n + 1) = condition >>= fun v =>
      if v.isTruthy then
        body >>= fun
          | .next => repeatWhile condition body n
          | .returned v => Pure.pure (.returned v)
      else Pure.pure .next := by
  funext s
  rw [repeatWhile, bind_apply]
  cases condition s with
  | done v t =>
    cases hv : v.isTruthy with
    | false => simp [hv, pure_apply]
    | true =>
      simp only [hv, if_true, bind_apply]
      cases body t with
      | done r u => cases r <;> rfl
      | failed e u => rfl
      | unfinished u => rfl
  | failed e t => rfl
  | unfinished t => rfl

theorem Keeps.repeatWhile (hr : ∀ s, R s s) (ht : ∀ s t u, R s t → R t u → R s u)
    {condition : Computation σ Value} {body : Computation σ Flow} (hc : Keeps R condition)
    (hb : Keeps R body) (n : Nat) : Keeps R (repeatWhile condition body n) := by
  induction n with
  | zero => exact hr
  | succ n ih =>
    rw [repeatWhile_succ]
    refine hc.bind ht fun v => ?_
    split
    · refine hb.bind ht fun r => ?_
      cases r with
      | next => exact ih
      | returned v => exact .pure hr _
    · exact .pure hr _

end Computation

namespace Store

/-- One store has become another; of the environments that there were, only those of a given kind
bind names that they did not bind. -/
structure Grows (grown : EnvironmentId → Prop) (s t : Store) : Prop where
  next_le : s.nextEnvironment ≤ t.nextEnvironment
  enclosing : ∀ e < s.nextEnvironment, t.enclosing? e = s.enclosing? e
  bound : ∀ e name, (s.binding? e name).isSome → (t.binding? e name).isSome
  fresh : ∀ e < s.nextEnvironment, ¬ grown e → ∀ name,
    (t.binding? e name).isSome → (s.binding? e name).isSome
  function : ∀ f g, s.function? f = some g → t.function? f = some g

variable {s t u : Store} {A B : EnvironmentId → Prop}

/-- No environment that there was binds a new name. -/
abbrev Keeps (s t : Store) : Prop := Grows (fun _ => False) s t

theorem Grows.refl (s : Store) : Grows A s s :=
  ⟨Nat.le_refl _, fun _ _ => rfl, fun _ _ h => h, fun _ _ _ _ h => h, fun _ _ h => h⟩

/-- What an environment gains that was not there at the start does not count. -/
theorem Grows.trans (h : Grows A s t) (h' : Grows B t u)
    (hB : ∀ e < s.nextEnvironment, B e → A e) : Grows A s u where
  next_le := Nat.le_trans h.next_le h'.next_le
  enclosing e he := (h'.enclosing e (Nat.lt_of_lt_of_le he h.next_le)).trans (h.enclosing e he)
  bound e name hb := h'.bound e name (h.bound e name hb)
  fresh e he hA name hb :=
    h.fresh e he hA name
      (h'.fresh e (Nat.lt_of_lt_of_le he h.next_le) (fun hB' => hA (hB e he hB')) name hb)
  function f g hg := h'.function f g (h.function f g hg)

theorem Grows.weaken (h : Keeps s t) : Grows A s t := .trans (.refl s) h fun _ _ => False.elim

theorem grows_push (s : Store) (p : Option EnvironmentId) : Keeps s (s.push p) where
  next_le := by simp
  enclosing e he := by
    rw [enclosing?_push, if_neg (Nat.ne_of_lt he)]
  bound e name h := by simpa using h
  fresh e _ _ name h := by simpa using h
  function f g h := h

theorem grows_allocate (s : Store) (g : Function) : Keeps s (s.allocate g).2 where
  next_le := Nat.le_refl _
  enclosing _ _ := rfl
  bound _ _ h := h
  fresh _ _ _ _ h := h
  function f g' h := by
    have hf : f ≠ s.functions.size := by
      rintro rfl
      simp [function?] at h
    rw [function?_allocate, if_neg hf, h]

theorem grows_define (s : Store) (e : EnvironmentId) (name : String) (v : Value) :
    Grows (· = e) s (s.define e name v) where
  next_le := by simp
  enclosing e' _ := by simp
  bound e' n h := by
    rw [binding?_define]
    split
    · rfl
    · exact h
  fresh e' _ hne n h := by
    rwa [binding?_define, if_neg fun hh => hne hh.1] at h
  function f g h := h

end Store

namespace Run

variable {α β : Type}

abbrev Grows (grown : EnvironmentId → Prop) (x : Run α) : Prop :=
  x.Keeps fun s t => s.store.Grows grown t.store

abbrev Frames (x : Run α) : Prop := x.Grows fun _ => False

variable {A : EnvironmentId → Prop}

theorem Grows.pure (a : α) : Grows A (Pure.pure a) := Computation.Keeps.pure (fun _ => .refl _) a

theorem Grows.ofExcept (x : Except RuntimeError α) : Grows A (.ofExcept x) :=
  Computation.Keeps.ofExcept (fun _ => .refl _) x

theorem Grows.fail (e : RuntimeError) : Grows A (.fail e : Run α) := fun _ => .refl _

theorem Grows.inspect (f : State → α) : Grows A (.inspect f) := fun _ => .refl _

theorem Grows.bind {x : Run α} {f : α → Run β} (hx : x.Grows A) (hf : ∀ a, (f a).Grows A) :
    (x >>= f).Grows A :=
  Computation.Keeps.bind (fun _ _ _ h h' => h.trans h' fun _ _ hA => hA) hx hf

theorem Grows.weaken {x : Run α} (h : x.Frames) : x.Grows A := fun s => (h s).weaken

theorem frames_write (text : String) : (write text).Frames := by
  intro s
  unfold write
  split <;> exact .refl _

theorem frames_ticking (f : Nat → Except RuntimeError (α × Nat)) : (ticking f).Frames := by
  intro s
  unfold ticking
  split <;> exact .refl _

theorem frames_read (e : EnvironmentId) (depth : Nat) (name : Token) :
    (read e depth name).Frames := by
  intro s
  unfold read
  split <;> exact .refl _

theorem grows_define (e : EnvironmentId) (name : String) (v : Value) :
    (define e name v).Grows (· = e) := fun s => s.store.grows_define e name v

theorem grows_defineAll (e : EnvironmentId) (bs : List (String × Value)) :
    (defineAll e bs).Grows (· = e) := by
  intro s
  change s.store.Grows _ (s.store.defineAll e bs)
  generalize s.store = store
  induction bs generalizing store with
  | nil => exact .refl _
  | cons b bs ih => exact (store.grows_define e b.1 b.2).trans (ih _) fun _ _ h => h

theorem frames_allocate (f : Function) : (allocate f).Frames := fun s => s.store.grows_allocate f

theorem frames_assign (e : EnvironmentId) (depth : Nat) (name : Token) (v : Value) :
    (assign e depth name v).Frames := by
  intro s
  unfold assign
  split
  · next a ha =>
    have hb : (s.store.binding? a name.lexeme).isSome := (Option.filter_eq_some_iff.1 ha).2
    refine { s.store.grows_define a name.lexeme v with fresh := fun e he _ n hn => ?_ }
    change ((s.store.define a name.lexeme v).binding? e n).isSome at hn
    rw [Store.binding?_define] at hn
    split at hn
    · next h => rwa [h.1, ← h.2.1]
    · exact hn
  · exact .refl _

/-- What is done in a new environment counts for nothing afterwards. -/
theorem frames_enter {e : EnvironmentId} {f : EnvironmentId → Run α}
    (hf : ∀ e', (f e').Grows (· = e')) : (enter e >>= f).Frames := by
  intro s
  have h := hf s.store.nextEnvironment { s with store := s.store.push (some e) }
  exact (s.store.grows_push (some e)).trans h fun e' he' h' => Nat.ne_of_lt he' h'

end Run

section

variable {σ : Setting} {call : Caller} {rounds : Nat}

mutual

theorem evaluate_grows (hcall : ∀ f args line, (call f args line).Frames)
    (env : EnvironmentId) : ∀ e : Expr, (evaluate σ call env e).Frames
  | .literal _ => .pure _
  | .group inner => evaluate_grows hcall env inner
  | .unary _ operand => (evaluate_grows hcall env operand).bind fun _ => .ofExcept _
  | .binary left _ right =>
    (evaluate_grows hcall env left).bind fun _ =>
      (evaluate_grows hcall env right).bind fun _ => .ofExcept _
  | .logical left op right => (evaluate_grows hcall env left).bind fun l => by
    split
    · exact .pure _
    · exact evaluate_grows hcall env right
  | .use _ _ => Run.frames_read _ _ _
  | .assign _ _ value => (evaluate_grows hcall env value).bind fun _ =>
    (Run.frames_assign _ _ _ _).bind fun _ => .pure _
  | .call callee args paren => (evaluate_grows hcall env callee).bind fun f =>
    (evaluateAll_grows hcall env args).bind fun vs => hcall f vs paren.line

theorem evaluateAll_grows (hcall : ∀ f args line, (call f args line).Frames)
    (env : EnvironmentId) : ∀ es : List Expr,
    (evaluateAll σ call env es).Frames
  | [] => .pure _
  | e :: es => (evaluate_grows hcall env e).bind fun _ =>
    (evaluateAll_grows hcall env es).bind fun _ => .pure _

end

mutual

/-- Executing a statement makes names known in its own environment at most. -/
theorem execute_grows (hcall : ∀ f args line, (call f args line).Frames)
    (env : EnvironmentId) : ∀ s : Stmt,
    (execute σ call rounds env s).Grows (· = env)
  | .expression e => (evaluate_grows hcall env e).weaken.bind fun _ => .pure _
  | .print e => (evaluate_grows hcall env e).weaken.bind fun _ =>
    (Run.Grows.inspect _).bind fun _ => (Run.frames_write _).weaken.bind fun _ => (Run.frames_write _).weaken.bind fun _ => .pure _
  | .var _ none => (Run.grows_define _ _ _).bind fun _ => .pure _
  | .var _ (some init) => (evaluate_grows hcall env init).weaken.bind fun _ =>
    (Run.grows_define _ _ _).bind fun _ => .pure _
  | .block body => (execute_block_grows hcall env body).weaken
  | .branch condition consequent none =>
    (evaluate_grows hcall env condition).weaken.bind fun v => by
    split
    · exact execute_grows hcall env consequent
    · exact .pure _
  | .branch condition consequent (some alternative) =>
    (evaluate_grows hcall env condition).weaken.bind fun v => by
      split
      · exact execute_grows hcall env consequent
      · exact execute_grows hcall env alternative
  | .loop condition body => Computation.Keeps.repeatWhile (fun _ => .refl _)
    (fun _ _ _ h h' => h.trans h' fun _ _ hA => hA) (evaluate_grows hcall env condition).weaken
    (execute_grows hcall env body) rounds
  | .function _ _ _ => (Run.frames_allocate _).weaken.bind fun _ =>
    (Run.grows_define _ _ _).bind fun _ => .pure _
  | .ret _ none => .pure _
  | .ret _ (some value) => (evaluate_grows hcall env value).weaken.bind fun _ => .pure _

theorem executeAll_grows (hcall : ∀ f args line, (call f args line).Frames)
    (env : EnvironmentId) : ∀ ss : List Stmt,
    (executeAll σ call rounds env ss).Grows (· = env)
  | [] => .pure _
  | s :: ss => (execute_grows hcall env s).bind fun
    | .next => executeAll_grows hcall env ss
    | .returned _ => .pure _

theorem execute_block_grows (hcall : ∀ f args line, (call f args line).Frames)
    (env : EnvironmentId) (body : List Stmt) :
    (execute σ call rounds env (.block body)).Frames :=
  Run.frames_enter fun inner => executeAll_grows hcall inner body

end

end

theorem call_grows (σ : Setting) (depth : Nat) :
    ∀ f args line, (call σ depth f args line).Frames := by
  induction depth with
  | zero => exact fun f args line s => .refl _
  | succ depth ih =>
    intro f args line
    cases f with
    | function f =>
      refine (Run.Grows.inspect _).bind fun g => ?_
      cases g with
      | none => exact .fail _
      | some g =>
        dsimp only
        split
        · exact .fail _
        cases g with
        | native name arity builtin => exact Run.frames_ticking _
        | declared name params body closure =>
          refine Run.frames_enter fun env => (Run.grows_defineAll _ _).bind fun _ => ?_
          refine (executeAll_grows ih env body).bind fun r => ?_
          cases r <;> exact .pure _
    | nil | bool | number | string => exact .fail _

end Lox
