import Lox.Proofs.Growth

/-! Environments lie inside older ones.
Where every link and every function leads to an environment that was made earlier, this stays so
through every run (`execute_descends`, `call_descends`), and then chains of environments are finite
and never come back (`Store.Descends.ancestor`). -/
namespace Lox

namespace Store

/-- Links lead to older environments, and functions to environments that there are. -/
structure Descends (s : Store) : Prop where
  enclosing : ∀ e e', s.enclosing? e = some e' → e' < e
  closure : ∀ f name params body closure,
    s.function? f = some (.declared name params body closure) → closure < s.nextEnvironment

variable {s : Store}

/-- With every link the number of the environment falls. -/
theorem Descends.ancestor (h : s.Descends) {e a : EnvironmentId} {d : Nat}
    (ha : s.ancestor? e d = some a) : a + d ≤ e := by
  induction d generalizing e with
  | zero => exact Nat.le_of_eq (Option.some.inj ha).symm
  | succ d ih =>
    rw [ancestor?, Option.bind_eq_some_iff] at ha
    obtain ⟨e', he', ha⟩ := ha
    calc a + (d + 1) ≤ e' + 1 := Nat.succ_le_succ (ih ha)
      _ ≤ e := h.enclosing e e' he'

theorem Descends.push (h : s.Descends) {e : EnvironmentId} (he : e < s.nextEnvironment) :
    (s.push (some e)).Descends where
  enclosing i j hij := by
    rw [enclosing?_push] at hij
    split at hij
    · next hi => rwa [hi, ← Option.some.inj hij]
    · exact h.enclosing i j hij
  closure f name params body closure hf := by
    rw [nextEnvironment_push]
    exact Nat.lt_succ_of_lt (h.closure f name params body closure hf)

theorem Descends.define (h : s.Descends) (e : EnvironmentId) (name : String) (v : Value) :
    (s.define e name v).Descends where
  enclosing i j hij := h.enclosing i j (by rwa [enclosing?_define] at hij)
  closure f name params body closure hf := by
    rw [nextEnvironment_define]
    exact h.closure f name params body closure hf

theorem Descends.allocate (h : s.Descends) {g : Function}
    (hg : ∀ name params body closure, g = .declared name params body closure →
      closure < s.nextEnvironment) : (s.allocate g).2.Descends where
  enclosing := h.enclosing
  closure f name params body closure hf := by
    rw [function?_allocate] at hf
    split at hf
    · exact hg name params body closure (Option.some.inj hf)
    · exact h.closure f name params body closure hf

def DescendsFrom (n : EnvironmentId) (s : Store) : Prop := s.Descends ∧ n ≤ s.nextEnvironment

theorem DescendsFrom.define {n : EnvironmentId} (h : s.DescendsFrom n) (e : EnvironmentId)
    (name : String) (v : Value) : (s.define e name v).DescendsFrom n :=
  ⟨h.1.define e name v, by rw [nextEnvironment_define]; exact h.2⟩

theorem DescendsFrom.mono {m n : EnvironmentId} (h : s.DescendsFrom n) (hm : m ≤ n) :
    s.DescendsFrom m := ⟨h.1, Nat.le_trans hm h.2⟩

end Store

namespace Run

variable {α β : Type} {n : EnvironmentId}

def Descends (n : EnvironmentId) (x : Run α) : Prop :=
  x.Keeps fun s t => s.store.DescendsFrom n → t.store.DescendsFrom n

theorem Descends.pure (a : α) : Descends n (Pure.pure a) := fun _ hs => hs

theorem Descends.ofExcept (x : Except RuntimeError α) : Descends n (.ofExcept x) :=
  Computation.Keeps.ofExcept (fun _ hs => hs) x

theorem Descends.inspect (f : State → α) : Descends n (.inspect f) := fun _ hs => hs

theorem Descends.bind {x : Run α} {f : α → Run β} (hx : x.Descends n)
    (hf : ∀ a, (f a).Descends n) : (x >>= f).Descends n :=
  Computation.Keeps.bind (fun _ _ _ h h' hs => h' (h hs)) hx hf

theorem descends_write (text : String) : (write text).Descends n := by
  intro s hs
  unfold write
  split <;> exact hs

theorem descends_ticking (f : Nat → Except RuntimeError (α × Nat)) : (ticking f).Descends n := by
  intro s hs
  unfold ticking
  split <;> exact hs

theorem descends_read (e : EnvironmentId) (depth : Nat) (name : Token) :
    (read e depth name).Descends n := by
  intro s hs
  unfold read
  split <;> exact hs

theorem descends_define (e : EnvironmentId) (name : String) (v : Value) :
    (define e name v).Descends n := fun _ hs => hs.define e name v

theorem descends_defineAll (e : EnvironmentId) (bs : List (String × Value)) :
    (defineAll e bs).Descends n := by
  intro s hs
  change (s.store.defineAll e bs).DescendsFrom n
  generalize s.store = store at hs
  induction bs generalizing store with
  | nil => exact hs
  | cons b bs ih => exact ih _ (hs.define e b.1 b.2)

theorem descends_assign (e : EnvironmentId) (depth : Nat) (name : Token) (v : Value) :
    (assign e depth name v).Descends n := by
  intro s hs
  unfold assign
  split
  · exact hs.define _ _ _
  · exact hs

theorem descends_declare {env : EnvironmentId} (henv : env < n) (name : Token)
    (params : List Token) (body : List Stmt) :
    (allocate (.declared name params body env)).Descends n := by
  rintro s ⟨hs, hn⟩
  refine ⟨hs.allocate fun _ _ _ closure h => ?_, hn⟩
  cases h
  exact Nat.lt_of_lt_of_le henv hn

theorem descends_enter {e : EnvironmentId} {f : EnvironmentId → Run α}
    (hf : ∀ inner, (f inner).Descends (inner + 1)) {s : State} (hs : s.store.DescendsFrom n)
    (he : e < s.store.nextEnvironment) : ((enter e >>= f) s).state.store.DescendsFrom n := by
  have hpush : (s.store.push (some e)).DescendsFrom (s.store.nextEnvironment + 1) :=
    ⟨hs.1.push he, Nat.le_of_eq (Store.nextEnvironment_push _ _).symm⟩
  exact (hf s.store.nextEnvironment { s with store := s.store.push (some e) } hpush).mono
    (Nat.le_succ_of_le hs.2)

end Run

section

variable {σ : Setting} {call : Caller} {rounds : Nat}

mutual

theorem evaluate_descends (hcall : ∀ n f args line, (call f args line).Descends n)
    (env n : EnvironmentId) : ∀ e : Expr, (evaluate σ call env e).Descends n
  | .literal _ => .pure _
  | .group inner => evaluate_descends hcall env n inner
  | .unary _ operand => (evaluate_descends hcall env n operand).bind fun _ => .ofExcept _
  | .binary left _ right => (evaluate_descends hcall env n left).bind fun _ =>
    (evaluate_descends hcall env n right).bind fun _ => .ofExcept _
  | .logical left op right => (evaluate_descends hcall env n left).bind fun l => by
    split
    · exact .pure _
    · exact evaluate_descends hcall env n right
  | .use _ _ => Run.descends_read _ _ _
  | .assign _ _ value => (evaluate_descends hcall env n value).bind fun _ =>
    (Run.descends_assign _ _ _ _).bind fun _ => .pure _
  | .call callee args paren => (evaluate_descends hcall env n callee).bind fun f =>
    (evaluateAll_descends hcall env n args).bind fun vs => hcall n f vs paren.line

theorem evaluateAll_descends (hcall : ∀ n f args line, (call f args line).Descends n)
    (env n : EnvironmentId) : ∀ es : List Expr, (evaluateAll σ call env es).Descends n
  | [] => .pure _
  | e :: es => (evaluate_descends hcall env n e).bind fun _ =>
    (evaluateAll_descends hcall env n es).bind fun _ => .pure _

end

mutual

/-- Statements keep the order if their environment has been made. -/
theorem execute_descends (hcall : ∀ n f args line, (call f args line).Descends n)
    {env n : EnvironmentId} (henv : env < n) : ∀ s : Stmt,
    (execute σ call rounds env s).Descends n
  | .expression e => (evaluate_descends hcall env n e).bind fun _ => .pure _
  | .print e => (evaluate_descends hcall env n e).bind fun _ =>
    (Run.Descends.inspect _).bind fun _ => (Run.descends_write _).bind fun _ =>
      (Run.descends_write _).bind fun _ => .pure _
  | .var _ none => (Run.descends_define _ _ _).bind fun _ => .pure _
  | .var _ (some init) => (evaluate_descends hcall env n init).bind fun _ =>
    (Run.descends_define _ _ _).bind fun _ => .pure _
  | .block body => fun _ hs =>
    Run.descends_enter (fun inner => executeAll_descends hcall inner.lt_succ_self body) hs
      (Nat.lt_of_lt_of_le henv hs.2)
  | .branch condition consequent none => (evaluate_descends hcall env n condition).bind fun v => by
    split
    · exact execute_descends hcall henv consequent
    · exact .pure _
  | .branch condition consequent (some alternative) =>
    (evaluate_descends hcall env n condition).bind fun v => by
      split
      · exact execute_descends hcall henv consequent
      · exact execute_descends hcall henv alternative
  | .loop condition body => Computation.Keeps.repeatWhile (fun _ hs => hs)
    (fun _ _ _ h h' hs => h' (h hs)) (evaluate_descends hcall env n condition)
    (execute_descends hcall henv body) rounds
  | .function name params body => (Run.descends_declare henv name params body).bind fun _ =>
    (Run.descends_define _ _ _).bind fun _ => .pure _
  | .ret _ none => .pure _
  | .ret _ (some value) => (evaluate_descends hcall env n value).bind fun _ => .pure _

theorem executeAll_descends (hcall : ∀ n f args line, (call f args line).Descends n)
    {env n : EnvironmentId} (henv : env < n) : ∀ ss : List Stmt,
    (executeAll σ call rounds env ss).Descends n
  | [] => .pure _
  | s :: ss => (execute_descends hcall henv s).bind fun
    | .next => executeAll_descends hcall henv ss
    | .returned _ => .pure _

end

end

/-- Calls keep the order: a body runs inside the environment of its function, which is older. -/
theorem call_descends (σ : Setting) (depth : Nat) :
    ∀ n f args line, (call σ depth f args line).Descends n := by
  induction depth with
  | zero => exact fun n f args line s hs => hs
  | succ depth ih =>
    intro n f args line
    cases f with
    | nil | bool | number | string => exact fun s hs => hs
    | function f =>
      intro s hs
      rw [call, Computation.bind_done (x := .inspect _) rfl]
      cases hg : s.store.function? f with
      | none => exact hs
      | some g =>
        dsimp only
        split
        · exact hs
        cases g with
        | native name arity builtin => exact Run.descends_ticking _ s hs
        | declared name params body closure =>
          refine Run.descends_enter (fun env => ?_) hs (hs.1.closure f name params body closure hg)
          refine (Run.descends_defineAll env _).bind fun _ => ?_
          refine (executeAll_descends ih env.lt_succ_self body).bind fun r => ?_
          cases r <;> exact .pure _

theorem runProgram_descends (σ : Setting) (budget : Nat) : ∀ p : Program,
    (runProgram σ budget p).Descends 1
  | [] => .pure _
  | s :: ss => (execute_descends (call_descends σ budget) Nat.one_pos s).bind fun _ =>
    runProgram_descends σ budget ss

end Lox
