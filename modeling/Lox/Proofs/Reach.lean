import Mathlib.Tactic.SplitIfs
import Lox.Proofs.Growth

/-! What a run can reach.
Environments are reached by enclosing links and through the functions that are bound in them. Whatever is
evaluated, executed or called changes only environments that it can reach from the start, and new ones
(`run_spares`). -/
namespace Lox

def Function.closure? : Function → Option EnvironmentId
  | .native _ _ _ => none
  | .declared _ _ _ closure => some closure

namespace Store

def captured? (s : Store) : Value → Option EnvironmentId
  | .function f => (s.function? f).bind Function.closure?
  | _ => none

def Captured (s : Store) (vs : List Value) (e : EnvironmentId) : Prop :=
  ∃ v ∈ vs, s.captured? v = some e

/-- Environments that can be reached from the roots. -/
inductive Reaches (s : Store) (roots : EnvironmentId → Prop) : EnvironmentId → Prop
  | root {e : EnvironmentId} (here : roots e) : Reaches s roots e
  | enclosing {e e' : EnvironmentId} (reached : Reaches s roots e) (link : s.enclosing? e = some e') :
    Reaches s roots e'
  | captured {e e' : EnvironmentId} {name : String} {v : Value} (reached : Reaches s roots e)
    (bound : s.binding? e name = some v) (made : s.captured? v = some e') : Reaches s roots e'

/-- Environments that there are and that cannot be reached from the roots are as they were. -/
def Spares (s : Store) (roots : EnvironmentId → Prop) (t : Store) : Prop :=
  ∀ e < s.nextEnvironment, ¬ s.Reaches roots e → t.environments[e]? = s.environments[e]?

theorem captured?_allocate (s : Store) (g : Function) (f : FunctionId) :
    (s.allocate g).2.captured? (.function f) =
      if f = s.functions.size then g.closure? else s.captured? (.function f) := by
  simp only [captured?, function?_allocate]
  split <;> rfl

/-- What is reached is reached from one of the roots. -/
theorem Reaches.or {s : Store} {A B : EnvironmentId → Prop} {e : EnvironmentId}
    (h : s.Reaches (fun a => A a ∨ B a) e) : s.Reaches A e ∨ s.Reaches B e := by
  induction h with
  | root here => exact here.imp .root .root
  | enclosing _ link ih => exact ih.imp (.enclosing · link) (.enclosing · link)
  | captured _ bound made ih => exact ih.imp (.captured · bound made) (.captured · bound made)

end Store

/-- Environments and functions that a run keeps to. -/
structure Region where
  environment : EnvironmentId → Prop
  function : FunctionId → Prop

namespace Region

def Admits (A : Region) (v : Value) : Prop := ∀ f, v = .function f → A.function f

def AdmitsFlow (A : Region) (flow : Flow) : Prop := ∀ v, flow = .returned v → A.Admits v

/-- Nothing leads out of the region, and all that is new is made in it. -/
structure Closed (A : Region) (s : Store) : Prop where
  globals : A.environment globals
  enclosing : ∀ e e', A.environment e → s.enclosing? e = some e' → A.environment e'
  bound : ∀ e name v, A.environment e → s.binding? e name = some v → A.Admits v
  captured : ∀ f e, A.function f → s.captured? (.function f) = some e → A.environment e
  newEnvironment : ∀ e, s.nextEnvironment ≤ e → A.environment e
  newFunction : ∀ f, s.functions.size ≤ f → A.function f

/-- The region stays closed, and environments outside stay as they are. -/
structure Contains (A : Region) (s t : Store) : Prop where
  closed : A.Closed t
  outside : ∀ e, ¬ A.environment e → t.environments[e]? = s.environments[e]?

variable {A : Region} {s t : Store}

theorem Admits.literal (A : Region) (l : Literal) : A.Admits (.ofLiteral l) := by
  cases l <;> exact nofun

theorem AdmitsFlow.next (A : Region) : A.AdmitsFlow .next := nofun

theorem Admits.returned {v : Value} (h : A.Admits v) : A.AdmitsFlow (.returned v) := by
  rintro _ ⟨⟩
  exact h

theorem Contains.refl (h : A.Closed s) : A.Contains s s := ⟨h, fun _ _ => rfl⟩

theorem Contains.trans {u : Store} (h : A.Contains s t) (h' : A.Contains t u) : A.Contains s u :=
  ⟨h'.closed, fun e he => (h'.outside e he).trans (h.outside e he)⟩

namespace Closed

theorem ancestor (h : A.Closed s) {e a : EnvironmentId} (he : A.environment e) {depth : Nat}
    (ha : s.ancestor? e depth = some a) : A.environment a := by
  induction depth generalizing e with
  | zero =>
    cases ha
    exact he
  | succ depth ih =>
    obtain ⟨e', hlink, ha⟩ := Option.bind_eq_some_iff.1 ha
    exact ih (h.enclosing e e' he hlink) ha

theorem define (h : A.Closed s) {e : EnvironmentId} (he : A.environment e) (name : String) {v : Value}
    (hv : A.Admits v) : A.Contains s (s.define e name v) where
  closed :=
    { globals := h.globals
      enclosing := by simpa using h.enclosing
      bound := by
        intro e' name' v' he' hv'
        rw [Store.binding?_define] at hv'
        split at hv'
        · cases hv'
          exact hv
        · exact h.bound e' name' v' he' hv'
      captured := h.captured
      newEnvironment := by simpa using h.newEnvironment
      newFunction := h.newFunction }
  outside e' he' := by
    have hne : e ≠ e' := by
      rintro rfl
      exact he' he
    simp [Store.define, Array.getElem?_modify, hne]

theorem defineAll (h : A.Closed s) {e : EnvironmentId} (he : A.environment e)
    {bs : List (String × Value)} (hbs : ∀ b ∈ bs, A.Admits b.2) : A.Contains s (s.defineAll e bs) := by
  induction bs generalizing s with
  | nil => exact .refl h
  | cons b bs ih =>
    have hhead := h.define he b.1 (hbs b List.mem_cons_self)
    exact hhead.trans (ih hhead.closed fun b hb => hbs b (List.mem_cons_of_mem _ hb))

theorem push (h : A.Closed s) {e : EnvironmentId} (he : A.environment e) :
    A.Contains s (s.push (some e)) where
  closed :=
    { globals := h.globals
      enclosing := by
        intro a a' ha hlink
        rw [Store.enclosing?_push] at hlink
        split at hlink
        · cases hlink
          exact he
        · exact h.enclosing a a' ha hlink
      bound := by simpa using h.bound
      captured := h.captured
      newEnvironment := fun a ha => h.newEnvironment a (Nat.le_of_succ_le (by simpa using ha))
      newFunction := h.newFunction }
  outside a ha := by
    have hlt : a < s.environments.size := Nat.lt_of_not_le fun hle => ha (h.newEnvironment a hle)
    simp [Store.push, Array.getElem?_push, Nat.ne_of_lt hlt]

theorem allocate (h : A.Closed s) {e : EnvironmentId} (he : A.environment e) (name : Token)
    (params : List Token) (body : List Stmt) :
    A.Contains s (s.allocate (.declared name params body e)).2 where
  closed :=
    { globals := h.globals
      enclosing := h.enclosing
      bound := h.bound
      captured := by
        intro f e' hf hmade
        rw [Store.captured?_allocate] at hmade
        split at hmade
        · cases hmade
          exact he
        · exact h.captured f e' hf hmade
      newEnvironment := h.newEnvironment
      newFunction := fun f hf => h.newFunction f (Nat.le_of_succ_le (by simpa [Store.allocate] using hf)) }
  outside _ _ := rfl

end Closed

end Region

/-- From a region that is closed, a run keeps to the region, and its answer is right. -/
def Run.Within {α : Type} (A : Region) (right : α → Prop) (x : Run α) : Prop :=
  ∀ s, A.Closed s.store →
    A.Contains s.store (x s).state.store ∧ ∀ a t, x s = .done a t → right a

namespace Run.Within

variable {A : Region} {α β : Type} {right : α → Prop} {right' : β → Prop}

theorem pure {a : α} (h : right a) : (Pure.pure a : Run α).Within A right := by
  intro s hs
  refine ⟨.refl hs, ?_⟩
  rintro _ _ ⟨⟩
  exact h

theorem bind {x : Run α} {f : α → Run β} (hx : x.Within A right)
    (hf : ∀ a, right a → (f a).Within A right') : (x >>= f).Within A right' := by
  intro s hs
  obtain ⟨hcontains, hright⟩ := hx s hs
  cases h : x s with
  | done a t =>
    rw [h] at hcontains
    rw [Computation.bind_done h]
    obtain ⟨hcontains', hright'⟩ := hf a (hright a t h) t hcontains.closed
    exact ⟨hcontains.trans hcontains', hright'⟩
  | failed e t =>
    rw [h] at hcontains
    rw [Computation.bind_failed h]
    exact ⟨hcontains, fun _ _ => nofun⟩
  | unfinished t =>
    rw [h] at hcontains
    rw [Computation.bind_unfinished h]
    exact ⟨hcontains, fun _ _ => nofun⟩

theorem of_store_eq {x : Run α} (hstore : ∀ s, (x s).state.store = s.store)
    (hright : ∀ s a t, A.Closed s.store → x s = .done a t → right a) : x.Within A right := by
  intro s hs
  rw [hstore s]
  exact ⟨.refl hs, fun a t h => hright s a t hs h⟩

theorem fail (e : RuntimeError) : Run.Within A right (.fail e) := by
  intro s hs
  exact ⟨.refl hs, fun _ _ => nofun⟩

theorem exhaust : Run.Within A right .exhaust := by
  intro s hs
  exact ⟨.refl hs, fun _ _ => nofun⟩

theorem ofExcept {x : Except RuntimeError α} (h : ∀ a, x = .ok a → right a) :
    Run.Within A right (.ofExcept x) := by
  cases x with
  | ok a => exact pure (h a rfl)
  | error e => exact fail e

theorem inspect (f : State → α) : Run.Within A (fun _ => True) (.inspect f) :=
  fun _ hs => ⟨.refl hs, fun _ _ _ => trivial⟩

theorem write (text : String) : (Run.write text).Within A fun _ => True := by
  apply of_store_eq _ fun _ _ _ _ _ => trivial
  intro s
  unfold Run.write
  split <;> rfl

theorem ticking {f : Nat → Except RuntimeError (α × Nat)}
    (h : ∀ ticks a ticks', f ticks = .ok (a, ticks') → right a) : (Run.ticking f).Within A right := by
  intro s hs
  unfold Run.ticking
  cases hf : f s.ticks with
  | ok r =>
    refine ⟨.refl hs, ?_⟩
    rintro _ _ ⟨⟩
    exact h _ _ _ hf
  | error e => exact ⟨.refl hs, fun _ _ => nofun⟩

theorem read {e : EnvironmentId} (he : A.environment e) (depth : Nat) (name : Token) :
    (Run.read e depth name).Within A A.Admits := by
  intro s hs
  unfold Run.read Store.read
  cases h : (s.store.ancestor? e depth).bind fun a => s.store.binding? a name.lexeme with
  | none => exact ⟨.refl hs, fun _ _ => nofun⟩
  | some v =>
    obtain ⟨a, ha, hv⟩ := Option.bind_eq_some_iff.1 h
    refine ⟨.refl hs, ?_⟩
    rintro _ _ ⟨⟩
    exact hs.bound a name.lexeme v (hs.ancestor he ha) hv

theorem assign {e : EnvironmentId} (he : A.environment e) (depth : Nat) (name : Token) {v : Value}
    (hv : A.Admits v) : (Run.assign e depth name v).Within A fun _ => True := by
  intro s hs
  unfold Run.assign
  cases h : s.store.owner? e depth name.lexeme with
  | none => exact ⟨.refl hs, fun _ _ _ => trivial⟩
  | some a =>
    have ha : s.store.ancestor? e depth = some a := (Option.filter_eq_some_iff.1 h).1
    exact ⟨hs.define (hs.ancestor he ha) name.lexeme hv, fun _ _ _ => trivial⟩

theorem define {e : EnvironmentId} (he : A.environment e) (name : String) {v : Value}
    (hv : A.Admits v) : (Run.define e name v).Within A fun _ => True :=
  fun _ hs => ⟨hs.define he name hv, fun _ _ _ => trivial⟩

theorem defineAll {e : EnvironmentId} (he : A.environment e) {bs : List (String × Value)}
    (hbs : ∀ b ∈ bs, A.Admits b.2) : (Run.defineAll e bs).Within A fun _ => True :=
  fun _ hs => ⟨hs.defineAll he hbs, fun _ _ _ => trivial⟩

theorem enter {e : EnvironmentId} (he : A.environment e) : (Run.enter e).Within A A.environment := by
  intro s hs
  refine ⟨hs.push he, ?_⟩
  rintro _ _ ⟨⟩
  exact hs.newEnvironment _ (Nat.le_refl _)

theorem allocate {e : EnvironmentId} (he : A.environment e) (name : Token) (params : List Token)
    (body : List Stmt) : (Run.allocate (.declared name params body e)).Within A A.function := by
  intro s hs
  refine ⟨hs.allocate he name params body, ?_⟩
  rintro _ _ ⟨⟩
  exact hs.newFunction _ (Nat.le_refl _)

theorem repeatWhile {condition : Run Value} {body : Run Flow} (hc : condition.Within A A.Admits)
    (hb : body.Within A A.AdmitsFlow) (rounds : Nat) :
    Run.Within A A.AdmitsFlow (repeatWhile condition body rounds) := by
  induction rounds with
  | zero => exact exhaust
  | succ rounds ih =>
    rw [Computation.repeatWhile_succ]
    refine hc.bind fun v _ => ?_
    split
    · refine hb.bind fun flow hflow => ?_
      cases flow with
      | next => exact ih
      | returned v => exact pure hflow
    · exact pure (.next A)

end Run.Within

/-! ### Evaluation -/

section

variable {A : Region}

theorem admits_unary {op : Token} {v w : Value} (h : unaryOperation op v = .ok w) : A.Admits w := by
  unfold unaryOperation at h
  split at h <;> cases h <;> exact nofun

theorem admits_addition {line : UInt32} {l r v : Value} (h : addition line l r = .ok v) :
    A.Admits v := by
  unfold addition at h
  split at h <;> cases h <;> exact nofun

theorem admits_number {op : Token} {x y : Float} {v : Value} (h : numberOperation op x y = .ok v) :
    A.Admits v := by
  unfold numberOperation at h
  split at h
  case h_3 =>
    split at h
    · cases h
    · cases h
      exact nofun
  all_goals
    cases h
    try exact nofun

theorem admits_binary {op : Token} {l r v : Value} (h : binaryOperation op l r = .ok v) :
    A.Admits v := by
  unfold binaryOperation at h
  split at h
  · cases h
    exact nofun
  · cases h
    exact nofun
  · exact admits_addition h
  · exact admits_number h
  · cases h

theorem admits_builtin {readings : Nat → Float} {line : UInt32} {ticks ticks' : Nat} {b : Builtin}
    {args : List Value} {v : Value} (h : b.answer readings line ticks args = .ok (v, ticks')) :
    A.Admits v := by
  unfold Builtin.answer at h
  split at h <;> cases h <;> exact nofun

theorem environment_locate (hglobals : A.environment globals) {env : EnvironmentId}
    (henv : A.environment env) (σ : Setting) (id : UseId) : A.environment (σ.locate env id).1 := by
  unfold Setting.locate
  split
  · exact henv
  · exact hglobals

end

section

variable {A : Region} {σ : Setting} {call : Caller} {rounds : Nat}

/-- Calls keep to the region if the function and the arguments may occur in it. -/
abbrev CallsWithin (A : Region) (call : Caller) : Prop :=
  ∀ f args line, A.Admits f → (∀ v ∈ args, A.Admits v) → (call f args line).Within A A.Admits

mutual

theorem evaluate_within (hglobals : A.environment globals) (hcall : CallsWithin A call)
    {env : EnvironmentId} (henv : A.environment env) :
    ∀ e : Expr, (evaluate σ call env e).Within A A.Admits
  | .literal value => .pure (.literal A value)
  | .group inner => evaluate_within hglobals hcall henv inner
  | .unary _ operand =>
    (evaluate_within hglobals hcall henv operand).bind fun _ _ => .ofExcept fun _ h => admits_unary h
  | .binary left _ right =>
    (evaluate_within hglobals hcall henv left).bind fun _ _ =>
      (evaluate_within hglobals hcall henv right).bind fun _ _ =>
        .ofExcept fun _ h => admits_binary h
  | .logical left _ right =>
    (evaluate_within hglobals hcall henv left).bind fun l hl => by
      split
      · exact .pure hl
      · exact evaluate_within hglobals hcall henv right
  | .use id name => .read (environment_locate hglobals henv σ id) _ name
  | .assign id name value =>
    (evaluate_within hglobals hcall henv value).bind fun v hv =>
      (Run.Within.assign (environment_locate hglobals henv σ id) _ name hv).bind fun _ _ => .pure hv
  | .call callee args paren =>
    (evaluate_within hglobals hcall henv callee).bind fun f hf =>
      (evaluateAll_within hglobals hcall henv args).bind fun vs hvs => hcall f vs paren.line hf hvs

theorem evaluateAll_within (hglobals : A.environment globals) (hcall : CallsWithin A call)
    {env : EnvironmentId} (henv : A.environment env) :
    ∀ es : List Expr, (evaluateAll σ call env es).Within A fun vs => ∀ v ∈ vs, A.Admits v
  | [] => .pure nofun
  | e :: es =>
    (evaluate_within hglobals hcall henv e).bind fun _ hv =>
      (evaluateAll_within hglobals hcall henv es).bind fun _ hvs =>
        .pure (List.forall_mem_cons.2 ⟨hv, hvs⟩)

end

mutual

theorem execute_within (hglobals : A.environment globals) (hcall : CallsWithin A call)
    {env : EnvironmentId} (henv : A.environment env) :
    ∀ s : Stmt, (execute σ call rounds env s).Within A A.AdmitsFlow
  | .expression e => (evaluate_within hglobals hcall henv e).bind fun _ _ => .pure (.next A)
  | .print e =>
    (evaluate_within hglobals hcall henv e).bind fun v _ =>
      (Run.Within.inspect _).bind fun text _ =>
        (Run.Within.write text).bind fun _ _ => (Run.Within.write "\n").bind fun _ _ =>
          .pure (.next A)
  | .var name none =>
    (Run.Within.define henv name.lexeme (v := .nil) nofun).bind fun _ _ => .pure (.next A)
  | .var name (some init) =>
    (evaluate_within hglobals hcall henv init).bind fun _ hv =>
      (Run.Within.define henv name.lexeme hv).bind fun _ _ => .pure (.next A)
  | .block body =>
    (Run.Within.enter henv).bind fun _ hinner => executeAll_within hglobals hcall hinner body
  | .branch condition consequent none =>
    (evaluate_within hglobals hcall henv condition).bind fun v _ => by
      split
      · exact execute_within hglobals hcall henv consequent
      · exact .pure (.next A)
  | .branch condition consequent (some alternative) =>
    (evaluate_within hglobals hcall henv condition).bind fun v _ => by
      split
      · exact execute_within hglobals hcall henv consequent
      · exact execute_within hglobals hcall henv alternative
  | .loop condition body =>
    .repeatWhile (evaluate_within hglobals hcall henv condition)
      (execute_within hglobals hcall henv body) rounds
  | .function name params body =>
    (Run.Within.allocate henv name params body).bind fun f hf =>
      (Run.Within.define henv name.lexeme (v := .function f) (by rintro _ ⟨⟩; exact hf)).bind fun _ _ =>
        .pure (.next A)
  | .ret _ none => .pure (Region.Admits.returned nofun)
  | .ret _ (some value) =>
    (evaluate_within hglobals hcall henv value).bind fun _ hv => .pure hv.returned

theorem executeAll_within (hglobals : A.environment globals) (hcall : CallsWithin A call)
    {env : EnvironmentId} (henv : A.environment env) :
    ∀ ss : List Stmt, (executeAll σ call rounds env ss).Within A A.AdmitsFlow
  | [] => .pure (.next A)
  | s :: ss => (execute_within hglobals hcall henv s).bind fun flow hflow => by
    cases flow with
    | next => exact executeAll_within hglobals hcall henv ss
    | returned v => exact .pure hflow

end

end

theorem call_within {A : Region} (hglobals : A.environment globals) (σ : Setting) (depth : Nat) :
    CallsWithin A (call σ depth) := by
  induction depth with
  | zero => exact fun f args line _ _ => .exhaust
  | succ depth ih =>
    intro f args line hf hargs
    cases f with
    | nil | bool | number | string => exact .fail _
    | function f =>
      intro s hs
      rw [call]
      -- A function that may occur in the region captures an environment of the region.
      have hmade : ∀ e, s.store.captured? (.function f) = some e → A.environment e :=
        fun e he => hs.captured f e (hf f rfl) he
      change ∀ e, (s.store.function? f).bind Function.closure? = some e → A.environment e at hmade
      rw [Computation.bind_done (show Computation.inspect _ s = .done (s.store.function? f) s from rfl)]
      cases hg : s.store.function? f with
      | none => exact Run.Within.fail _ s hs
      | some g =>
        rw [hg] at hmade
        dsimp only
        split
        · exact Run.Within.fail _ s hs
        cases g with
        | native name arity builtin =>
          exact Run.Within.ticking (fun _ _ _ h => admits_builtin h) s hs
        | declared name params body closure =>
          have hclosure : A.environment closure := hmade closure rfl
          -- The body runs in a new environment, which the captured one encloses.
          refine ((Run.Within.enter hclosure).bind fun inner hinner => ?_ :
            Run.Within A A.Admits _) s hs
          have hzip : ∀ b ∈ (params.map Token.lexeme).zip args, A.Admits b.2 :=
            fun b hb => hargs b.2 (List.of_mem_zip hb).2
          refine (Run.Within.defineAll hinner hzip).bind fun _ _ => ?_
          refine (executeAll_within hglobals ih hinner body).bind fun flow hflow => ?_
          cases flow with
          | next => exact .pure nofun
          | returned v => exact .pure (hflow v rfl)

namespace Store

variable {s t : Store} {roots : EnvironmentId → Prop}

/-- What can be reached, and all that is new, with the functions that are made there. -/
def region (s : Store) (roots : EnvironmentId → Prop) : Region where
  environment e := s.Reaches roots e ∨ s.nextEnvironment ≤ e
  function f := ∀ e, s.captured? (.function f) = some e → s.Reaches roots e ∨ s.nextEnvironment ≤ e

theorem closed_region (hglobals : roots globals) : (s.region roots).Closed s where
  globals := .inl (.root hglobals)
  enclosing e e' he hlink := by
    rcases he with he | he
    · exact .inl (he.enclosing hlink)
    · exact absurd he (Nat.not_le_of_lt (lt_of_enclosing? hlink))
  bound e name v he hv := by
    rintro f rfl e' hmade
    -- An environment that is only made later has no bindings yet.
    rcases he with he | he
    · exact .inl (he.captured hv hmade)
    · exact absurd he (Nat.not_le_of_lt (lt_of_binding? (by rw [hv]; rfl)))
  captured f e hf := hf e
  newEnvironment e he := .inr he
  newFunction f hf e hmade := by
    have hnone : s.function? f = none := Array.getElem?_eq_none hf
    simp [captured?, hnone] at hmade

/-- Outside the region are environments that cannot be reached. -/
theorem Spares.of_contains (h : (s.region roots).Contains s t) : s.Spares roots t :=
  fun e he hreach => h.outside e (not_or.2 ⟨hreach, Nat.not_le_of_lt he⟩)

theorem admits_region {v : Value} (h : ∀ e, s.captured? v = some e → roots e) :
    (s.region roots).Admits v := by
  rintro f rfl e hmade
  exact .inl (.root (h e hmade))

end Store

theorem Run.Within.spares {α : Type} {s : State} {roots : EnvironmentId → Prop} {right : α → Prop}
    {x : Run α} (h : x.Within (s.store.region roots) right) (hglobals : roots globals) :
    s.store.Spares roots (x s).state.store :=
  .of_contains (h s (Store.closed_region hglobals)).1

section

variable (σ : Setting) (depth rounds : Nat) (s : State)

theorem evaluate_spares (env : EnvironmentId) (e : Expr) :
    s.store.Spares (fun a => a = env ∨ a = globals)
      (evaluate σ (call σ depth) env e s).state.store := by
  let A := s.store.region fun a => a = env ∨ a = globals
  have hglobals : A.environment globals := .inl (.root (.inr rfl))
  have henv : A.environment env := .inl (.root (.inl rfl))
  have hwithin : (evaluate σ (call σ depth) env e).Within A A.Admits :=
    evaluate_within hglobals (call_within hglobals σ depth) henv e
  exact hwithin.spares (.inr rfl)

theorem execute_spares (env : EnvironmentId) (stmt : Stmt) :
    s.store.Spares (fun a => a = env ∨ a = globals)
      (execute σ (call σ depth) rounds env stmt s).state.store := by
  let A := s.store.region fun a => a = env ∨ a = globals
  have hglobals : A.environment globals := .inl (.root (.inr rfl))
  have henv : A.environment env := .inl (.root (.inl rfl))
  have hwithin : (execute σ (call σ depth) rounds env stmt).Within A A.AdmitsFlow :=
    execute_within hglobals (call_within hglobals σ depth) henv stmt
  exact hwithin.spares (.inr rfl)

theorem call_spares (f : Value) (args : List Value) (line : UInt32) :
    s.store.Spares (fun a => s.store.Captured (f :: args) a ∨ a = globals)
      (call σ depth f args line s).state.store := by
  let A := s.store.region fun a => s.store.Captured (f :: args) a ∨ a = globals
  have hglobals : A.environment globals := .inl (.root (.inr rfl))
  have hadmits : ∀ v ∈ f :: args, A.Admits v := fun v hv =>
    Store.admits_region fun e he => .inl ⟨v, hv, he⟩
  obtain ⟨hf, hargs⟩ := List.forall_mem_cons.1 hadmits
  exact (call_within hglobals σ depth f args line hf hargs).spares (.inr rfl)

/-- A run touches only what it can reach. Whatever the table, the heap and the outcome, an expression or a
statement changes no environment that there was, unless it can be reached from the environment in which it
is executed or from the globals. A call can reach what its function and its arguments capture, and the
globals. So it cannot change the variables of another closure, if what both can reach is reached from the
globals anyway. -/
theorem run_spares :
    (∀ env e, s.store.Spares (fun a => a = env ∨ a = globals)
      (evaluate σ (call σ depth) env e s).state.store) ∧
    (∀ env stmt, s.store.Spares (fun a => a = env ∨ a = globals)
      (execute σ (call σ depth) rounds env stmt s).state.store) ∧
    (∀ f args line, s.store.Spares (fun a => s.store.Captured (f :: args) a ∨ a = globals)
      (call σ depth f args line s).state.store) ∧
    ∀ f args line g,
      (∀ a, s.store.Reaches (s.store.Captured (f :: args)) a →
        s.store.Reaches (s.store.Captured [g]) a → s.store.Reaches (· = globals) a) →
      ∀ a < s.store.nextEnvironment, s.store.Reaches (s.store.Captured [g]) a →
        ¬ s.store.Reaches (· = globals) a →
        (call σ depth f args line s).state.store.environments[a]? = s.store.environments[a]? := by
  refine ⟨evaluate_spares σ depth s, execute_spares σ depth rounds s, call_spares σ depth s, ?_⟩
  intro f args line g hshared a ha hg hglobals
  refine call_spares σ depth s f args line a ha fun hreach => hglobals ?_
  rcases hreach.or with hf | hglobals
  · exact hshared a hf hg
  · exact hglobals

end

/-- A function that counts in an environment of its own. -/
def counting (closure : EnvironmentId) : Function :=
  let name (text : String) : Token := ⟨.identifier, text, none, 1⟩
  let next : Expr := .binary (.use ⟨0⟩ (name "n")) ⟨.plus, "+", none, 1⟩ (.literal (.string "i"))
  .declared (name "count") [] [.expression (.assign ⟨1⟩ (name "n") next)] closure

def counters : Store where
  environments := #[⟨none, []⟩, ⟨some 0, [("n", .string ""), ("count", .function 0)]⟩,
    ⟨some 0, [("n", .string ""), ("count", .function 1)]⟩]
  functions := #[counting 1, counting 2]

theorem enclosing_counters {e e' : EnvironmentId} (h : counters.enclosing? e = some e') :
    e' = globals := by
  rcases e with _ | _ | _ | e
  · cases h
  · exact (Option.some.inj h).symm
  · exact (Option.some.inj h).symm
  · simp [counters, Store.enclosing?] at h

theorem captured_counters {e e' : EnvironmentId} {name : String} {v : Value}
    (h : counters.binding? e name = some v) (hv : counters.captured? v = some e') : e' = e := by
  rcases e with _ | _ | _ | e
  · cases h
  all_goals
    simp only [Store.binding?, counters, List.getElem?_toArray, List.getElem?_cons_succ,
      List.getElem?_cons_zero, Option.bind_some, Bindings.get?_cons, Bindings.get?_nil] at h
  · split_ifs at h <;> cases h
    · cases hv
    · exact (Option.some.inj hv).symm
  · split_ifs at h <;> cases h
    · cases hv
    · exact (Option.some.inj hv).symm
  · cases h

theorem reaches_counters {roots : EnvironmentId → Prop} {e : EnvironmentId}
    (h : counters.Reaches roots e) : roots e ∨ e = globals := by
  induction h with
  | root here => exact .inl here
  | enclosing _ link => exact .inr (enclosing_counters link)
  | captured _ bound made ih => exact captured_counters bound made ▸ ih

theorem run_spares_counters :
    let s : State := ⟨counters, .unlimited, 0⟩
    let σ : Setting := ⟨(∅ : Resolution).insert ⟨0⟩ 1 |>.insert ⟨1⟩ 1, fun _ => 0⟩
    let t := (call σ 9 (.function 0) [] 1 s).state
    t.store.binding? 1 "n" = some (.string "i") ∧
      t.store.environments[2]? = counters.environments[2]? := by
  intro s σ t
  have hspares := (run_spares σ 9 9 s).2.2.2 (.function 0) [] 1 (.function 1)
  refine ⟨by decide +kernel, hspares ?_ 2 (by decide +kernel)
    (.root ⟨.function 1, List.mem_cons_self, rfl⟩) ?_⟩
  · intro a hf hg
    rcases reaches_counters hf with ⟨v, hv, hfirst⟩ | rfl
    · rcases reaches_counters hg with ⟨w, hw, hsecond⟩ | rfl
      · cases List.mem_singleton.1 hv
        cases List.mem_singleton.1 hw
        have hone : 1 = a := Option.some.inj hfirst
        have htwo : 2 = a := Option.some.inj hsecond
        exact absurd (hone.trans htwo.symm) (by decide)
      · exact .root rfl
    · exact .root rfl
  · intro h
    rcases reaches_counters h with h | h <;> cases h

end Lox
