import Lox.Proofs.Cause.Operations

/-! Faults have causes.
While a program runs every value that is bound exists, and every function that is declared has its body
in a program. So whatever is at fault, the run names an expression of a program whose operands cause the
fault (`runProgram_ends`). The invariant is kept by every part of a run, by induction on the tree and on
the depth of calls. -/
namespace Lox

def Store.made (s : Store) : Region := ⟨fun _ => True, fun f => (s.function? f).isSome⟩

def Store.Sound (s : Store) : Prop := ∀ e name v, s.binding? e name = some v → s.made.Admits v

namespace Store

variable {s t : Store} {A : EnvironmentId → Prop} {v : Value}

theorem Grows.any (h : s.Grows A t) : s.Grows (fun _ => True) t :=
  (Grows.refl s).trans h fun _ _ _ => trivial

theorem Grows.admits (h : s.Grows A t) (hv : s.made.Admits v) : t.made.Admits v := by
  intro f hf
  obtain ⟨g, hg⟩ := Option.isSome_iff_exists.1 (hv f hf)
  exact Option.isSome_iff_exists.2 ⟨g, h.function f g hg⟩

theorem Sound.define (h : s.Sound) (e : EnvironmentId) (name : String) (hv : s.made.Admits v) :
    (s.define e name v).Sound := by
  intro e' n u hu
  rw [binding?_define] at hu
  split at hu
  · cases hu
    exact hv
  · exact h e' n u hu

theorem Sound.defineAll (h : s.Sound) (e : EnvironmentId) {bs : List (String × Value)}
    (hbs : ∀ b ∈ bs, s.made.Admits b.2) :
    (s.defineAll e bs).Sound ∧ (s.defineAll e bs).functions = s.functions := by
  induction bs generalizing s with
  | nil => exact ⟨h, rfl⟩
  | cons b bs ih =>
    obtain ⟨hb, hrest⟩ := List.forall_mem_cons.1 hbs
    exact ih (h.define e b.1 hb) hrest

theorem Sound.push (h : s.Sound) (p : Option EnvironmentId) : (s.push p).Sound := by
  intro e name v hv
  rw [binding?_push] at hv
  exact h e name v hv

theorem Sound.allocate (h : s.Sound) (g : Function) : (s.allocate g).2.Sound := fun e name v hv =>
  (s.grows_allocate g).admits (h e name v hv)

end Store

theorem Run.read_cases (e : EnvironmentId) (depth : Nat) (name : Token) (s : State) :
    (∃ a v, s.store.binding? a name.lexeme = some v ∧ read e depth name s = .done v s) ∨
      read e depth name s = .failed (.fault name.line (.undefinedVariable name.lexeme)) s := by
  unfold read Store.read
  cases hv : (s.store.ancestor? e depth).bind fun a => s.store.binding? a name.lexeme with
  | none => exact .inr rfl
  | some v =>
    obtain ⟨a, -, ha⟩ := Option.bind_eq_some_iff.1 hv
    exact .inl ⟨a, v, ha, rfl⟩

namespace Blame

abbrev Traced.store (s : Traced) : Store := s.state.store

section

variable (stands : Nat → Expr → Prop)

/-- All bound values exist. Of the functions that there are, the root is what it is at the start of every
session, and those that are declared have bodies whose expressions stand in the program that declared
them. -/
structure Accounted (s : Traced) : Prop where
  sound : s.store.Sound
  root : ∀ f name arity, s.store.function? f = some (.native name arity .sqrt) →
    name = "sqrt" ∧ arity = 1
  declared : ∀ f name params body closure,
    s.store.function? f = some (.declared name params body closure) →
      ∀ n ∈ Stmt.allNodes body, stands (s.origin f) n

/-- The same, and nothing is at fault so far. -/
structure Clean (s : Traced) : Prop extends Accounted stands s where
  innocent : s.culprit = none

variable {α : Type} (due : UInt32 → RuntimeFault → Store → Prop) (Q : α → Store → Prop)

/-- How a traced run that starts clean ends. A fault either has a culprit already, which explains it and
stands in its program, or is one that is due to be blamed on somebody. -/
inductive Ends (s : Traced) : Result Traced α → Prop
  | done {a : α} {t : Traced} (clean : Clean stands t) (grows : s.store.Grows (fun _ => True) t.store)
    (holds : Q a t.store) : Ends s (.done a t)
  | told {line : UInt32} {cause : RuntimeFault} {t : Traced} {c : Culprit}
    (accounted : Accounted stands t) (named : t.culprit = some c) (stands : stands c.program c.expr)
    (explains : c.Explains t.store line cause) : Ends s (.failed (.fault line cause) t)
  | due {line : UInt32} {cause : RuntimeFault} {t : Traced} (clean : Clean stands t)
    (due : due line cause t.store) : Ends s (.failed (.fault line cause) t)
  | output {words : String} {t : Traced} (accounted : Accounted stands t) :
    Ends s (.failed (@RuntimeError.output words) t)
  | unfinished {t : Traced} (accounted : Accounted stands t) : Ends s (.unfinished t)

end

namespace Ends

variable {stands : Nat → Expr → Prop} {due : UInt32 → RuntimeFault → Store → Prop}
  {α β : Type} {Q : α → Store → Prop} {R : β → Store → Prop} {s : Traced}

protected theorem pure {a : α} (hs : Clean stands s) (h : Q a s.store) :
    Ends stands due Q s ((Pure.pure a : Run α) s) := .done hs (.refl _) h

theorem accounted {r : Result Traced α} (h : Ends stands due Q s r) : Accounted stands r.state := by
  cases h with
  | done clean | due clean => exact clean.toAccounted
  | told accounted | output accounted | unfinished accounted => exact accounted

theorem mono {due' : UInt32 → RuntimeFault → Store → Prop} {Q' : α → Store → Prop} {t : Traced}
    {r : Result Traced α} (h : Ends stands due Q t r)
    (hgrows : s.store.Grows (fun _ => True) t.store)
    (hdue : ∀ line cause t, due line cause t → due' line cause t) (hQ : ∀ a t, Q a t → Q' a t) :
    Ends stands due' Q' s r := by
  cases h with
  | done clean grows holds =>
    exact .done clean (hgrows.trans grows fun _ _ _ => trivial) (hQ _ _ holds)
  | told accounted named stands explains => exact .told accounted named stands explains
  | due clean due => exact .due clean (hdue _ _ _ due)
  | output accounted => exact .output accounted
  | unfinished accounted => exact .unfinished accounted

theorem later {t : Traced} {r : Result Traced α} (h : Ends stands due Q t r)
    (hgrows : s.store.Grows (fun _ => True) t.store) : Ends stands due Q s r :=
  h.mono hgrows (fun _ _ _ h => h) fun _ _ h => h

theorem bind {x : Run α} {f : α → Run β} (hx : Ends stands due Q s (x s))
    (hf : ∀ a t, Clean stands t → s.store.Grows (fun _ => True) t.store → Q a t.store →
      Ends stands due R t (f a t)) : Ends stands due R s ((x >>= f) s) := by
  rw [Computation.bind_apply]
  generalize x s = r at hx ⊢
  cases hx with
  | done clean grows holds => exact (hf _ _ clean grows holds).later grows
  | told accounted named stands explains => exact .told accounted named stands explains
  | due clean due => exact .due clean due
  | output accounted => exact .output accounted
  | unfinished accounted => exact .unfinished accounted

theorem quiet {x : Run α} (hx : Ends stands due Q s (x s)) :
    Ends stands due Q s ((Observer.note (fun _ culprit => culprit) >>= fun _ => x) s) := hx

/-- What is seen of the state is passed on. -/
theorem look {h : Traced → α} {f : α → Run β} (hf : Ends stands due R s (f (h s) s)) :
    Ends stands due R s ((Computation.inspect h >>= f) s) := hf

theorem ofExcept {x : Except RuntimeError α} (hs : Clean stands s) (hq : ∀ a, x = .ok a → Q a s.store)
    (hdue : ∀ line cause, x = .error (.fault line cause) → due line cause s.store) :
    Ends stands due Q s (Computation.ofExcept x s) := by
  cases x with
  | ok a => exact .pure hs (hq a rfl)
  | error e =>
    cases e with
    | fault line cause => exact .due hs (hdue line cause rfl)
    | output => exact .output hs.toAccounted

theorem blame {c : Culprit} {x : Run α} (hstands : stands c.program c.expr)
    (hx : Ends stands (fun line cause t => c.Explains t line cause) Q s (x s)) :
    Ends stands due Q s (Blame.blame c x s) := by
  unfold Blame.blame Observer.onFault
  generalize x s = r at hx ⊢
  cases hx with
  | done clean grows holds => exact .done clean grows holds
  | @told line cause t c' accounted named stands' explains =>
    refine .told ⟨accounted.sound, accounted.root, accounted.declared⟩ ?_ stands' explains
    show t.culprit.or (some c) = some c'
    rw [named, Option.some_or]
  | @due line cause t clean explains =>
    refine .told ⟨clean.sound, clean.root, clean.declared⟩ ?_ hstands explains
    show t.culprit.or (some c) = some c
    rw [clean.innocent, Option.none_or]
  | output accounted => exact .output accounted
  | unfinished accounted => exact .unfinished accounted

theorem repeatWhile {condition : Run Value} {body : Run Flow}
    (hc : ∀ t, Clean stands t → Ends stands due (fun _ _ => True) t (condition t))
    (hb : ∀ t, Clean stands t → Ends stands due (fun flow t => t.made.AdmitsFlow flow) t (body t))
    (rounds : Nat) (hs : Clean stands s) : Ends stands due (fun flow t => t.made.AdmitsFlow flow) s
      (Lox.repeatWhile condition body rounds s) := by
  induction rounds generalizing s with
  | zero => exact .unfinished hs.toAccounted
  | succ rounds ih =>
    rw [Computation.repeatWhile_succ]
    refine (hc s hs).bind fun v t ht _ _ => ?_
    split
    · refine (hb t ht).bind fun flow u hu _ hflow => ?_
      cases flow with
      | next => exact ih hu
      | returned v => exact .pure hu hflow
    · exact .pure ht (Region.AdmitsFlow.next _)

end Ends

section

variable {stands : Nat → Expr → Prop} {due : UInt32 → RuntimeFault → Store → Prop}
  {α : Type} {Q : α → Store → Prop} {s : Traced}

/-- What is at fault is forgotten when another program is run. -/
theorem Accounted.restart {stands' : Nat → Expr → Prop} (h : Accounted stands s)
    (himp : ∀ program n, stands program n → ∀ program', stands' program' n)
    (origin : FunctionId → Nat) : Clean stands' ⟨s.state, origin, none⟩ where
  sound := h.sound
  root := h.root
  declared f name params body closure hf n hn :=
    himp _ n (h.declared f name params body closure hf n hn) _
  innocent := rfl

theorem Clean.step {state : State} (hs : Clean stands s) (hsound : state.store.Sound)
    (hfunctions : state.store.functions = s.store.functions) : Clean stands { s with state } := by
  have hfunction (f : FunctionId) : state.store.function? f = s.store.function? f := by
    rw [Store.function?, hfunctions, Store.function?]
  refine ⟨⟨hsound, ?_, ?_⟩, hs.innocent⟩
  · intro f name arity hf
    exact hs.root f name arity ((hfunction f).symm.trans hf)
  · intro f name params body closure hf
    exact hs.declared f name params body closure ((hfunction f).symm.trans hf)

namespace Ends

theorem lift {x : Lox.Run α} (hs : Clean stands s)
    (hgrows : s.store.Grows (fun _ => True) (x s.state).state.store)
    (hsound : (x s.state).state.store.Sound)
    (hfunctions : (x s.state).state.store.functions = s.store.functions)
    (hq : ∀ a t, x s.state = .done a t → Q a t.store)
    (hdue : ∀ line cause t, x s.state = .failed (.fault line cause) t → due line cause t.store) :
    Ends stands due Q s (Observer.lift x s) := by
  have hclean := hs.step hsound hfunctions
  unfold Observer.lift
  cases hx : x s.state with
  | done a t =>
    rw [hx] at hclean hgrows
    exact .done hclean hgrows (hq a t hx)
  | failed e t =>
    rw [hx] at hclean
    cases e with
    | fault line cause => exact .due hclean (hdue line cause t hx)
    | output => exact .output hclean.toAccounted
  | unfinished t =>
    rw [hx] at hclean
    exact .unfinished hclean.toAccounted

theorem observe {x : Lox.Run α} (hs : Clean stands s) (hstore : (x s.state).state.store = s.store)
    (hq : ∀ a t, x s.state = .done a t → Q a t.store)
    (hdue : ∀ line cause t, x s.state = .failed (.fault line cause) t → due line cause t.store) :
    Ends stands due Q s (Observer.lift x s) :=
  .lift hs (hstore ▸ .refl _) (hstore ▸ hs.sound) (congrArg Store.functions hstore) hq hdue

theorem write (hs : Clean stands s) (text : String) :
    Ends stands due (fun _ _ => True) s (Observer.lift (.write text) s) := by
  refine .observe hs ?_ (fun _ _ _ => trivial) fun line cause t h => ?_
  · unfold Run.write
    split <;> rfl
  · unfold Run.write at h
    split at h <;> cases h

theorem read {program : Nat} {id : UseId} {e : EnvironmentId} {depth : Nat} {name : Token}
    (hs : Clean stands s) :
    Ends stands (fun line cause t => Culprit.Explains ⟨program, .use id name, []⟩ t line cause)
      (fun v t => t.made.Admits v) s (Observer.lift (.read e depth name) s) := by
  unfold Observer.lift
  rcases Run.read_cases e depth name s.state with ⟨a, v, hv, hread⟩ | hread
  · rw [hread]
    exact .pure hs (hs.sound a name.lexeme v hv)
  · rw [hread]
    exact .due hs ⟨rfl, .use⟩

theorem assign {program : Nat} {id : UseId} {e : EnvironmentId} {depth : Nat} {name : Token}
    {value : Expr} {v : Value} (hs : Clean stands s) (hv : s.store.made.Admits v) :
    Ends stands (fun line cause t => Culprit.Explains ⟨program, .assign id name value, [v]⟩ t line cause)
      (fun _ _ => True) s (Observer.lift (.assign e depth name v) s) := by
  unfold Observer.lift Run.assign
  cases s.state.store.owner? e depth name.lexeme with
  | some a =>
    have hsound := hs.sound.define a name.lexeme hv
    exact .done (hs.step hsound rfl) (s.store.grows_define a name.lexeme v).any trivial
  | none => exact .due hs ⟨rfl, .assign⟩

theorem define {e : EnvironmentId} {name : String} {v : Value} (hs : Clean stands s)
    (hv : s.store.made.Admits v) :
    Ends stands due (fun _ _ => True) s (Observer.lift (.define e name v) s) :=
  .lift hs (s.store.grows_define e name v).any (hs.sound.define e name hv) rfl
    (fun _ _ _ => trivial) nofun

theorem defineAll {e : EnvironmentId} {bs : List (String × Value)} (hs : Clean stands s)
    (hbs : ∀ b ∈ bs, s.store.made.Admits b.2) :
    Ends stands due (fun _ _ => True) s (Observer.lift (.defineAll e bs) s) :=
  have ⟨hsound, hfunctions⟩ := hs.sound.defineAll e hbs
  .lift hs (Run.grows_defineAll e bs s.state).any hsound hfunctions (fun _ _ _ => trivial) nofun

theorem enter {e : EnvironmentId} (hs : Clean stands s) :
    Ends stands due (fun _ _ => True) s (Observer.lift (.enter e) s) :=
  .lift hs (s.store.grows_push (some e)).weaken (hs.sound.push (some e)) rfl (fun _ _ _ => trivial) nofun

/-- Declaring a function whose body stands in the program. The origin is noted before the name is bound,
so that nothing can call the function in between. -/
theorem declareFunction {program : Nat} {env : EnvironmentId} {name : Token} {params : List Token}
    {body : List Stmt} (hs : Clean stands s) (hbody : ∀ n ∈ Stmt.allNodes body, stands program n) :
    Ends stands due (fun flow t => t.made.AdmitsFlow flow) s ((do
      let f ← Observer.lift (.allocate (.declared name params body env))
      Observer.keep f program
      Observer.lift (.define env name.lexeme (.function f))
      pure .next : Run Flow) s) := by
  generalize hg : Function.declared name params body env = g
  let f := s.store.functions.size
  let t : Traced := { s with
    state := { s.state with store := (s.store.allocate g).2 }
    kept := fun k => if k = f then program else s.origin k }
  have hgrows := s.store.grows_allocate g
  have ht : Clean stands t := by
    refine ⟨⟨hs.sound.allocate g, ?_, ?_⟩, hs.innocent⟩
    · intro k n arity hk
      change (s.store.allocate g).2.function? k = _ at hk
      rw [Store.function?_allocate] at hk
      split at hk
      · rw [← hg] at hk
        cases hk
      · exact hs.root k n arity hk
    · intro k n ps b c hk
      change (s.store.allocate g).2.function? k = _ at hk
      rw [Store.function?_allocate] at hk
      change ∀ n ∈ _, stands (if k = f then program else s.origin k) n
      split at hk
      · next heq =>
        rw [← hg] at hk
        cases hk
        rwa [if_pos heq]
      · next hne =>
        rw [if_neg hne]
        exact hs.declared k n ps b c hk
  have hf : t.store.made.Admits (.function f) := by
    rintro _ ⟨⟩
    show ((s.store.allocate g).2.function? f).isSome
    rw [Store.function?_allocate, if_pos rfl]
    rfl
  have hend : Ends stands due (fun flow t => t.made.AdmitsFlow flow) t
      ((Observer.lift (.define env name.lexeme (.function f)) >>= fun _ => pure .next : Run Flow) t) :=
    (define ht hf).bind fun _ _ hu _ _ => .pure hu (Region.AdmitsFlow.next _)
  exact hend.later hgrows.weaken

end Ends

end

section

variable {stands : Nat → Expr → Prop} {due : UInt32 → RuntimeFault → Store → Prop} {σ : Setting}
  {call : Value → List Value → UInt32 → Run Value} {program rounds : Nat}

/-- A call has a value, or what it refuses is due to be blamed on the expression that calls. -/
abbrev CallsEnd (stands : Nat → Expr → Prop) (call : Value → List Value → UInt32 → Run Value) : Prop :=
  ∀ f args line s, Clean stands s → s.store.made.Admits f → (∀ v ∈ args, s.store.made.Admits v) →
    Ends stands (fun line' cause t => line' = line ∧ t.Refuses f args cause)
      (fun v t => t.made.Admits v) s (call f args line s)

mutual

theorem evaluate_ends (hop : ∀ program n, stands program n → n.Operates) (hcall : CallsEnd stands call)
    (env : EnvironmentId) : ∀ (e : Expr) {s : Traced}, (∀ n ∈ e.nodes, stands program n) →
    Clean stands s → Ends stands due (fun v t => t.made.Admits v) s (evaluate σ call program env e s)
  | .literal value, _, _, hs => .quiet (.pure hs (Region.Admits.literal _ value))
  | .group inner, _, h, hs =>
    .quiet (evaluate_ends hop hcall env inner (List.forall_mem_cons.1 h).2 hs)
  | .unary op operand, _, h, hs => by
    obtain ⟨he, hoperand⟩ := List.forall_mem_cons.1 h
    refine .quiet ((evaluate_ends hop hcall env operand hoperand hs).bind fun v t ht _ _ => ?_)
    refine .blame he (.ofExcept ht (fun w hw => admits_unary hw) fun line cause herror => ?_)
    exact explains_unary (hop program _ he) herror
  | .binary left op right, _, h, hs => by
    obtain ⟨he, h⟩ := List.forall_mem_cons.1 h
    obtain ⟨hleft, hright⟩ := List.forall_mem_append.1 h
    refine .quiet ((evaluate_ends hop hcall env left hleft hs).bind fun l t ht _ _ => ?_)
    refine (evaluate_ends hop hcall env right hright ht).bind fun r u hu _ _ => ?_
    refine .blame he (.ofExcept hu (fun w hw => admits_binary hw) fun line cause herror => ?_)
    exact explains_binary (hop program _ he) herror
  | .logical left op right, _, h, hs => by
    obtain ⟨hleft, hright⟩ := List.forall_mem_append.1 (List.forall_mem_cons.1 h).2
    refine .quiet ((evaluate_ends hop hcall env left hleft hs).bind fun l t ht _ hl => ?_)
    split
    · exact .pure ht hl
    · exact evaluate_ends hop hcall env right hright ht
  | .use id name, _, h, hs => .quiet (.blame (List.forall_mem_cons.1 h).1 (.read hs))
  | .assign id name value, _, h, hs => by
    obtain ⟨he, hvalue⟩ := List.forall_mem_cons.1 h
    refine .quiet ((evaluate_ends hop hcall env value hvalue hs).bind fun v t ht _ hv => ?_)
    refine .quiet ((Ends.blame he (.assign ht hv)).bind fun _ u hu hgrows _ => ?_)
    exact .pure hu (hgrows.admits hv)
  | .call callee args paren, _, h, hs => by
    obtain ⟨he, h⟩ := List.forall_mem_cons.1 h
    obtain ⟨hcallee, hargs⟩ := List.forall_mem_append.1 h
    refine .quiet ((evaluate_ends hop hcall env callee hcallee hs).bind fun f t ht _ hf => ?_)
    refine (evaluateAll_ends hop hcall env args hargs ht).bind fun vs u hu hgrows hvs => ?_
    obtain ⟨hcount, hvs⟩ := hvs
    refine .blame he ((hcall f vs paren.line u hu (hgrows.admits hf) hvs).mono (.refl _) ?_ fun _ _ h => h)
    rintro _ cause v ⟨rfl, hrefuses⟩
    exact ⟨rfl, .call hcount hrefuses⟩

theorem evaluateAll_ends (hop : ∀ program n, stands program n → n.Operates)
    (hcall : CallsEnd stands call) (env : EnvironmentId) : ∀ (es : List Expr) {s : Traced},
    (∀ n ∈ Expr.allNodes es, stands program n) → Clean stands s →
    Ends stands due (fun vs t => vs.length = es.length ∧ ∀ v ∈ vs, t.made.Admits v) s
      (evaluateAll σ call program env es s)
  | [], _, _, hs => .pure hs ⟨rfl, nofun⟩
  | e :: es, _, h, hs => by
    obtain ⟨he, hes⟩ := List.forall_mem_append.1 h
    refine (evaluate_ends hop hcall env e he hs).bind fun v t ht _ hv => ?_
    refine (evaluateAll_ends hop hcall env es hes ht).bind fun vs u hu hgrows hvs => ?_
    obtain ⟨hcount, hvs⟩ := hvs
    exact .pure hu ⟨congrArg (· + 1) hcount, List.forall_mem_cons.2 ⟨hgrows.admits hv, hvs⟩⟩

end

mutual

theorem execute_ends (hop : ∀ program n, stands program n → n.Operates) (hcall : CallsEnd stands call) :
    ∀ (st : Stmt) (env : EnvironmentId) {s : Traced}, (∀ n ∈ st.nodes, stands program n) →
    Clean stands s → Ends stands due (fun flow t => t.made.AdmitsFlow flow) s
      (execute σ call program rounds env st s)
  | .expression e, env, _, h, hs =>
    .quiet ((evaluate_ends hop hcall env e h hs).bind fun _ _ ht _ _ =>
      .pure ht (Region.AdmitsFlow.next _))
  | .print e, env, _, h, hs =>
    .quiet ((evaluate_ends hop hcall env e h hs).bind fun v _ ht _ _ =>
      .look ((Ends.write ht _).bind fun _ _ hu _ _ => (Ends.write hu "\n").bind fun _ _ hw _ _ =>
        .pure hw (Region.AdmitsFlow.next _)))
  | .var name none, env, _, _, hs =>
    .quiet ((Ends.define (v := .nil) hs nofun).bind fun _ _ ht _ _ =>
      .pure ht (Region.AdmitsFlow.next _))
  | .var name (some init), env, _, h, hs =>
    .quiet ((evaluate_ends hop hcall env init h hs).bind fun _ _ ht _ hv =>
      (Ends.define ht hv).bind fun _ _ hu _ _ => .pure hu (Region.AdmitsFlow.next _))
  | .block body, env, _, h, hs =>
    .quiet ((Ends.enter hs).bind fun inner _ ht _ _ => executeAll_ends hop hcall body inner h ht)
  | .branch condition consequent none, env, _, h, hs => by
    obtain ⟨hcondition, hconsequent⟩ := List.forall_mem_append.1 h
    refine .quiet ((evaluate_ends hop hcall env condition hcondition hs).bind fun v t ht _ _ => ?_)
    split
    · exact execute_ends hop hcall consequent env hconsequent ht
    · exact .pure ht (Region.AdmitsFlow.next _)
  | .branch condition consequent (some alternative), env, _, h, hs => by
    obtain ⟨hcondition, h⟩ := List.forall_mem_append.1 h
    obtain ⟨hconsequent, halternative⟩ := List.forall_mem_append.1 h
    refine .quiet ((evaluate_ends hop hcall env condition hcondition hs).bind fun v t ht _ _ => ?_)
    split
    · exact execute_ends hop hcall consequent env hconsequent ht
    · exact execute_ends hop hcall alternative env halternative ht
  | .loop condition body, env, _, h, hs => by
    obtain ⟨hcondition, hbody⟩ := List.forall_mem_append.1 h
    refine .quiet (.repeatWhile (fun t ht => ?_) (fun t ht => ?_) rounds hs)
    · exact (evaluate_ends hop hcall env condition hcondition ht).mono (.refl _) (fun _ _ _ h => h)
        fun _ _ _ => trivial
    · exact execute_ends hop hcall body env hbody ht
  | .function name params body, env, _, h, hs => .quiet (.declareFunction hs h)
  | .ret _ none, _, _, _, hs => .quiet (.pure hs (Region.Admits.returned nofun))
  | .ret _ (some value), env, _, h, hs =>
    .quiet ((evaluate_ends hop hcall env value h hs).bind fun _ _ ht _ hv => .pure ht hv.returned)

theorem executeAll_ends (hop : ∀ program n, stands program n → n.Operates)
    (hcall : CallsEnd stands call) : ∀ (ss : List Stmt) (env : EnvironmentId) {s : Traced},
    (∀ n ∈ Stmt.allNodes ss, stands program n) → Clean stands s →
    Ends stands due (fun flow t => t.made.AdmitsFlow flow) s
      (executeAll σ call program rounds env ss s)
  | [], _, _, _, hs => .pure hs (Region.AdmitsFlow.next _)
  | st :: ss, env, _, h, hs => by
    obtain ⟨hst, hss⟩ := List.forall_mem_append.1 h
    refine (execute_ends hop hcall st env hst hs).bind fun flow t ht _ hflow => ?_
    cases flow with
    | next => exact executeAll_ends hop hcall ss env hss ht
    | returned v => exact .pure ht hflow

end

end

/-- Calls nested at any depth. -/
theorem call_ends {stands : Nat → Expr → Prop} (hop : ∀ program n, stands program n → n.Operates)
    (σ : Setting) (depth : Nat) : CallsEnd stands (call σ depth) := by
  induction depth with
  | zero => exact fun _ _ _ _ hs _ _ => .unfinished hs.toAccounted
  | succ depth ih =>
    intro f args line s hs hf hargs
    cases f with
    | nil | bool | number | string => exact .due hs ⟨rfl, .notCallable nofun⟩
    | function f =>
      obtain ⟨g, hg⟩ := Option.isSome_iff_exists.1 (hf f rfl)
      refine .look ?_
      rw [hg]
      dsimp only
      split
      · next hcount => exact .due hs ⟨rfl, .arity hg (Ne.symm hcount)⟩
      next hcount =>
      cases g with
      | native name arity builtin =>
        refine .observe hs ?_ (fun v t h => ?_) fun line cause t h => ?_
        · unfold Run.ticking
          split <;> rfl
        · unfold Run.ticking at h
          split at h
          · next hanswer =>
            cases h
            exact admits_builtin hanswer
          · cases h
        · unfold Run.ticking at h
          split at h
          · cases h
          · next hanswer =>
            cases h
            have hroot : builtin = .sqrt → name = "sqrt" ∧ arity = 1 := by
              rintro rfl
              exact hs.root f name arity hg
            exact refuses_builtin hg hroot (Decidable.not_not.1 hcount) hanswer
      | declared name params body closure =>
        refine .look ?_
        refine (Ends.enter hs).bind fun env t ht hgrows _ => ?_
        have hzip : ∀ b ∈ (params.map Token.lexeme).zip args, t.store.made.Admits b.2 :=
          fun b hb => hgrows.admits (hargs b.2 (List.of_mem_zip hb).2)
        refine (Ends.defineAll ht hzip).bind fun _ u hu _ _ => ?_
        have hbody := hs.declared f name params body closure hg
        refine (executeAll_ends hop ih body env hbody hu).bind fun flow v hv _ hflow => ?_
        cases flow with
        | next => exact .pure hv nofun
        | returned w => exact .pure hv (hflow w rfl)

/-- However a program ends, a fault is explained by an expression of a program. -/
theorem runProgram_ends {stands : Nat → Expr → Prop} (hop : ∀ program n, stands program n → n.Operates)
    (σ : Setting) (budget program : Nat) : ∀ (p : Program) {s : Traced},
    (∀ n ∈ p.nodes, stands program n) → Clean stands s →
    Ends stands (fun _ _ _ => False) (fun _ _ => True) s (runProgram σ budget program p s)
  | [], _, _, hs => .pure hs trivial
  | st :: p, _, h, hs => by
    obtain ⟨hst, hp⟩ := List.forall_mem_append.1 h
    refine (execute_ends hop (call_ends hop σ budget) st globals hst hs).bind fun _ t ht _ _ => ?_
    exact runProgram_ends hop σ budget program p hp ht

end Blame
end Lox
