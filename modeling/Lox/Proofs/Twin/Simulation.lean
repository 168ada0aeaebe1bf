import Lox.Proofs.Blame
import Lox.Proofs.Growth
import Lox.Proofs.Twin.Resolution

/-! Runs of twins.
Twin programs, run on the same environments, print the same and end in the same way, at tokens that
are alike (`runProgram_agrees`). On the left the run is traced, so that it is known which token failed
and which program the token belongs to. -/
namespace Lox

open Blame (Traced Culprit)

theorem Store.ancestor?_congr {s s' : Store} (h : s.environments = s'.environments)
    (e : EnvironmentId) (depth : Nat) : s.ancestor? e depth = s'.ancestor? e depth := by
  induction depth generalizing e with
  | zero => rfl
  | succ depth ih =>
    have henclosing : s.enclosing? e = s'.enclosing? e := by rw [enclosing?, h, enclosing?]
    rw [ancestor?, ancestor?, henclosing]
    exact congrArg _ (funext ih)

theorem Store.owner?_congr {s s' : Store} (h : s.environments = s'.environments)
    (e : EnvironmentId) (depth : Nat) (name : String) :
    s.owner? e depth name = s'.owner? e depth name := by
  have hbinding (a : EnvironmentId) : s.binding? a name = s'.binding? a name := by
    rw [binding?, h, binding?]
  unfold owner?
  rw [ancestor?_congr h, funext fun a => congrArg Option.isSome (hbinding a)]

theorem Store.read_congr {s s' : Store} (h : s.environments = s'.environments)
    (e : EnvironmentId) (depth : Nat) (name : String) :
    ((s.ancestor? e depth).bind fun a => s.binding? a name) =
      (s'.ancestor? e depth).bind fun a => s'.binding? a name := by
  have hbinding (a : EnvironmentId) : s.binding? a name = s'.binding? a name := by
    rw [binding?, h, binding?]
  rw [ancestor?_congr h, funext hbinding]

inductive SameAnswer {α : Type} (line line' : UInt32) :
    Except RuntimeError α → Except RuntimeError α → Prop
  | ok (a : α) : SameAnswer line line' (.ok a) (.ok a)
  | error (cause : RuntimeFault) :
    SameAnswer line line' (.error (.fault line cause)) (.error (.fault line' cause))

theorem sameAnswer_unary {op op' : Token} (h : op'.kind = op.kind) (v : Value) :
    SameAnswer op.line op'.line (unaryOperation op v) (unaryOperation op' v) := by
  unfold unaryOperation
  rw [h]
  split
  · exact .ok _
  · exact .ok _
  · exact .error _

theorem sameAnswer_addition (line line' : UInt32) (l r : Value) :
    SameAnswer line line' (addition line l r) (addition line' l r) := by
  unfold addition
  split
  · exact .ok _
  · exact .ok _
  · exact .ok _
  · exact .ok _
  · exact .error _

theorem sameAnswer_number {op op' : Token} (h : op'.kind = op.kind) (x y : Float) :
    SameAnswer op.line op'.line (numberOperation op x y) (numberOperation op' x y) := by
  unfold numberOperation
  rw [h]
  split
  · exact .ok _
  · exact .ok _
  · split
    · exact .error _
    · exact .ok _
  · exact .ok _
  · exact .ok _
  · exact .ok _
  · exact .ok _
  · exact .error _

theorem sameAnswer_binary {op op' : Token} (h : op'.kind = op.kind) (l r : Value) :
    SameAnswer op.line op'.line (binaryOperation op l r) (binaryOperation op' l r) := by
  unfold binaryOperation
  rw [h]
  split
  · exact .ok _
  · exact .ok _
  · exact sameAnswer_addition _ _ _ _
  · exact sameAnswer_number h _ _
  · exact .error _

theorem sameAnswer_builtin (readings : Nat → Float) (line line' : UInt32) (ticks : Nat) (b : Builtin)
    (args : List Value) :
    SameAnswer line line' (b.answer readings line ticks args) (b.answer readings line' ticks args) := by
  unfold Builtin.answer
  split
  · exact .ok _
  · exact .ok _
  · exact .error _

/-- What two sides that are run have in common: the left with its table, the right with its own. -/
structure Pairing where
  groupless : Prop
  /-- Which tokens are alike in the program with this number. -/
  token : Nat → Token → Token → Prop
  use : UseId → UseId → Prop
  left : Resolution
  right : Resolution

namespace Pairing

variable (B : Pairing)

def likeness (program : Nat) : Likeness := ⟨B.groupless, B.token program, B.use⟩

structure Lawful : Prop where
  likeness : ∀ program, (B.likeness program).Lawful
  use : ∀ id id', B.use id id' → B.left[id]? = B.right[id']?

/-- Functions that are built in, or twins of the program with this number. -/
inductive SameFunction (program : Nat) : Function → Function → Prop
  | native (name : String) (arity : Nat) (builtin : Builtin) :
    SameFunction program (.native name arity builtin) (.native name arity builtin)
  | declared {name name' : Token} {params params' : List Token} {body body' : List Stmt}
    (closure : EnvironmentId) (token : B.token program name name')
    (tokens : List.Forall₂ (B.token program) params params')
    (all : Stmt.AllTwin (B.likeness program) body body') :
    SameFunction program (.declared name params body closure) (.declared name' params' body' closure)

structure Related (s : Traced) (t : State) : Prop where
  environments : s.state.store.environments = t.store.environments
  count : s.state.store.functions.size = t.store.functions.size
  function : ∀ f g, s.state.store.function? f = some g →
    ∃ h, t.store.function? f = some h ∧ B.SameFunction (s.origin f) g h
  sink : s.state.sink = t.sink
  ticks : s.state.ticks = t.ticks

/-- A culprit is named, and the lines are those of its token on both sides. -/
inductive Named : Option Culprit → UInt32 → UInt32 → Prop
  | culprit (culprit : Culprit) {token token' : Token} (mark : culprit.expr.mark? = some token)
    (alike : B.token culprit.program token token') : Named (some culprit) token.line token'.line

variable {B} in
theorem Named.line_eq {culprit : Option Culprit} {line line' : UInt32}
    (h : B.Named culprit line line') (htoken : B.token = fun _ => Eq) : line = line' := by
  cases h with
  | culprit c mark alike =>
    rw [htoken] at alike
    exact congrArg Token.line alike

/-- A culprit is named, or it is still to be named and the lines are given. -/
def Due (line line' : UInt32) (culprit : Option Culprit) (l l' : UInt32) : Prop :=
  B.Named culprit l l' ∨ culprit = none ∧ l = line ∧ l' = line'

/-- The two sides end alike. What is known of a fault are the culprit and the lines. -/
inductive SameEnd {α : Type} (E : Option Culprit → UInt32 → UInt32 → Prop) :
    Result Traced α → Result State α → Prop
  | done (a : α) {s : Traced} {t : State} (related : B.Related s t) (innocent : s.culprit = none) :
    SameEnd E (.done a s) (.done a t)
  | fault (cause : RuntimeFault) {line line' : UInt32} {s : Traced} {t : State}
    (related : B.Related s t) (known : E s.culprit line line') :
    SameEnd E (.failed (.fault line cause) s) (.failed (.fault line' cause) t)
  | output {words : String} {s : Traced} {t : State} (related : B.Related s t) :
    SameEnd E (.failed (@RuntimeError.output words) s) (.failed (@RuntimeError.output words) t)
  | unfinished {s : Traced} {t : State} (related : B.Related s t) :
    SameEnd E (.unfinished s) (.unfinished t)

def Agree {α : Type} (E : Option Culprit → UInt32 → UInt32 → Prop) (x : Blame.Run α) (y : Run α) :
    Prop :=
  ∀ s t, B.Related s t → s.culprit = none → B.SameEnd E (x s) (y t)

variable {B} {α β : Type} {E : Option Culprit → UInt32 → UInt32 → Prop}

theorem SameEnd.related_state {r : Result Traced α} {r' : Result State α} (h : B.SameEnd E r r') :
    B.Related r.state r'.state := by
  cases h with
  | done _ hrel => exact hrel
  | fault _ hrel => exact hrel
  | output hrel => exact hrel
  | unfinished hrel => exact hrel

theorem SameFunction.arity_eq {program : Nat} {g h : Function} (hs : B.SameFunction program g h) :
    h.arity = g.arity := by
  cases hs with
  | native => rfl
  | declared closure token tokens all => exact tokens.length_eq.symm

theorem SameFunction.text_eq (hB : B.Lawful) {program : Nat} {g h : Function}
    (hs : B.SameFunction program g h) : h.text = g.text := by
  cases hs with
  | native => rfl
  | declared closure token tokens all =>
    exact congrArg (fun name => "<fn " ++ name ++ ">") ((hB.likeness program).lexeme _ _ token)

theorem SameFunction.refl {program : Nat} (token : ∀ t, B.token program t t) (use : ∀ id, B.use id id) :
    ∀ g, B.SameFunction program g g
  | .native name arity builtin => .native name arity builtin
  | .declared name _ body closure =>
    .declared closure (token name) (List.forall₂_same.2 fun t _ => token t) (.refl token use body)

namespace Related

variable {s : Traced} {t : State}

theorem function_none (h : B.Related s t) {f : FunctionId}
    (hf : s.state.store.function? f = none) : t.store.function? f = none := by
  have : s.state.store.functions.size ≤ f := Array.getElem?_eq_none_iff.1 hf
  exact Array.getElem?_eq_none_iff.2 (h.count ▸ this)

theorem text_eq (hB : B.Lawful) (h : B.Related s t) (v : Value) :
    s.state.store.text v = t.store.text v := by
  unfold Store.text
  congr 1
  funext f
  cases hf : s.state.store.function? f with
  | none => rw [h.function_none hf]
  | some g =>
    obtain ⟨g', hg', hsame⟩ := h.function f g hf
    rw [hg']
    exact (hsame.text_eq hB).symm

theorem rebind (h : B.Related s t) {store store' : Store}
    (henvironments : store.environments = store'.environments)
    (hfunctions : store.functions = s.state.store.functions)
    (hfunctions' : store'.functions = t.store.functions) :
    B.Related { s with state := { s.state with store } } { t with store := store' } where
  environments := henvironments
  count := by rw [hfunctions, hfunctions', h.count]
  function f g hg := by
    rw [Store.function?, hfunctions] at hg
    rw [Store.function?, hfunctions']
    exact h.function f g hg
  sink := h.sink
  ticks := h.ticks

theorem define (h : B.Related s t) (e : EnvironmentId) (name : String) (v : Value) :
    B.Related { s with state := { s.state with store := s.state.store.define e name v } }
      { t with store := t.store.define e name v } := by
  refine h.rebind ?_ rfl rfl
  rw [Store.define, h.environments, Store.define]

theorem push (h : B.Related s t) (e : EnvironmentId) :
    B.Related { s with state := { s.state with store := s.state.store.push (some e) } }
      { t with store := t.store.push (some e) } := by
  refine h.rebind ?_ rfl rfl
  rw [Store.push, h.environments, Store.push]

theorem allocate (h : B.Related s t) {program : Nat} {g g' : Function}
    (hg : B.SameFunction program g g') :
    B.Related
      { s with
        state := { s.state with store := (s.state.store.allocate g).2 }
        kept := fun f => if f = s.state.store.functions.size then program else s.origin f }
      { t with store := (t.store.allocate g').2 } where
  environments := h.environments
  count := by simp [Store.allocate, h.count]
  function f k hf := by
    rw [Store.function?_allocate] at hf
    rw [Store.function?_allocate, ← h.count]
    dsimp only [Traced.origin]
    split at hf
    · next heq =>
      cases hf
      rw [if_pos heq, if_pos heq]
      exact ⟨g', rfl, hg⟩
    · next hne =>
      rw [if_neg hne, if_neg hne]
      exact h.function f k hf
  sink := h.sink
  ticks := h.ticks

end Related

namespace Agree

theorem pure (a : α) : B.Agree E (Pure.pure a) (Pure.pure a) := fun _ _ hrel hin =>
  .done a hrel hin

theorem fail {line line' : UInt32} (cause : RuntimeFault) :
    B.Agree (B.Due line line') (.fail (.fault line cause) : Blame.Run α) (.fail (.fault line' cause)) :=
  fun _ _ hrel hin => .fault cause hrel (.inr ⟨hin, rfl, rfl⟩)

theorem exhaust : B.Agree E (.exhaust : Blame.Run α) .exhaust := fun _ _ hrel _ => .unfinished hrel

theorem bind {x : Blame.Run α} {y : Run α} {f : α → Blame.Run β} {g : α → Run β}
    (hx : B.Agree E x y) (hf : ∀ a, B.Agree E (f a) (g a)) : B.Agree E (x >>= f) (y >>= g) := by
  intro s t hrel hin
  have hend := hx s t hrel hin
  rw [Computation.bind_apply, Computation.bind_apply]
  generalize x s = u, y t = v at hend ⊢
  cases hend with
  | done a hrel hin => exact hf a _ _ hrel hin
  | fault cause hrel hknown => exact .fault cause hrel hknown
  | output hrel => exact .output hrel
  | unfinished hrel => exact .unfinished hrel

theorem mono {E' : Option Culprit → UInt32 → UInt32 → Prop} {x : Blame.Run α} {y : Run α}
    (hx : B.Agree E x y) (h : ∀ c l l', E c l l' → E' c l l') : B.Agree E' x y := by
  intro s t hrel hin
  have hend := hx s t hrel hin
  generalize x s = u, y t = v at hend ⊢
  cases hend with
  | done a hrel hin => exact .done a hrel hin
  | fault cause hrel hknown => exact .fault cause hrel (h _ _ _ hknown)
  | output hrel => exact .output hrel
  | unfinished hrel => exact .unfinished hrel

theorem due {x : Blame.Run α} {y : Run α} (hx : B.Agree B.Named x y) (line line' : UInt32) :
    B.Agree (B.Due line line') x y := hx.mono fun _ _ _ => .inl

/-- Where a culprit is still to be named, it is named. -/
theorem blame {culprit : Culprit} {token token' : Token} {x : Blame.Run α} {y : Run α}
    (hx : B.Agree (B.Due token.line token'.line) x y) (hmark : culprit.expr.mark? = some token)
    (htoken : B.token culprit.program token token') : B.Agree B.Named (Blame.blame culprit x) y := by
  intro s t hrel hin
  have hend := hx s t hrel hin
  unfold Blame.blame Observer.onFault
  generalize x s = u, y t = v at hend ⊢
  cases hend with
  | done a hrel hin => exact .done a hrel hin
  | @fault cause _ _ s t hrel hknown =>
    obtain ⟨state, origin, named⟩ := s
    refine .fault cause ⟨hrel.environments, hrel.count, hrel.function, hrel.sink, hrel.ticks⟩ ?_
    rcases hknown with hnamed | ⟨hnone, rfl, rfl⟩
    · cases hnamed with
      | culprit culprit mark alike => exact .culprit culprit mark alike
    · obtain rfl : named = none := hnone
      exact .culprit culprit hmark htoken
  | output hrel => exact .output hrel
  | unfinished hrel => exact .unfinished hrel

theorem quiet {x : Blame.Run α} {y : Run α} (hx : B.Agree E x y) :
    B.Agree E (Observer.note (fun _ culprit => culprit) >>= fun _ => x) y := hx

theorem inspect {f : Traced → α} {g : State → α} (h : ∀ s t, B.Related s t → f s = g t) :
    B.Agree E (.inspect f) (.inspect g) := by
  intro s t hrel hin
  change B.SameEnd E (.done (f s) s) (.done (g t) t)
  rw [h s t hrel]
  exact .done (g t) hrel hin

theorem write (text : String) : B.Agree E (Observer.lift (.write text)) (.write text) := by
  intro s t hrel hin
  unfold Observer.lift Run.write
  rw [hrel.sink]
  by_cases hfull : t.sink.refuses text
  · rw [if_pos hfull, if_pos hfull]
    exact .output ⟨hrel.environments, hrel.count, hrel.function, hrel.sink, hrel.ticks⟩
  · rw [if_neg hfull, if_neg hfull]
    exact .done () ⟨hrel.environments, hrel.count, hrel.function, rfl, hrel.ticks⟩ hin

theorem ofExcept {line line' : UInt32} {x y : Except RuntimeError α}
    (h : SameAnswer line line' x y) :
    B.Agree (B.Due line line') (.ofExcept x) (.ofExcept y) := by
  cases h with
  | ok a => exact .pure a
  | error cause => exact .fail cause

theorem ticking {line line' : UInt32} {f g : Nat → Except RuntimeError (α × Nat)}
    (h : ∀ ticks, SameAnswer line line' (f ticks) (g ticks)) :
    B.Agree (B.Due line line') (Observer.lift (.ticking f)) (.ticking g) := by
  intro s t hrel hin
  have hanswer := h t.ticks
  unfold Observer.lift Run.ticking
  rw [hrel.ticks]
  generalize f t.ticks = x, g t.ticks = y at hanswer ⊢
  cases hanswer with
  | ok a => exact .done a.1 ⟨hrel.environments, hrel.count, hrel.function, hrel.sink, rfl⟩ hin
  | error cause => exact .fault cause hrel (.inr ⟨hin, rfl, rfl⟩)

theorem read (hB : B.Lawful) {clock clock' : Nat → Float} {env : EnvironmentId} {id id' : UseId}
    (hid : B.use id id') {name name' : Token} (hname : name'.lexeme = name.lexeme) :
    let σ : Setting := ⟨B.left, clock⟩
    let τ : Setting := ⟨B.right, clock'⟩
    B.Agree (B.Due name.line name'.line)
      (Observer.lift (.read (σ.locate env id).1 (σ.locate env id).2 name))
      (.read (τ.locate env id').1 (τ.locate env id').2 name') := by
  intro σ τ s t hrel hin
  have hlocate : σ.locate env id = τ.locate env id' := by
    unfold Setting.locate
    rw [hB.use id id' hid]
  unfold Observer.lift Run.read Store.read
  rw [hname, hlocate, Store.read_congr hrel.environments]
  generalize ((t.store.ancestor? _ _).bind _) = r
  cases r with
  | none => exact .fault _ hrel (.inr ⟨hin, rfl, rfl⟩)
  | some v => exact .done v hrel hin

theorem assign (hB : B.Lawful) {clock clock' : Nat → Float} {env : EnvironmentId} {id id' : UseId}
    (hid : B.use id id') {name name' : Token} (hname : name'.lexeme = name.lexeme) (v : Value) :
    let σ : Setting := ⟨B.left, clock⟩
    let τ : Setting := ⟨B.right, clock'⟩
    B.Agree (B.Due name.line name'.line)
      (Observer.lift (.assign (σ.locate env id).1 (σ.locate env id).2 name v))
      (.assign (τ.locate env id').1 (τ.locate env id').2 name' v) := by
  intro σ τ s t hrel hin
  have hlocate : σ.locate env id = τ.locate env id' := by
    unfold Setting.locate
    rw [hB.use id id' hid]
  unfold Observer.lift Run.assign
  rw [hname, hlocate, Store.owner?_congr hrel.environments]
  generalize t.store.owner? _ _ _ = r
  cases r with
  | none => exact .fault _ hrel (.inr ⟨hin, rfl, rfl⟩)
  | some a => exact .done () (hrel.define a name.lexeme v) hin

theorem define (e : EnvironmentId) (name : String) (v : Value) :
    B.Agree E (Observer.lift (.define e name v)) (.define e name v) :=
  fun _ _ hrel hin => .done () (hrel.define e name v) hin

theorem defineAll (e : EnvironmentId) (bs : List (String × Value)) :
    B.Agree E (Observer.lift (.defineAll e bs)) (.defineAll e bs) := by
  intro s t hrel hin
  have hdone : B.SameEnd E
      (.done () { s with state := { s.state with store := s.state.store.defineAll e bs } })
      (.done () { t with store := t.store.defineAll e bs }) := by
    induction bs generalizing s t with
    | nil => exact .done () hrel hin
    | cons b bs ih => exact ih _ _ (hrel.define e b.1 b.2) hin
  exact hdone

theorem enter (e : EnvironmentId) : B.Agree E (Observer.lift (.enter e)) (.enter e) := by
  intro s t hrel hin
  have hnext : s.state.store.nextEnvironment = t.store.nextEnvironment := by
    rw [Store.nextEnvironment, hrel.environments, Store.nextEnvironment]
  unfold Observer.lift Run.enter
  rw [hnext]
  exact .done _ (hrel.push e) hin

theorem declareFunction {program : Nat} {env : EnvironmentId} {name name' : Token}
    {params params' : List Token} {body body' : List Stmt} (hname : name'.lexeme = name.lexeme)
    (token : B.token program name name') (tokens : List.Forall₂ (B.token program) params params')
    (all : Stmt.AllTwin (B.likeness program) body body') :
    B.Agree E
      (do
        let f ← Observer.lift (.allocate (.declared name params body env))
        Observer.keep f program
        Observer.lift (.define env name.lexeme (.function f))
        Pure.pure Flow.next)
      (do
        let f ← Run.allocate (.declared name' params' body' env)
        .define env name'.lexeme (.function f)
        Pure.pure Flow.next) := by
  intro s t hrel hin
  rw [hname]
  have hdefine := (hrel.allocate (.declared env token tokens all)).define env name.lexeme
    (.function s.state.store.functions.size)
  have hnumber : Run.allocate (.declared name' params' body' env) t =
      .done s.state.store.functions.size
        { t with store := (t.store.allocate (.declared name' params' body' env)).2 } := by
    rw [hrel.count]
    rfl
  rw [Computation.bind_done hnumber]
  exact .done Flow.next hdefine hin

theorem repeatWhile {c : Blame.Run Value} {c' : Run Value} {b : Blame.Run Flow} {b' : Run Flow}
    (hc : B.Agree E c c') (hb : B.Agree E b b') (n : Nat) :
    B.Agree E (repeatWhile c b n) (repeatWhile c' b' n) := by
  induction n with
  | zero => exact exhaust
  | succ n ih =>
    rw [Computation.repeatWhile_succ, Computation.repeatWhile_succ]
    refine hc.bind fun v => ?_
    split
    · refine hb.bind fun flow => ?_
      cases flow with
      | next => exact ih
      | returned v => exact pure _
    · exact pure _

end Agree

section

variable {clock : Nat → Float} {call : Value → List Value → UInt32 → Blame.Run Value}
  {call' : Caller} {program : Nat} {rounds : Nat}

/-- Calls agree, whatever the lines on which errors are reported. -/
abbrev CallsAgree (B : Pairing) (call : Value → List Value → UInt32 → Blame.Run Value)
    (call' : Caller) : Prop :=
  ∀ f args line line', B.Agree (B.Due line line') (call f args line) (call' f args line')

mutual

theorem evaluate_agrees (hB : B.Lawful) (hcall : CallsAgree B call call') {env : EnvironmentId}
    {e e' : Expr} : e.Twin (B.likeness program) e' →
      B.Agree B.Named (Blame.evaluate ⟨B.left, clock⟩ call program env e)
        (evaluate ⟨B.right, clock⟩ call' env e')
  | .literal _ => .quiet (.pure _)
  | .group inner => by
    rw [evaluate]
    exact .quiet (evaluate_agrees hB hcall inner)
  | .groupLeft _ inner => .quiet (evaluate_agrees hB hcall inner)
  | .groupRight _ inner => by
    rw [evaluate]
    exact evaluate_agrees hB hcall inner
  | .unary token operand =>
    .quiet ((evaluate_agrees hB hcall operand).bind fun v =>
      (Agree.ofExcept (sameAnswer_unary ((hB.likeness program).kind _ _ token) v)).blame rfl token)
  | .binary left token right =>
    .quiet ((evaluate_agrees hB hcall left).bind fun l => (evaluate_agrees hB hcall right).bind fun r =>
      (Agree.ofExcept (sameAnswer_binary ((hB.likeness program).kind _ _ token) l r)).blame rfl token)
  | @Expr.Twin.logical _ op op' _ _ _ _ left token right => by
    refine .quiet ((evaluate_agrees hB hcall left).bind fun l => ?_)
    have hdecides : decides op' l = decides op l := by
      rw [decides, (hB.likeness program).kind _ _ token, decides]
    rw [hdecides]
    split
    · exact .pure l
    · exact evaluate_agrees hB hcall right
  | .use same token =>
    .quiet ((Agree.read hB same ((hB.likeness program).lexeme _ _ token)).blame rfl token)
  | .assign same token value =>
    .quiet ((evaluate_agrees hB hcall value).bind fun v => by
      refine .quiet (Agree.bind ?_ fun _ => .pure v)
      exact (Agree.assign hB same ((hB.likeness program).lexeme _ _ token) v).blame rfl token)
  | .call head tail token =>
    .quiet ((evaluate_agrees hB hcall head).bind fun f =>
      (evaluateAll_agrees hB hcall tail).bind fun vs => (hcall f vs _ _).blame rfl token)

theorem evaluateAll_agrees (hB : B.Lawful) (hcall : CallsAgree B call call') {env : EnvironmentId}
    {es es' : List Expr} : Expr.AllTwin (B.likeness program) es es' →
      B.Agree B.Named (Blame.evaluateAll ⟨B.left, clock⟩ call program env es)
        (evaluateAll ⟨B.right, clock⟩ call' env es')
  | .nil => .pure _
  | .cons head tail =>
    (evaluate_agrees hB hcall head).bind fun _ => (evaluateAll_agrees hB hcall tail).bind fun _ =>
      .pure _

end

mutual

theorem execute_agrees (hB : B.Lawful) (hcall : CallsAgree B call call') {env : EnvironmentId}
    {s s' : Stmt} : s.Twin (B.likeness program) s' →
      B.Agree B.Named (Blame.execute ⟨B.left, clock⟩ call program rounds env s)
        (execute ⟨B.right, clock⟩ call' rounds env s')
  | .expression value => .quiet ((evaluate_agrees hB hcall value).bind fun _ => .pure _)
  | .print value =>
    .quiet ((evaluate_agrees hB hcall value).bind fun v =>
      (Agree.inspect fun _ _ hrel => hrel.text_eq hB v).bind fun text =>
        (Agree.write text).bind fun _ => (Agree.write "\n").bind fun _ => .pure _)
  | .var token => by
    rw [execute, (hB.likeness program).lexeme _ _ token]
    exact .quiet ((Agree.define _ _ _).bind fun _ => .pure _)
  | .init token value => by
    rw [execute, (hB.likeness program).lexeme _ _ token]
    exact .quiet ((evaluate_agrees hB hcall value).bind fun v =>
      (Agree.define _ _ v).bind fun _ => .pure _)
  | .block all => .quiet ((Agree.enter env).bind fun _ => executeAll_agrees hB hcall all)
  | .branch condition consequent =>
    .quiet ((evaluate_agrees hB hcall condition).bind fun v => by
      split
      · exact execute_agrees hB hcall consequent
      · exact .pure _)
  | .branchElse condition consequent alternative =>
    .quiet ((evaluate_agrees hB hcall condition).bind fun v => by
      split
      · exact execute_agrees hB hcall consequent
      · exact execute_agrees hB hcall alternative)
  | .loop condition body =>
    .quiet (.repeatWhile (evaluate_agrees hB hcall condition) (execute_agrees hB hcall body) rounds)
  | .function token tokens all =>
    .quiet (.declareFunction ((hB.likeness program).lexeme _ _ token) token tokens all)
  | .ret _ => .quiet (.pure _)
  | .retValue _ value => .quiet ((evaluate_agrees hB hcall value).bind fun v => .pure _)

theorem executeAll_agrees (hB : B.Lawful) (hcall : CallsAgree B call call') {env : EnvironmentId}
    {ss ss' : List Stmt} : Stmt.AllTwin (B.likeness program) ss ss' →
      B.Agree B.Named (Blame.executeAll ⟨B.left, clock⟩ call program rounds env ss)
        (executeAll ⟨B.right, clock⟩ call' rounds env ss')
  | .nil => .pure _
  | .cons head tail => (execute_agrees hB hcall head).bind fun flow => by
    cases flow with
    | next => exact executeAll_agrees hB hcall tail
    | returned v => exact .pure _

end

end

theorem inspect_eq {σ : Type} {f : σ → α} {s : σ} {a : α} (h : f s = a) :
    Computation.inspect f s = .done a s := by
  rw [← h]
  rfl

theorem call_agrees (hB : B.Lawful) (clock : Nat → Float) (depth : Nat) :
    CallsAgree B (Blame.call ⟨B.left, clock⟩ depth) (call ⟨B.right, clock⟩ depth) := by
  induction depth with
  | zero => exact fun f args line line' => .exhaust
  | succ depth ih =>
    intro f args line line'
    cases f with
    | nil | bool | number | string => exact .fail _
    | function f =>
      intro s t hrel hin
      rw [Blame.call, Observer.call, call]
      cases hf : s.state.store.function? f with
      | none =>
        rw [Computation.bind_done (inspect_eq (f := fun s : Traced => s.state.store.function? f) hf),
          Computation.bind_done (inspect_eq (f := fun t : State => t.store.function? f)
            (hrel.function_none hf))]
        exact .fault _ hrel (.inr ⟨hin, rfl, rfl⟩)
      | some g =>
        obtain ⟨g', hf', hsame⟩ := hrel.function f g hf
        rw [Computation.bind_done (inspect_eq (f := fun s : Traced => s.state.store.function? f) hf),
          Computation.bind_done (inspect_eq (f := fun t : State => t.store.function? f) hf')]
        dsimp only
        rw [hsame.arity_eq]
        split
        · exact .fault _ hrel (.inr ⟨hin, rfl, rfl⟩)
        cases hsame with
        | native name arity builtin =>
          exact Agree.ticking (fun ticks => sameAnswer_builtin clock line line' ticks builtin args) s t
            hrel hin
        | @declared name name' params params' body body' closure token tokens all =>
          dsimp only
          rw [(hB.likeness _).map_lexeme tokens,
            Computation.bind_done (inspect_eq (f := fun s : Traced => s.origin f) rfl)]
          refine Agree.bind (Agree.enter closure) (fun env => ?_) s t hrel hin
          refine (Agree.defineAll env _).bind fun _ => ?_
          refine ((executeAll_agrees hB ih all).due line line').bind fun flow => ?_
          cases flow <;> exact .pure _

/-- Twin programs run alike, and if one fails, so does the other, at a token that is alike. -/
theorem runProgram_agrees (hB : B.Lawful) (clock : Nat → Float) (budget program : Nat)
    {p p' : Program} (h : Stmt.AllTwin (B.likeness program) p p') :
    B.Agree B.Named (Blame.runProgram ⟨B.left, clock⟩ budget program p)
      (runProgram ⟨B.right, clock⟩ budget p') := by
  induction p generalizing p' with
  | nil =>
    cases h
    exact .pure ()
  | cons s p ih =>
    cases h with
    | cons head tail =>
      exact (execute_agrees hB (call_agrees hB clock budget) head).bind fun _ => ih tail

end Pairing
end Lox
