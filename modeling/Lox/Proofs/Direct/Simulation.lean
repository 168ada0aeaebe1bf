import Lox.Proofs.Direct.World

/-! Rewritten loops and loops as they are written in step.
Two computations agree from a world on if they end alike from any alike states of its extensions
(`Agree`). The tree that the parser builds agrees with the direct tree that it comes from
(`execute_agrees`), and so do calls (`call_agrees`) and whole programs (`runProgram_agrees`). -/
namespace Lox
namespace Direct

abbrev world (pairs : List EnvironmentId) (s : Lox.State) (t : State) : World :=
  ⟨pairs, s.store, t.run.store⟩

/-- Two ends of computations that are alike, the world having been extended. -/
inductive SameEnd {α β : Type} (r : Resolution) (known : UseId → Prop) (W : World)
    (Q : World → α → β → Prop) : Result Lox.State α → Result State β → Prop
  | done {a : α} {b : β} {pairs : List EnvironmentId} {s : Lox.State} {t : State}
    (after : W.Extends (world pairs s t)) (related : Related r known pairs s t)
    (post : Q (world pairs s t) a b) : SameEnd r known W Q (.done a s) (.done b t)
  | failed (e : RuntimeError) {pairs : List EnvironmentId} {s : Lox.State} {t : State}
    (after : W.Extends (world pairs s t)) (related : Related r known pairs s t) :
    SameEnd r known W Q (.failed e s) (.failed e t)
  | unfinished {pairs : List EnvironmentId} {s : Lox.State} {t : State}
    (after : W.Extends (world pairs s t)) (related : Related r known pairs s t) :
    SameEnd r known W Q (.unfinished s) (.unfinished t)

/-- From alike states of this world or a later one, two computations end alike. -/
def Agree {α β : Type} (r : Resolution) (known : UseId → Prop) (W : World) (x : Lox.Run α)
    (y : Run β) (Q : World → α → β → Prop) : Prop :=
  ∀ pairs s t, W.Extends (world pairs s t) → Related r known pairs s t →
    SameEnd r known (world pairs s t) Q (x s) (y t)

abbrev Same {α : Type} (_ : World) (a b : α) : Prop := a = b

section

variable {α β γ δ : Type} {r : Resolution} {known : UseId → Prop} {W W' : World}
  {Q : World → α → β → Prop} {R : World → γ → δ → Prop}

theorem SameEnd.since (hW : W.Extends W') {u : Result Lox.State α} {v : Result State β}
    (h : SameEnd r known W' Q u v) : SameEnd r known W Q u v := by
  cases h with
  | done hW' hrel hq => exact .done (hW.trans hW') hrel hq
  | failed e hW' hrel => exact .failed e (hW.trans hW') hrel
  | unfinished hW' hrel => exact .unfinished (hW.trans hW') hrel

theorem Agree.pure {a : α} {b : β} (h : ∀ W', W.Extends W' → Q W' a b) :
    Agree r known W (Pure.pure a) (Pure.pure b) Q :=
  fun _ _ _ hW hrel => .done (.refl _) hrel (h _ hW)

theorem Agree.bind {x : Lox.Run α} {y : Run β} {f : α → Lox.Run γ} {g : β → Run δ}
    (hx : Agree r known W x y Q)
    (hf : ∀ a b W', W.Extends W' → Q W' a b → Agree r known W' (f a) (g b) R) :
    Agree r known W (x >>= f) (y >>= g) R := by
  intro pairs s t hW hrel
  have hend := hx pairs s t hW hrel
  rw [Computation.bind_apply, Computation.bind_apply]
  generalize x s = u, y t = v at hend ⊢
  cases hend with
  | done hW' hrel' hq =>
    exact (hf _ _ _ (hW.trans hW') hq _ _ _ (.refl _) hrel').since hW'
  | failed e hW' hrel' => exact .failed e hW' hrel'
  | unfinished hW' hrel' => exact .unfinished hW' hrel'

theorem Agree.mono {x : Lox.Run α} {y : Run β} (hx : Agree r known W x y Q) (hW : W.Extends W') :
    Agree r known W' x y Q := fun pairs s t hW' => hx pairs s t (hW.trans hW')

/-- The first results are equal, so the rest can start from one value. -/
theorem Agree.andThen {x : Lox.Run α} {y : Run α} {f : α → Lox.Run γ} {g : α → Run δ}
    (hx : Agree r known W x y Same) (hf : ∀ a, Agree r known W (f a) (g a) R) :
    Agree r known W (x >>= f) (y >>= g) R := by
  refine hx.bind fun a b W' hW hab => ?_
  obtain rfl : a = b := hab
  exact (hf a).mono hW

theorem Agree.next {x : Lox.Run Flow} {y : Run β} {f : Flow → Lox.Run γ} {g : β → Run δ}
    (hx : Agree r known W x (y >>= fun _ => Pure.pure .next) Same)
    (hf : ∀ b, Agree r known W (f .next) (g b) R) : Agree r known W (x >>= f) (y >>= g) R := by
  have hnext : Agree r known W x y fun _ flow _ => flow = .next := by
    intro pairs s t hW hrel
    have hend := hx pairs s t hW hrel
    rw [Computation.bind_apply] at hend
    generalize x s = u, y t = v at hend ⊢
    cases v with
    | done b t' => cases hend with | done hW' hrel' hq => exact .done hW' hrel' hq
    | failed e t' => cases hend with | failed _ hW' hrel' => exact .failed e hW' hrel'
    | unfinished t' => cases hend with | unfinished hW' hrel' => exact .unfinished hW' hrel'
  refine hnext.bind fun flow b W' hW hflow => ?_
  obtain rfl : flow = .next := hflow
  exact (hf b).mono hW

theorem Agree.fail (e : RuntimeError) : Agree r known W (.fail e) (.fail e) Q :=
  fun _ _ _ _ hrel => .failed e (.refl _) hrel

theorem Agree.exhaust : Agree r known W .exhaust .exhaust Q :=
  fun _ _ _ _ hrel => .unfinished (.refl _) hrel

theorem Agree.ofExcept (x : Except RuntimeError α) :
    Agree r known W (.ofExcept x) (.ofExcept x) Same := by
  cases x with
  | ok a => exact .pure fun _ _ => rfl
  | error e => exact .fail e

theorem Agree.inspect {f : Lox.State → α} {g : State → α}
    (h : ∀ pairs s t, Related r known pairs s t → f s = g t) :
    Agree r known W (.inspect f) (.inspect g) Same :=
  fun pairs s t _ hrel => .done (.refl _) hrel (h pairs s t hrel)

theorem Agree.write (text : String) :
    Agree r known W (.write text) (lift (.write text)) Same := by
  intro pairs s t _ hrel
  unfold lift Lox.Run.write
  rw [← hrel.sink]
  split
  · exact .failed _ (.refl _) hrel
  · exact .done (.refl _) { hrel with sink := rfl } rfl

theorem Agree.ticking (f : Nat → Except RuntimeError (α × Nat)) :
    Agree r known W (.ticking f) (lift (.ticking f)) Same := by
  intro pairs s t _ hrel
  unfold lift Lox.Run.ticking
  rw [← hrel.ticks]
  cases f s.ticks with
  | ok a => exact .done (.refl _) { hrel with ticks := rfl } rfl
  | error e => exact .failed e (.refl _) hrel

theorem Agree.repeatWhile {c : Lox.Run Value} {c' : Run Value} {b : Lox.Run Flow} {b' : Run Flow}
    (hc : Agree r known W c c' Same) (hb : Agree r known W b b' Same) (n : Nat) :
    Agree r known W (repeatWhile c b n) (repeatWhile c' b' n) Same := by
  induction n with
  | zero => exact .exhaust
  | succ n ih =>
    rw [Computation.repeatWhile_succ, Computation.repeatWhile_succ]
    refine hc.andThen fun v => ?_
    split
    · refine hb.andThen fun flow => ?_
      cases flow with
      | next => exact ih
      | returned v => exact .pure fun _ _ => rfl
    · exact .pure fun _ _ => rfl

end

section

variable {α β : Type} {r : Resolution} {known : UseId → Prop} {W : World} {ρ : Scopes}
  {i e : EnvironmentId} {w : Walk} {Q : World → α → β → Prop}

theorem Agree.read {σ : Setting} {id : UseId} {name : Token} (place : Place W ρ i w.scopes e)
    (hid : σ.resolution[id]? = w.depth? name.lexeme) :
    Agree r known W (.read (σ.locate e id).1 (σ.locate e id).2 name)
      (lift (.read (ρ.locate i name.lexeme).1 (ρ.locate i name.lexeme).2 name)) Same := by
  intro pairs s t hW hrel
  obtain ⟨a, b, hb, ha, hab⟩ := (place.mono hW).locate hrel.root hid
  dsimp only at hb ha hab
  unfold lift Lox.Run.read Store.read
  rw [hb, ha, Option.bind_some, Option.bind_some, hrel.binding a b hab]
  cases t.run.store.binding? a name.lexeme with
  | some v => exact .done (.refl _) hrel rfl
  | none => exact .failed _ (.refl _) hrel

theorem Agree.assign {σ : Setting} {id : UseId} {name : Token} {v : Value}
    (place : Place W ρ i w.scopes e) (hid : σ.resolution[id]? = w.depth? name.lexeme) :
    Agree r known W (.assign (σ.locate e id).1 (σ.locate e id).2 name v)
      (lift (.assign (ρ.locate i name.lexeme).1 (ρ.locate i name.lexeme).2 name v)) Same := by
  intro pairs s t hW hrel
  obtain ⟨a, b, hb, ha, hab⟩ := (place.mono hW).locate hrel.root hid
  dsimp only at hb ha hab
  unfold lift Lox.Run.assign Store.owner?
  rw [hb, ha, Option.filter, Option.filter, hrel.binding a b hab]
  cases (t.run.store.binding? a name.lexeme).isSome with
  | true => exact .done (World.extends_define ..) (hrel.define hab _ v) rfl
  | false => exact .failed _ (.refl _) hrel

theorem Agree.define (hi : W.pairs[i]? = some e) (x : String) (v : Value) :
    Agree r known W (.define e x v) (lift (.define i x v)) Same :=
  fun _ _ _ hW hrel => .done (World.extends_define ..) (hrel.define (hW.pair hi) x v) rfl

theorem Agree.defineAll (hi : W.pairs[i]? = some e) : ∀ bs : List (String × Value),
    Agree r known W (.defineAll e bs) (lift (.defineAll i bs)) Same
  | [] => .pure fun _ _ => rfl
  | (x, v) :: bs => (Agree.define hi x v).andThen fun _ => Agree.defineAll hi bs

theorem Agree.enter {f : EnvironmentId → Lox.Run α} {g : EnvironmentId → Run β}
    (place : Place W ρ i w.scopes e)
    (hf : ∀ W' a b, W'.pairs[b]? = some a → Place W' ([] :: ρ) b w.openScope.scopes a →
      Agree r known W' (f a) (g b) Q) :
    Agree r known W (Lox.Run.enter e >>= f) (lift (.enter i) >>= g) Q := by
  intro pairs s t hW hrel
  have hextends := World.extends_pushPair pairs s.store t.run.store (some e) (some i)
  refine (hf _ _ _ ?_ ?_ _ _ _ (.refl _) (hrel.pushPair (some e) (some i))).since hextends
  · simp [← hrel.length]
  · refine .scope (fun _ => rfl) ?_ ?_ ?_ ((place.mono hW).mono hextends)
    · simp [← hrel.length]
    · exact (Store.enclosing?_push ..).trans (if_pos rfl)
    · exact (Store.enclosing?_push ..).trans (if_pos rfl)

/-- A new scope around body and increment. Only the rewritten loop makes an environment for it. -/
theorem Agree.enterRound {f : EnvironmentId → Lox.Run α} {y : Run β}
    (place : Place W ρ i w.scopes e)
    (hf : ∀ W' a, Place W' ρ i w.openScope.scopes a → Agree r known W' (f a) y Q) :
    Agree r known W (Lox.Run.enter e >>= f) y Q := by
  intro pairs s t hW hrel
  have hextends := World.extends_pushRound pairs s.store t.run.store (some e)
  refine (hf _ s.store.nextEnvironment ?_ _ _ _ (.refl _) (hrel.pushRound (some e))).since hextends
  refine .round (fun hmem => Nat.lt_irrefl _ (hrel.bound _ hmem)) ?_
    ((place.mono hW).mono hextends)
  exact (Store.enclosing?_push ..).trans (if_pos rfl)

theorem Agree.allocate {c : Code} {g g' : Function}
    (hg : ∀ W', W.Extends W' → SameFunction r known W' c g g') :
    Agree r known W (.allocate g)
      (lift (.allocate g') >>= fun f => keepCode f c >>= fun _ => Pure.pure f) Same :=
  fun pairs s t hW hrel =>
    .done (World.extends_allocate ..) (hrel.allocate (hg (world pairs s t) hW)) hrel.count

theorem Agree.declareFunction {name : Token} {params : List Token} {body : List Declaration}
    (place : Place W ρ i w.scopes e) (hi : W.pairs[i]? = some e)
    (settled : (w.enterBody name params).SettledStatements r true (lowerAll body))
    (uses : ∀ id ∈ Stmt.usesAll (lowerAll body), known id) :
    Agree r known W
      (do
        let f ← Lox.Run.allocate (.declared name params (lowerAll body) e)
        .define e name.lexeme (.function f)
        Pure.pure Flow.next)
      (do
        let f ← lift (.allocate (.declared name params [] i))
        keepCode f ⟨ρ.enter name.lexeme, body⟩
        lift (.define i name.lexeme (.function f))
        Pure.pure Flow.next) Same := by
  have hplace := place.enter hi name.lexeme true
  have hobject : Agree r known W (.allocate (.declared name params (lowerAll body) e))
      (lift (.allocate (.declared name params [] i)) >>= fun f =>
        keepCode f ⟨ρ.enter name.lexeme, body⟩ >>= fun _ => Pure.pure f) Same :=
    .allocate fun W' hW => .declared (hplace.mono hW) settled uses
  exact hobject.andThen fun f => (Agree.define hi name.lexeme (.function f)).andThen fun _ =>
    .pure fun _ _ => rfl

end

def CallsAgree (r : Resolution) (known : UseId → Prop) (call : Caller)
    (directCall : Value → List Value → UInt32 → Run Value) : Prop :=
  ∀ W f args line, Agree r known W (call f args line) (directCall f args line) Same

section

variable {σ : Setting} {known : UseId → Prop} {call : Caller}
  {directCall : Value → List Value → UInt32 → Run Value} {rounds : Nat}

mutual

theorem evaluate_agrees (hcall : CallsAgree σ.resolution known call directCall) :
    ∀ (x : Expr) {W : World} {ρ : Scopes} {i e : EnvironmentId} {w : Walk},
      Place W ρ i w.scopes e → w.Settled σ.resolution x →
      Agree σ.resolution known W (Lox.evaluate σ call e x) (evaluate directCall ρ i x) Same
  | .literal _, _, _, _, _, _, _, _ => .pure fun _ _ => rfl
  | .group inner, _, _, _, _, _, place, hx => evaluate_agrees hcall inner place hx
  | .unary _ operand, _, _, _, _, _, place, hx =>
    (evaluate_agrees hcall operand place hx).andThen fun _ => .ofExcept _
  | .binary left op right, _, _, _, _, w, place, hx => by
    refine (evaluate_agrees hcall left place hx.1).andThen fun l => ?_
    have hr := hx.2.congr_walk (Walk.scopes_expression w left) right
    exact (evaluate_agrees hcall right place hr).andThen fun r => .ofExcept _
  | .logical left op right, _, _, _, _, w, place, hx => by
    refine (evaluate_agrees hcall left place hx.1).andThen fun l => ?_
    split
    · exact .pure fun _ _ => rfl
    · have hr := hx.2.congr_walk (Walk.scopes_expression w left) right
      exact evaluate_agrees hcall right place hr
  | .use _ _, _, _, _, _, _, place, hx => .read place hx.1
  | .assign _ _ value, _, _, _, _, _, place, hx =>
    (evaluate_agrees hcall value place hx.1).andThen fun _ =>
      (Agree.assign place hx.2).andThen fun _ => .pure fun _ _ => rfl
  | .call callee args paren, _, _, _, _, w, place, hx => by
    refine (evaluate_agrees hcall callee place hx.1).andThen fun f => ?_
    have ha := hx.2.congr_walk (Walk.scopes_expression w callee) args
    exact (evaluateAll_agrees hcall args place ha).andThen fun vs => hcall _ f vs paren.line

theorem evaluateAll_agrees (hcall : CallsAgree σ.resolution known call directCall) :
    ∀ (xs : List Expr) {W : World} {ρ : Scopes} {i e : EnvironmentId} {w : Walk},
      Place W ρ i w.scopes e → w.SettledAll σ.resolution xs →
      Agree σ.resolution known W (Lox.evaluateAll σ call e xs) (evaluateAll directCall ρ i xs) Same
  | [], _, _, _, _, _, _, _ => .pure fun _ _ => rfl
  | x :: xs, _, _, _, _, w, place, hx => by
    refine (evaluate_agrees hcall x place hx.1).andThen fun v => ?_
    have hr := hx.2.congr_walk (Walk.scopes_expression w x) xs
    exact (evaluateAll_agrees hcall xs place hr).andThen fun vs => .pure fun _ _ => rfl

end

/-- Declaring a variable. The walk has entered its name where its initializer is evaluated. -/
theorem declareVariable_agrees (hcall : CallsAgree σ.resolution known call directCall) {W : World}
    {ρ : Scopes} {i e : EnvironmentId} {w : Walk} {inFunction : Bool} {name : Token}
    (place : Place W ρ i w.scopes e) (hi : W.pairs[i]? = some e) : ∀ {init : Option Expr},
    w.SettledStatement σ.resolution inFunction (.var name init) →
    Agree σ.resolution known W (Lox.execute σ call rounds e (.var name init))
      (declareVariable directCall ρ i name init >>= fun _ => pure .next) Same
  | none, _ => (Agree.define hi name.lexeme .nil).andThen fun _ => .pure fun _ _ => rfl
  | some init, hs => by
    rw [Lox.execute, declareVariable, bind_assoc]
    refine (evaluate_agrees hcall init (place.enter hi name.lexeme false) hs).andThen fun v => ?_
    exact (Agree.define hi name.lexeme v).andThen fun _ => .pure fun _ _ => rfl

theorem executeAll_pair (e : EnvironmentId) (s t : Stmt) :
    Lox.executeAll σ call rounds e [s, t] = Lox.execute σ call rounds e s >>= fun
      | .next => Lox.execute σ call rounds e t
      | .returned v => pure (.returned v) := by
  have hlast : Lox.executeAll σ call rounds e [t] = Lox.execute σ call rounds e t := by
    rw [Lox.executeAll]
    refine Eq.trans (congrArg (Lox.execute σ call rounds e t >>= ·) ?_) (bind_pure _)
    funext flow
    cases flow <;> rfl
  rw [Lox.executeAll]
  congr 1
  funext flow
  cases flow with
  | next => exact hlast
  | returned v => rfl

/-- Wherever the scopes of the text are these, a statement agrees with the tree that the parser
builds. -/
def StatementAgrees (σ : Setting) (known : UseId → Prop) (call : Caller)
    (directCall : Value → List Value → UInt32 → Run Value) (rounds : Nat) (inFunction : Bool)
    (ρ : Scopes) (i : EnvironmentId) (body : Statement) : Prop :=
  ∀ W e (w : Walk), Place W ρ i w.scopes e → w.SettledStatement σ.resolution inFunction body.lower →
    Agree σ.resolution known W (Lox.execute σ call rounds e body.lower)
      (execute directCall rounds ρ i body) Same

section

variable {W : World} {ρ : Scopes} {i e : EnvironmentId} {w : Walk} {inFunction : Bool}
  {body : Statement}

theorem advance_agrees (hcall : CallsAgree σ.resolution known call directCall)
    (hbody : StatementAgrees σ known call directCall rounds inFunction ρ i body)
    (place : Place W ρ i w.scopes e) {x : Expr}
    (hs : w.SettledStatements σ.resolution inFunction [body.lower, .expression x]) :
    Agree σ.resolution known W (Lox.executeAll σ call rounds e [body.lower, .expression x])
      (do
        match ← execute directCall rounds ρ i body with
        | .next =>
          let _ ← evaluate directCall ρ i x
          pure .next
        | .returned v => pure (.returned v)) Same := by
  rw [executeAll_pair]
  refine (hbody W e w place hs.1).andThen fun flow => ?_
  cases flow with
  | returned v => exact .pure fun _ _ => rfl
  | next =>
    -- The body declares nothing, so the increment is evaluated in the scopes around it.
    have hscopes := Walk.scopes_statement_of_isPlain inFunction w body.lower
      (Stmt.isPlain_of_isBody body.isBody_lower) body.declares_lower
    have hx : w.Settled σ.resolution x := Walk.Settled.congr_walk hscopes x hs.2.1
    exact (evaluate_agrees hcall x place hx).andThen fun _ => .pure fun _ _ => rfl

/-- A round. Only where there is an increment, the rewritten loop has an environment around body and
increment. -/
theorem round_agrees (hcall : CallsAgree σ.resolution known call directCall)
    (hbody : StatementAgrees σ known call directCall rounds inFunction ρ i body)
    (place : Place W ρ i w.scopes e) : ∀ {increment : Option Expr},
    w.SettledStatement σ.resolution inFunction
      (match increment with
        | some x => .block [body.lower, .expression x]
        | none => body.lower) →
    Agree σ.resolution known W
      (Lox.execute σ call rounds e
        (match increment with
          | some x => .block [body.lower, .expression x]
          | none => body.lower))
      (do
        match ← execute directCall rounds ρ i body with
        | .next =>
          increment.elim (pure ()) fun x => do
            let _ ← evaluate directCall ρ i x
            pure ()
          pure .next
        | .returned v => pure (.returned v)) Same
  | none, hs => by
    rw [← bind_pure (Lox.execute σ call rounds e body.lower)]
    refine (hbody W e w place hs).andThen fun flow => ?_
    cases flow <;> exact .pure fun _ _ => rfl
  | some x, hs => by
    simp only [Option.elim_some, bind_assoc, pure_bind]
    exact Agree.enterRound place fun W' a hplace => advance_agrees hcall hbody hplace hs

theorem forRounds_agrees (hcall : CallsAgree σ.resolution known call directCall)
    (hbody : StatementAgrees σ known call directCall rounds inFunction ρ i body)
    (place : Place W ρ i w.scopes e) {condition increment : Option Expr}
    (hs : w.SettledStatement σ.resolution inFunction
      (.forLoop none condition increment body.lower)) :
    Agree σ.resolution known W
      (Lox.execute σ call rounds e (.forLoop none condition increment body.lower))
      (forRounds (condition.elim (pure (.bool true)) (evaluate directCall ρ i))
        (execute directCall rounds ρ i body)
        (increment.elim (pure ()) fun x => do
          let _ ← evaluate directCall ρ i x
          pure ()) rounds) Same := by
  have hcondition : Agree σ.resolution known W
      (Lox.evaluate σ call e (condition.getD (.literal (.bool true))))
      (condition.elim (pure (.bool true)) (evaluate directCall ρ i)) Same := by
    cases condition with
    | none => exact .pure fun _ _ => rfl
    | some c => exact evaluate_agrees hcall c place hs.1
  rw [← Walk.scopes_expression w (condition.getD (.literal (.bool true)))] at place
  exact hcondition.repeatWhile (round_agrees hcall hbody place hs.2) rounds

theorem forLoop_agrees (hcall : CallsAgree σ.resolution known call directCall)
    (hbody : ∀ ρ i, StatementAgrees σ known call directCall rounds inFunction ρ i body)
    (place : Place W ρ i w.scopes e) {condition increment : Option Expr} : ∀ {init : Option Init},
    w.SettledStatement σ.resolution inFunction
      (.forLoop (init.map Init.lower) condition increment body.lower) →
    Agree σ.resolution known W
      (Lox.execute σ call rounds e (.forLoop (init.map Init.lower) condition increment body.lower))
      (execute directCall rounds ρ i (.forLoop init condition increment body)) Same
  | none, hs => by
    rw [execute, enterHeader, pure_bind]
    exact forRounds_agrees hcall (hbody ρ i) place hs
  | some (.var name init), hs => by
    rw [execute, enterHeader]
    simp only [bind_assoc, pure_bind]
    refine Agree.enter place fun W' a b hab hplace => ?_
    rw [executeAll_pair]
    have hplace' := hplace.declared hab inFunction (.var name init)
    have hrounds := forRounds_agrees hcall (hbody _ b) hplace' hs.2.1
    exact (declareVariable_agrees hcall hplace hab hs.1).next fun _ => hrounds
  | some (.expression x), hs => by
    rw [execute, enterHeader]
    simp only [bind_assoc, pure_bind]
    refine Agree.enter place fun W' a b hab hplace => ?_
    rw [executeAll_pair]
    have hplace' := hplace.declared hab inFunction (.statement (.expression x))
    have hrounds := forRounds_agrees hcall (hbody _ b) hplace' hs.2.1
    have hinit : Agree σ.resolution known W'
        (Lox.execute σ call rounds a (Init.expression x).lower)
        (evaluate directCall ([] :: ρ) b x >>= fun _ => pure .next) Same :=
      (evaluate_agrees hcall x hplace hs.1).andThen fun _ => .pure fun _ _ => rfl
    exact hinit.next fun _ => hrounds
theorem mem_uses_forLoop {init : Option Stmt} {condition increment : Option Expr} {s : Stmt}
    {id : UseId} (h : id ∈ s.uses) : id ∈ (Stmt.forLoop init condition increment s).uses := by
  cases init <;> cases increment <;> simp [Stmt.forLoop, Stmt.uses, Stmt.usesAll, h]

end

mutual

theorem declare_agrees (hcall : CallsAgree σ.resolution known call directCall) :
    ∀ (d : Declaration) {W : World} {ρ : Scopes} {i e : EnvironmentId} {w : Walk}
      {inFunction : Bool}, Place W ρ i w.scopes e → W.pairs[i]? = some e →
      w.SettledStatement σ.resolution inFunction d.lower → (∀ id ∈ d.lower.uses, known id) →
      Agree σ.resolution known W (Lox.execute σ call rounds e d.lower)
        (declare directCall rounds ρ i d) Same
  | .var _ _, _, _, _, _, _, _, place, hi, hs, _ => declareVariable_agrees hcall place hi hs
  | .function _ _ _, _, _, _, _, _, _, place, hi, hs, hknown => .declareFunction place hi hs hknown
  | .statement s, _, _, _, _, _, _, place, _, hs, hknown => execute_agrees hcall s place hs hknown

theorem execute_agrees (hcall : CallsAgree σ.resolution known call directCall) :
    ∀ (s : Statement) {W : World} {ρ : Scopes} {i e : EnvironmentId} {w : Walk}
      {inFunction : Bool}, Place W ρ i w.scopes e →
      w.SettledStatement σ.resolution inFunction s.lower → (∀ id ∈ s.lower.uses, known id) →
      Agree σ.resolution known W (Lox.execute σ call rounds e s.lower)
        (execute directCall rounds ρ i s) Same
  | .expression x, _, _, _, _, _, _, place, hs, _ =>
    (evaluate_agrees hcall x place hs).andThen fun _ => .pure fun _ _ => rfl
  | .print x, _, _, _, _, _, _, place, hs, _ =>
    (evaluate_agrees hcall x place hs).andThen fun v =>
      (Agree.inspect fun _ _ _ hrel => hrel.text_eq v).andThen fun text =>
        (Agree.write text).andThen fun _ => (Agree.write "\n").andThen fun _ => .pure fun _ _ => rfl
  | .block body, _, _, _, _, _, _, place, hs, hknown =>
    .enter place fun _ _ _ hi hplace => declareAll_agrees hcall body hplace hi hs hknown
  | .branch condition consequent none, _, _, _, _, w, _, place, hs, hknown => by
    refine (evaluate_agrees hcall condition place hs.1).andThen fun v => ?_
    rw [← Walk.scopes_expression w condition] at place
    split
    · exact execute_agrees hcall consequent place hs.2 fun id hid =>
        hknown id (List.mem_append_right _ hid)
    · exact .pure fun _ _ => rfl
  | .branch condition consequent (some alternative), _, _, _, _, w, inFunction, place, hs,
      hknown => by
    refine (evaluate_agrees hcall condition place hs.1).andThen fun v => ?_
    rw [← Walk.scopes_expression w condition] at place
    split
    · exact execute_agrees hcall consequent place hs.2.1 fun id hid =>
        hknown id (List.mem_append_right _ (List.mem_append_left _ hid))
    · rw [← Walk.scopes_statement_of_isPlain inFunction (w.expression condition) consequent.lower
        (Stmt.isPlain_of_isBody consequent.isBody_lower) consequent.declares_lower] at place
      exact execute_agrees hcall alternative place hs.2.2 fun id hid =>
        hknown id (List.mem_append_right _ (List.mem_append_right _ hid))
  | .loop condition body, _, _, _, _, w, _, place, hs, hknown => by
    refine (evaluate_agrees hcall condition place hs.1).repeatWhile ?_ rounds
    rw [← Walk.scopes_expression w condition] at place
    exact execute_agrees hcall body place hs.2 fun id hid =>
      hknown id (List.mem_append_right _ hid)
  | .forLoop _ _ _ body, _, _, _, _, _, _, place, hs, hknown =>
    forLoop_agrees hcall (fun _ _ _ _ _ hplace hs =>
      execute_agrees hcall body hplace hs fun id hid => hknown id (mem_uses_forLoop hid)) place hs
  | .ret _ none, _, _, _, _, _, _, _, _, _ => .pure fun _ _ => rfl
  | .ret keyword (some value), _, _, _, _, w, inFunction, place, hs, _ => by
    rw [← Walk.scopes_enterReturn w inFunction keyword] at place
    exact (evaluate_agrees hcall value place hs).andThen fun v => .pure fun _ _ => rfl

theorem declareAll_agrees (hcall : CallsAgree σ.resolution known call directCall) :
    ∀ (ds : List Declaration) {W : World} {ρ : Scopes} {i e : EnvironmentId} {w : Walk}
      {inFunction : Bool}, Place W ρ i w.scopes e → W.pairs[i]? = some e →
      w.SettledStatements σ.resolution inFunction (lowerAll ds) →
      (∀ id ∈ Stmt.usesAll (lowerAll ds), known id) →
      Agree σ.resolution known W (Lox.executeAll σ call rounds e (lowerAll ds))
        (declareAll directCall rounds ρ i ds) Same
  | [], _, _, _, _, _, _, _, _, _, _ => .pure fun _ _ => rfl
  | d :: ds, _, _, _, _, _, inFunction, place, hi, hs, hknown => by
    refine (declare_agrees hcall d place hi hs.1 fun id hid =>
      hknown id (List.mem_append_left _ hid)).andThen fun flow => ?_
    cases flow with
    | next =>
      exact declareAll_agrees hcall ds (place.declared hi inFunction d) hi hs.2 fun id hid =>
        hknown id (List.mem_append_right _ hid)
    | returned v => exact .pure fun _ _ => rfl

end

end

theorem call_agrees {σ : Setting} {known : UseId → Prop} (depth : Nat) :
    CallsAgree σ.resolution known (Lox.call σ depth) (call σ.clock depth) := by
  induction depth with
  | zero => exact fun W f args line => .exhaust
  | succ depth ih =>
    intro W f args line
    cases f with
    | nil | bool | number | string => exact .fail _
    | function f =>
      intro pairs s t _ hrel
      rw [Lox.call, call, Computation.bind_apply, Computation.bind_apply]
      dsimp only [Computation.inspect]
      cases hf : s.store.function? f with
      | none =>
        rw [hrel.function_none hf]
        exact .failed _ (.refl _) hrel
      | some g =>
        obtain ⟨g', hg', hsame⟩ := hrel.function f g hf
        rw [hg']
        dsimp only
        rw [← hsame.arity_eq]
        split
        · exact .failed _ (.refl _) hrel
        generalize hc : t.code f = c at hsame
        cases hsame with
        | native name arity builtin => exact Agree.ticking _ pairs s t (.refl _) hrel
        | @declared name params i e w place settled uses =>
          have hcode : (Computation.inspect (·.code f) : Run Code) t = .done c t :=
            congrArg (Result.done · t) hc
          dsimp only
          rw [Computation.bind_done hcode]
          refine Agree.enter place (fun W' a b hi hplace => ?_) pairs s t (.refl _) hrel
          refine (Agree.defineAll hi _).andThen fun _ => ?_
          refine (declareAll_agrees ih c.body (hplace.openBody hi params) hi settled uses).andThen
            fun flow => ?_
          cases flow <;> exact .pure fun _ _ => rfl

theorem runProgram_agrees {σ : Setting} {known : UseId → Prop} {W : World} (budget : Nat) :
    ∀ (q : Program) {w : Walk}, w.scopes = [] → W.pairs[globals]? = some globals →
      w.SettledStatements σ.resolution false (lowerAll q) →
      (∀ id ∈ Stmt.usesAll (lowerAll q), known id) →
      Agree σ.resolution known W (Lox.runProgram σ budget (lowerAll q))
        (runProgram σ.clock budget q) Same
  | [], _, _, _, _, _ => .pure fun _ _ => rfl
  | d :: q, w, hw, hroot, hs, hknown => by
    have hplace : Place W [] globals w.scopes globals := hw ▸ .top
    refine (declare_agrees (call_agrees budget) d hplace hroot hs.1 fun id hid =>
      hknown id (List.mem_append_left _ hid)).andThen fun _ => ?_
    have hw' : (w.statement false d.lower).scopes = [] := by
      rw [← List.length_eq_zero_iff, (Walk.tail_scopes_statement false w d.lower).2, hw]
      rfl
    exact runProgram_agrees budget q hw' hroot hs.2 fun id hid =>
      hknown id (List.mem_append_right _ hid)

/-- Where a statement is executed in the two runs: these are the scopes around it and its
environments, and all uses of names in it are settled. -/
def Stands (r : Resolution) (known : UseId → Prop) (W : World) (ρ : Scopes) (i e : EnvironmentId)
    (s : Stmt) : Prop :=
  ∃ (w : Walk) (inFunction : Bool), Place W ρ i w.scopes e ∧ w.SettledStatement r inFunction s ∧
    ∀ id ∈ s.uses, known id

/-- An environment for a round binds nothing at the end. -/
theorem SameEnd.unbound {α β : Type} {r : Resolution} {known : UseId → Prop} {W : World}
    {Q : World → α → β → Prop} {u : Result Lox.State α} {v : Result State β} {e : EnvironmentId}
    (h : SameEnd r known W Q u v) (he : e ∉ W.pairs) (hlt : e < W.real.nextEnvironment)
    (x : String) : u.state.store.binding? e x = none := by
  cases h with
  | done after related | failed _ after related | unfinished after related =>
    exact related.unpaired e (after.unpaired he hlt) x

/-- However a round ends, nothing is bound in the environment around body and increment. -/
theorem Stands.unbound {σ : Setting} {known : UseId → Prop} {pairs : List EnvironmentId}
    {s : Lox.State} {t : State} {ρ : Scopes} {i e : EnvironmentId} {body : Statement} {x : Expr}
    (h : Stands σ.resolution known (world pairs s t) ρ i e (.block [body.lower, .expression x]))
    (hrel : Related σ.resolution known pairs s t) (depth rounds : Nat) (name : String) :
    (Lox.execute σ (Lox.call σ depth) rounds e
      (.block [body.lower, .expression x]) s).state.store.binding?
        s.store.nextEnvironment name = none := by
  obtain ⟨w, inFunction, place, hs, hknown⟩ := h
  have hnew : s.store.nextEnvironment ∉ pairs := fun hmem => Nat.lt_irrefl _ (hrel.bound _ hmem)
  have hextends := World.extends_pushRound pairs s.store t.run.store (some e)
  have hplace : Place (world pairs { s with store := s.store.push (some e) } t) ρ i
      w.openScope.scopes s.store.nextEnvironment :=
    .round hnew ((Store.enclosing?_push ..).trans (if_pos rfl)) (place.mono hextends)
  have hbody : StatementAgrees σ known (Lox.call σ depth) (call σ.clock depth) rounds inFunction ρ i
      body := fun _ _ _ hplace hs => execute_agrees (call_agrees depth) body hplace hs fun id hid =>
    hknown id (List.mem_append_left _ hid)
  have hend := advance_agrees (call_agrees depth) hbody hplace hs pairs _ t (.refl _)
    (hrel.pushRound (some e))
  exact hend.unbound hnew (by simp) name

end Direct
end Lox
