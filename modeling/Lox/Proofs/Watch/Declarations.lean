import Lox.Proofs.Addresses
import Lox.Proofs.Descent
import Lox.Proofs.Watch.Session

/-! Where names come from.
What an environment that there was binds after a run and did not bind before was declared by
statements that the run came to in this environment (`execute_declares`). Together with the frames
of expressions and blocks this says that only the current environment gains names
(`environments_gain`). -/
namespace Lox
namespace Watch

def Visit.Declares (v : Visit) (e : EnvironmentId) (x : String) : Prop :=
  v.env = e ∧ ∃ s, v.site = .statement s ∧ x ∈ s.declared

/-- Between two moments the environments that there were at the first have gained only names that
were declared at visits in between, and names that are due to earlier visits. -/
structure Gains (due : EnvironmentId → String → Prop) (s t : Watched) : Prop where
  next_le : s.state.store.nextEnvironment ≤ t.state.store.nextEnvironment
  names : ∃ new, t.visits = new ++ s.visits ∧ ∀ e < s.state.store.nextEnvironment, ∀ x,
    (t.state.store.binding? e x).isSome →
      (s.state.store.binding? e x).isSome ∨ due e x ∨ ∃ v ∈ new, v.Declares e x

section

variable {s t u : Watched} {due : EnvironmentId → String → Prop}

theorem Gains.refl (s : Watched) : Gains due s s := ⟨Nat.le_refl _, [], rfl, fun _ _ _ h => .inl h⟩

theorem Gains.trans (h : Gains due s t) (h' : Gains due t u) : Gains due s u := by
  obtain ⟨hle, new, hnew, hnames⟩ := h
  obtain ⟨hle', new', hnew', hnames'⟩ := h'
  refine ⟨Nat.le_trans hle hle', new' ++ new, by rw [hnew', hnew, List.append_assoc],
    fun e he x hx => ?_⟩
  rcases hnames' e (Nat.lt_of_lt_of_le he hle) x hx with hx | hx | ⟨v, hv, hx⟩
  · rcases hnames e he x hx with hx | hx | ⟨v, hv, hx⟩
    · exact .inl hx
    · exact .inr (.inl hx)
    · exact .inr (.inr ⟨v, List.mem_append_right _ hv, hx⟩)
  · exact .inr (.inl hx)
  · exact .inr (.inr ⟨v, List.mem_append_left _ hv, hx⟩)

end

/-- Names are gained by declarations that are noted, or are due to earlier visits. -/
def Declares {α : Type} (due : EnvironmentId → String → Prop) (x : Run α) : Prop :=
  Computation.Keeps (Gains due) x

section

variable {α β : Type} {due : EnvironmentId → String → Prop}

theorem Declares.pure (a : α) : Declares due (Pure.pure a) := fun s => .refl s

theorem Declares.fail (e : RuntimeError) : Declares due (.fail e : Run α) := fun s => .refl s

theorem Declares.ofExcept (x : Except RuntimeError α) : Declares due (.ofExcept x) :=
  Computation.Keeps.ofExcept .refl x

theorem Declares.inspect (f : Watched → α) : Declares due (.inspect f) := fun s => .refl s

theorem Declares.bind {x : Run α} {f : α → Run β} (hx : Declares due x)
    (hf : ∀ a, Declares due (f a)) : Declares due (x >>= f) :=
  Computation.Keeps.bind (fun _ _ _ h h' => h.trans h') hx hf

theorem Declares.repeatWhile {condition : Run Value} {body : Run Flow}
    (hc : Declares due condition) (hb : Declares due body) (n : Nat) :
    Declares due (Lox.repeatWhile condition body n) :=
  Computation.Keeps.repeatWhile .refl (fun _ _ _ h h' => h.trans h') hc hb n

theorem Declares.keep {f : FunctionId} {w : Walk} {x : Run α} (hx : Declares due x) :
    Declares due (Observer.keep f w >>= fun _ => x) := fun s =>
  have h := hx { s with kept := fun g => if g = f then w else s.around g }
  ⟨h.next_le, h.names⟩

theorem Declares.onFault {x : Run α} (hx : Declares due x) :
    Declares due (Observer.onFault (fun visits => visits) x) := by
  rwa [Observer.onFault_id]

/-- What notes nothing gains what is due. -/
theorem Declares.lift {x : Lox.Run α} {A : EnvironmentId → Prop} (hx : x.Grows A)
    (hdue : ∀ s e x', A e → ((x s).state.store.binding? e x').isSome →
      (s.store.binding? e x').isSome ∨ due e x') : Declares due (Observer.lift x) := by
  intro s
  have h := hx s.state
  rw [Observer.lift, Result.state_map]
  refine ⟨h.next_le, [], rfl, fun e he x' hb => ?_⟩
  by_cases hA : A e
  · exact (hdue s.state e x' hA hb).imp_right .inl
  · exact .inl (h.fresh e he hA x' hb)

theorem Declares.frames {x : Lox.Run α} (hx : x.Frames) : Declares due (Observer.lift x) :=
  .lift hx fun _ _ _ => False.elim

theorem Declares.define (env : EnvironmentId) (name : String) (v : Value) (h : due env name) :
    Declares due (Observer.lift (.define env name v)) := by
  refine .lift (Run.grows_define env name v) fun s e x he hb => ?_
  change ((s.store.define env name v).binding? e x).isSome at hb
  rw [Store.binding?_define] at hb
  split at hb
  · next hx => exact .inr (hx.1 ▸ hx.2.1 ▸ h)
  · exact .inl hb

theorem Declares.defineAll (env : EnvironmentId) (bs : List (String × Value))
    (h : ∀ x, due env x) : Declares due (Observer.lift (.defineAll env bs)) :=
  .lift (Run.grows_defineAll env bs) fun _ _ x he _ => .inr (he ▸ h x)

/-- What a new environment gains is its own. -/
theorem Declares.enter {e : EnvironmentId} {f : EnvironmentId → Run α}
    (hf : ∀ inner, Declares (fun e' x => due e' x ∨ e' = inner) (f inner)) :
    Declares due (Observer.lift (.enter e) >>= f) := by
  intro s
  obtain ⟨hle, new, hnew, hnames⟩ := hf s.state.store.nextEnvironment
    { s with state := { s.state with store := s.state.store.push (some e) } }
  rw [Store.nextEnvironment_push] at hle
  refine ⟨Nat.le_of_succ_le hle, new, hnew, fun e' he' x hx => ?_⟩
  have hlt : e' < (s.state.store.push (some e)).nextEnvironment := by
    rw [Store.nextEnvironment_push]
    exact Nat.lt_succ_of_lt he'
  rcases hnames e' hlt x hx with hx | hx | hx
  · exact .inl (by rwa [Store.binding?_push] at hx)
  · exact .inr (.inl (hx.resolve_right (Nat.ne_of_lt he')))
  · exact .inr (.inr hx)

/-- What is due to a visit needs no other reason once it has been noted. -/
theorem Declares.note {r : Resolution} {w : Walk} {env : EnvironmentId} {site : Site} {x : Run α}
    (hx : Declares (fun e x => due e x ∨ Visit.Declares ⟨site, w, r, env, .empty⟩ e x) x) :
    Declares due (note r w env site >>= fun _ => x) := by
  intro s
  obtain ⟨hle, new, hnew, hnames⟩ :=
    hx { s with notes := ⟨site, w, r, env, s.state.store⟩ :: s.visits }
  refine ⟨hle, new ++ [⟨site, w, r, env, s.state.store⟩],
    by rw [List.append_assoc]; exact hnew, fun e he x hb => ?_⟩
  rcases hnames e he x hb with hb | (hb | hb) | ⟨v, hv, hb⟩
  · exact .inl hb
  · exact .inr (.inl hb)
  · exact .inr (.inr ⟨_, List.mem_append_right _ List.mem_cons_self, hb⟩)
  · exact .inr (.inr ⟨v, List.mem_append_left _ hv, hb⟩)

end

section

variable {σ : Setting} {call : Value → List Value → UInt32 → Run Value} {rounds : Nat}

mutual

theorem evaluate_declares (hcall : ∀ due f args line, Declares due (call f args line))
    (env : EnvironmentId) : ∀ (e : Expr) (w : Walk) (due), Declares due (evaluate σ call w env e)
  | .literal _, _, _ => .note (.pure _)
  | .group inner, w, _ => .note (evaluate_declares hcall env inner w _)
  | .unary _ operand, w, _ => .note ((evaluate_declares hcall env operand w _).bind fun _ =>
    .onFault (.ofExcept _))
  | .binary left _ right, w, _ => .note ((evaluate_declares hcall env left w _).bind fun _ =>
    (evaluate_declares hcall env right _ _).bind fun _ => .onFault (.ofExcept _))
  | .logical left op right, w, _ => .note ((evaluate_declares hcall env left w _).bind fun l => by
    split
    · exact .pure l
    · exact evaluate_declares hcall env right _ _)
  | .use _ _, _, _ => .note (.onFault (.frames (Run.frames_read _ _ _)))
  | .assign _ _ value, w, _ => .note ((evaluate_declares hcall env value w _).bind fun v =>
    .note ((Declares.onFault (.frames (Run.frames_assign _ _ _ _))).bind fun _ => .pure v))
  | .call callee args paren, w, _ => .note ((evaluate_declares hcall env callee w _).bind fun f =>
    (evaluateAll_declares hcall env args _ _).bind fun vs => .onFault (hcall _ f vs paren.line))

theorem evaluateAll_declares (hcall : ∀ due f args line, Declares due (call f args line))
    (env : EnvironmentId) :
    ∀ (es : List Expr) (w : Walk) (due), Declares due (evaluateAll σ call w env es)
  | [], _, _ => .pure _
  | e :: es, w, _ => (evaluate_declares hcall env e w _).bind fun _ =>
    (evaluateAll_declares hcall env es _ _).bind fun _ => .pure _

end

mutual

/-- A statement that declares a name is noted first; what it gains by its parts is theirs. -/
theorem execute_declares (hcall : ∀ due f args line, Declares due (call f args line)) :
    ∀ (s : Stmt) (inFunction : Bool) (w : Walk) (env : EnvironmentId) (due),
      Declares due (execute σ call rounds inFunction w env s)
  | .expression e, _, w, env, _ => .note ((evaluate_declares hcall env e w _).bind fun _ => .pure _)
  | .print e, _, w, env, _ => .note ((evaluate_declares hcall env e w _).bind fun v =>
    (Declares.inspect _).bind fun _ => (Declares.frames (Run.frames_write _)).bind fun _ =>
      (Declares.frames (Run.frames_write _)).bind fun _ => .pure _)
  | .var name none, _, _, env, _ => .note ((Declares.define env name.lexeme _
    (.inr ⟨rfl, _, rfl, List.mem_cons_self⟩)).bind fun _ => .pure _)
  | .var name (some init), _, w, env, _ => .note
    ((evaluate_declares hcall env init _ _).bind fun _ =>
      (Declares.define env name.lexeme _ (.inr ⟨rfl, _, rfl, List.mem_cons_self⟩)).bind fun _ =>
        .pure _)
  | .block body, inFunction, _, _, _ => .note (.enter fun inner =>
    executeAll_declares hcall body inFunction _ inner _)
  | .branch condition consequent none, inFunction, w, env, _ =>
    .note ((evaluate_declares hcall env condition w _).bind fun v => by
      split
      · exact execute_declares hcall consequent inFunction _ env _
      · exact .pure _)
  | .branch condition consequent (some alternative), inFunction, w, env, _ =>
    .note ((evaluate_declares hcall env condition w _).bind fun v => by
      split
      · exact execute_declares hcall consequent inFunction _ env _
      · exact execute_declares hcall alternative inFunction _ env _)
  | .loop condition body, inFunction, w, env, _ =>
    .note (.repeatWhile (evaluate_declares hcall env condition w _)
      (execute_declares hcall body inFunction _ env _) rounds)
  | .function name params body, _, w, env, _ =>
    .note ((Declares.frames (Run.frames_allocate _)).bind fun f => .keep
      ((Declares.define env name.lexeme _ (.inr ⟨rfl, _, rfl, List.mem_cons_self⟩)).bind fun _ =>
        .pure _))
  | .ret _ none, _, _, _, _ => .note (.pure _)
  | .ret _ (some value), _, _, env, _ => .note
    ((evaluate_declares hcall env value _ _).bind fun _ => .pure _)

theorem executeAll_declares (hcall : ∀ due f args line, Declares due (call f args line)) :
    ∀ (ss : List Stmt) (inFunction : Bool) (w : Walk) (env : EnvironmentId) (due),
      Declares due (executeAll σ call rounds inFunction w env ss)
  | [], _, _, _, _ => .pure _
  | s :: ss, inFunction, w, env, _ => (execute_declares hcall s inFunction w env _).bind fun
    | .next => executeAll_declares hcall ss inFunction _ env _
    | .returned _ => .pure _

end

end

theorem call_declares (σ : Setting) (depth : Nat) :
    ∀ due f args line, Declares due (call σ depth f args line) := by
  induction depth with
  | zero => exact fun due f args line s => .refl s
  | succ depth ih =>
    intro due f args line
    cases f with
    | nil | bool | number | string => exact .fail _
    | function f =>
      refine (Declares.inspect _).bind fun g => ?_
      cases g with
      | none => exact .fail _
      | some g =>
        dsimp only
        split
        · exact .fail _
        cases g with
        | native name arity builtin => exact .frames (Run.frames_ticking _)
        | declared name params body closure =>
          refine (Declares.inspect _).bind fun w => .enter fun env => ?_
          refine (Declares.defineAll env _ fun _ => .inr rfl).bind fun _ => ?_
          refine (executeAll_declares ih body true _ env _).bind fun flow => ?_
          cases flow <;> exact .pure _

theorem runProgram_declares (σ : Setting) (budget : Nat) : ∀ (p : Program) (w : Walk) (due),
    Declares due (runProgram σ budget w p)
  | [], _, _ => .pure _
  | s :: ss, w, _ => (execute_declares (call_declares σ budget) s false w globals _).bind fun _ =>
    runProgram_declares σ budget ss _ _

/-! ### Sessions -/

/-- A watched session that does what a session does, and knows where its names come from. -/
structure Accounts (s : Session) (t : Lox.Session) : Prop where
  resolution : s.resolution = t.resolution
  state : s.watched.state = t.state
  store : t.state.store.DescendsFrom 1
  names : ∀ x, (t.state.store.binding? globals x).isSome →
    x = "clock" ∨ x = "sqrt" ∨ ∃ v ∈ s.watched.visits, v.Declares globals x

theorem accounts_initial (sink : Sink) : Accounts (.initial sink) (.initial sink) where
  resolution := rfl
  state := rfl
  store := by
    refine ⟨⟨fun e e' he => ?_, fun f name params body closure hf => ?_⟩, Nat.le_refl 1⟩
    · match e with
      | 0 | e + 1 => cases he
    · match f with
      | 0 | 1 | f + 2 => cases hf
  names x hx := by
    change (((Store.empty.push none).define globals "clock" (.function 0)).define globals "sqrt"
      (.function 1) |>.binding? globals x).isSome at hx
    simp only [Store.binding?_define, Store.binding?_push] at hx
    by_cases hs : "sqrt" = x
    · exact .inr (.inl hs.symm)
    by_cases hc : "clock" = x
    · exact .inl hc.symm
    · simp [hs, hc, Store.binding?, Store.empty] at hx

theorem Accounts.runProgram {s : Session} {t : Lox.Session} (h : Accounts s t) (budget : Nat)
    (clock : Nat → Float) (p : Program) :
    Accounts (s.runProgram budget clock p) (t.runProgram budget clock p).2 := by
  unfold Session.runProgram Lox.Session.runProgram
  cases resolve p with
  | error errors => exact ⟨h.resolution, h.state, h.store, h.names⟩
  | ok new =>
    have hstate := ((observer (s.resolution.extend new)).runProgram_erases
      ⟨s.resolution.extend new, clock⟩ budget p (false, .initial)).state_eq s.watched
    obtain ⟨-, visits, hvisits, hnames⟩ :=
      runProgram_declares ⟨s.resolution.extend new, clock⟩ budget p .initial (fun _ _ => False)
        s.watched
    have hstore := runProgram_descends ⟨s.resolution.extend new, clock⟩ budget p t.state h.store
    rw [h.state] at hstate
    have hall : ∀ x,
        ((Watch.runProgram ⟨s.resolution.extend new, clock⟩ budget .initial p
          s.watched).state.state.store.binding? globals x).isSome →
        x = "clock" ∨ x = "sqrt" ∨ ∃ v ∈ visits ++ s.watched.visits, v.Declares globals x := by
      intro x hx
      rcases hnames globals (by rw [h.state]; exact h.store.2) x hx with hx | hx | ⟨v, hv, hx⟩
      · rw [h.state] at hx
        rcases h.names x hx with hx | hx | ⟨v, hv, hx⟩
        · exact .inl hx
        · exact .inr (.inl hx)
        · exact .inr (.inr ⟨v, List.mem_append_right _ hv, hx⟩)
      · exact hx.elim
      · exact .inr (.inr ⟨v, List.mem_append_left _ hv, hx⟩)
    rw [hstate, ← hvisits] at hall
    unfold Lox.Session.execute
    dsimp only
    rw [← h.resolution]
    generalize Lox.runProgram _ _ _ _ = u at hstate hstore hall
    cases u <;> exact ⟨rfl, hstate, hstore, hall⟩

theorem Accounts.runPrograms (budget : Nat) (clock : Nat → Float) : ∀ (programs : List Program)
    {s : Session} {t : Lox.Session}, Accounts s t →
    Accounts (s.runPrograms budget clock programs) (t.runPrograms budget clock programs)
  | [], _, _, h => h
  | p :: programs, _, _, h => (h.runProgram budget clock p).runPrograms budget clock programs

/-- Whatever the heap and however it ends, evaluating an expression, calling a value and executing a
block add no name to an environment that there was, and any other statement adds names to its own
environment only; no environment loses a name or changes its link. So links lead to older
environments, chains are finite and never come back, and the globals bind the built-in functions and
what was declared at visits in the global environment. -/
theorem environments_gain :
    (∀ σ depth rounds env,
      (∀ e, (Lox.evaluate σ (Lox.call σ depth) env e).Frames) ∧
      (∀ f args line, (Lox.call σ depth f args line).Frames) ∧
      (∀ body, (Lox.execute σ (Lox.call σ depth) rounds env (.block body)).Frames) ∧
      (∀ s, (Lox.execute σ (Lox.call σ depth) rounds env s).Grows (· = env)) ∧
      ∀ state : State, state.store.Descends →
        (∀ e, (Lox.evaluate σ (Lox.call σ depth) env e state).state.store.Descends) ∧
        (∀ f args line, (Lox.call σ depth f args line state).state.store.Descends) ∧
        (env < state.store.nextEnvironment →
          ∀ s, (Lox.execute σ (Lox.call σ depth) rounds env s state).state.store.Descends)) ∧
    ∀ budget clock sink programs,
      let watched := ((Session.initial sink).runPrograms budget clock programs).watched
      let state := ((Lox.Session.initial sink).runPrograms budget clock programs).state
      watched.state = state ∧
      (∀ e e', state.store.enclosing? e = some e' → e' < e) ∧
      (∀ e d a, state.store.ancestor? e d = some a → a + d ≤ e) ∧
      ∀ x, (state.store.binding? globals x).isSome →
        x = "clock" ∨ x = "sqrt" ∨ ∃ v ∈ watched.visits, v.Declares globals x := by
  refine ⟨fun σ depth rounds env => ?_, fun budget clock sink programs => ?_⟩
  · have hgrows := call_grows σ depth
    have hdescends := call_descends σ depth
    refine ⟨evaluate_grows hgrows env, hgrows, execute_block_grows hgrows env,
      execute_grows hgrows env,
      fun state hs => ⟨fun e => ?_, fun f args line => ?_, fun he s => ?_⟩⟩
    · exact (evaluate_descends hdescends env 0 e state ⟨hs, Nat.zero_le _⟩).1
    · exact (hdescends 0 f args line state ⟨hs, Nat.zero_le _⟩).1
    · exact (execute_descends hdescends env.lt_succ_self s state ⟨hs, he⟩).1
  · have h := (accounts_initial sink).runPrograms budget clock programs
    exact ⟨h.state, h.store.1.enclosing, fun e d a ha => h.store.1.ancestor ha, h.names⟩

theorem environments_gain_counter :
    (∀ σ s, (Lox.execute σ (Lox.call σ 10) 10 globals s
      (Lox.Session.initial .unlimited).state).state.store.Descends) ∧
    let s := (Lox.Session.initial .unlimited).runPrograms 10 (fun _ => 0) counterPrograms
    (s.state.store.enclosing? 2 = some 1 ∧ 1 < 2) ∧
    (s.state.store.ancestor? 2 2 = some globals ∧ globals + 2 ≤ 2) ∧
    (s.state.store.binding? globals "f").isSome ∧
    ∃ v ∈ ((Session.initial .unlimited).runPrograms 10 (fun _ => 0) counterPrograms).watched.visits,
      v.Declares globals "f" := by
  have hinitial := (accounts_initial .unlimited).store
  refine ⟨fun σ s =>
    ((environments_gain.1 σ 10 10 globals).2.2.2.2 _ hinitial.1).2.2 hinitial.2 s, ?_⟩
  obtain ⟨-, hlinks, hchains, hnames⟩ :=
    environments_gain.2 10 (fun _ => 0) .unlimited counterPrograms
  intro s
  have hlink : s.state.store.enclosing? 2 = some 1 := by decide +kernel
  have hchain : s.state.store.ancestor? 2 2 = some globals := by decide +kernel
  have hf : (s.state.store.binding? globals "f").isSome := by decide +kernel
  exact ⟨⟨hlink, hlinks 2 1 hlink⟩, ⟨hchain, hchains 2 2 globals hchain⟩, hf,
    ((hnames "f" hf).resolve_left (by decide)).resolve_left (by decide)⟩

end Watch
end Lox
