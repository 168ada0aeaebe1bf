import Lox.Proofs.Watch.Evaluation

/-! What runs ask of the sink.
A run hands texts to the sink one after another and learns only whether they are taken. So it follows
a script that does not depend on when the sink is full: with every sink it does the same up to the
first text that is refused, and there it ends (`runProgram_scripted`). -/
namespace Lox

def State.withSink (s : State) (k : Sink) : State := { s with sink := k }

def State.limited (s : State) (full : String → Bool) : State := s.withSink { s.sink with full }

namespace Watch

def Watched.text (s : Watched) : String := s.state.sink.text

def Watched.withSink (s : Watched) (k : Sink) : Watched := { s with state := s.state.withSink k }

def Watched.limited (s : Watched) (full : String → Bool) : Watched :=
  { s with state := s.state.limited full }

def Watched.unlimited (s : Watched) : Watched := s.limited fun _ => false

/-- A text that a run hands to the sink, and what stands then. -/
structure Request where
  text : String
  moment : Watched

namespace Request

/-- Whether a sink that is full after these texts refuses what is handed to it. -/
def refusedBy (q : Request) (full : String → Bool) : Bool :=
  (q.moment.limited full).state.sink.refuses q.text

def accepted (q : Request) : Watched := q.moment.withSink (q.moment.state.sink.receive q.text)

theorem refusedBy_never (q : Request) : q.refusedBy (fun _ => false) = false := by
  simp [refusedBy, Sink.refuses, Watched.limited, State.limited, State.withSink]

theorem accepted_text (q : Request) : q.accepted.text = q.moment.text ++ q.text := rfl

end Request

/-- How a run ends that makes these requests and comes to this result if all texts are taken: the first
text that is refused ends it. -/
def play {α : Type} (full : String → Bool) (qs : List Request) (result : Result Watched α) :
    Result Watched α :=
  match qs.find? (·.refusedBy full) with
  | some q => .failed q.moment.state.sink.error (q.moment.limited full)
  | none => result.map (·.limited full)

/-- Requests are made one after another on the way from one state to another: each is made when what was
requested before has been received, and nothing is entered but between them. -/
inductive Leads : Watched → List Request → Watched → Prop
  | quiet {s t : Watched} (sink : t.state.sink = s.state.sink) (visits : s.visits <:+ t.visits) :
      Leads s [] t
  | request {s t : Watched} {q : Request} {qs : List Request}
      (sink : q.moment.state.sink = s.state.sink) (visits : s.visits <:+ q.moment.visits)
      (rest : Leads q.accepted qs t) : Leads s (q :: qs) t

namespace Leads

variable {s t u : Watched} {qs qs' before after : List Request} {q : Request}

theorem trans (h : Leads s qs t) (h' : Leads t qs' u) : Leads s (qs ++ qs') u := by
  induction h with
  | quiet hsink hvisits =>
    cases h' with
    | quiet hsink' hvisits' => exact .quiet (hsink'.trans hsink) (hvisits.trans hvisits')
    | request hsink' hvisits' hrest =>
      exact .request (hsink'.trans hsink) (hvisits.trans hvisits') hrest
  | request hsink hvisits _ ih => exact .request hsink hvisits (ih h')

/-- What is received is what is requested. -/
theorem text (h : Leads s qs t) : t.text = s.text ++ String.join (qs.map Request.text) := by
  induction h with
  | quiet hsink _ =>
    rw [Watched.text, hsink, List.map_nil, String.join_nil, String.append_empty]
    rfl
  | @request s t q qs hsink _ _ ih =>
    have htext : q.moment.text = s.text := congrArg Sink.text hsink
    rw [ih, Request.accepted_text, htext, List.map_cons, String.join_cons, String.append_assoc]

/-- A sink always refuses in the same words. -/
theorem error (h : Leads s qs t) : ∀ q ∈ qs, q.moment.state.sink.error = s.state.sink.error := by
  induction h with
  | quiet => exact List.forall_mem_nil _
  | @request s t q qs hsink _ _ ih =>
    have hq : q.moment.state.sink.error = s.state.sink.error := congrArg Sink.error hsink
    exact List.forall_mem_cons.2 ⟨hq, fun r hr => (ih r hr).trans hq⟩

theorem visits (h : Leads s qs t) : s.visits <:+ t.visits := by
  induction h with
  | quiet _ hvisits => exact hvisits
  | request _ hvisits _ ih => exact hvisits.trans ih

/-- A request splits the way in two. -/
theorem split (h : Leads s (before ++ q :: after) t) :
    Leads s before q.moment ∧ Leads q.accepted after t := by
  induction before generalizing s with
  | nil =>
    cases h with
    | request hsink hvisits hrest => exact ⟨.quiet hsink hvisits, hrest⟩
  | cons r before ih =>
    cases h with
    | request hsink hvisits hrest =>
      obtain ⟨hbefore, hafter⟩ := ih hrest
      exact ⟨.request hsink hvisits hbefore, hafter⟩

end Leads

/-- Either all texts are taken, or the first that is not ends the run. -/
theorem play_cases {α : Type} (full : String → Bool) (qs : List Request) (result : Result Watched α) :
    (∀ q ∈ qs, q.refusedBy full = false) ∧ play full qs result = result.map (·.limited full) ∨
    ∃ before q after, qs = before ++ q :: after ∧ (∀ r ∈ before, r.refusedBy full = false) ∧
      q.refusedBy full = true ∧
        play full qs result = .failed q.moment.state.sink.error (q.moment.limited full) := by
  unfold play
  cases hfind : qs.find? (·.refusedBy full) with
  | none => exact .inl ⟨by simpa using hfind, rfl⟩
  | some q =>
    obtain ⟨hq, before, after, rfl, hbefore⟩ := List.find?_eq_some_iff_append.1 hfind
    exact .inr ⟨before, q, after, rfl, by simpa using hbefore, hq, rfl⟩

theorem play_never {α : Type} (qs : List Request) (result : Result Watched α) :
    play (fun _ => false) qs result = result.map Watched.unlimited := by
  rcases play_cases (fun _ => false) qs result with ⟨-, h⟩ | ⟨_, q, _, -, -, hq, -⟩
  · exact h
  · rw [q.refusedBy_never] at hq
    cases hq

end Watch

namespace Run

variable {α : Type}

/-- Neither look at the sink nor change it. -/
def Silent (x : Run α) : Prop := ∀ s k, x (s.withSink k) = (x s).map (·.withSink k)

theorem Silent.sink_eq {x : Run α} (hx : x.Silent) (s : State) : (x s).state.sink = s.sink := by
  have h : x s = (x s).map (·.withSink s.sink) := hx s s.sink
  rw [h, Result.state_map]
  rfl

theorem silent_define (e : EnvironmentId) (name : String) (v : Value) : (define e name v).Silent :=
  fun _ _ => rfl

theorem silent_defineAll (e : EnvironmentId) (bs : List (String × Value)) : (defineAll e bs).Silent :=
  fun _ _ => rfl

theorem silent_enter (e : EnvironmentId) : (enter e).Silent := fun _ _ => rfl

theorem silent_allocate (f : Function) : (allocate f).Silent := fun _ _ => rfl

theorem silent_ticking (f : Nat → Except RuntimeError (α × Nat)) : (ticking f).Silent := fun s k => by
  have hticks : (s.withSink k).ticks = s.ticks := rfl
  unfold ticking
  rw [hticks]
  cases f s.ticks <;> rfl

theorem silent_read (e : EnvironmentId) (depth : Nat) (name : Token) : (read e depth name).Silent :=
  fun s k => by
    have hstore : (s.withSink k).store = s.store := rfl
    unfold read
    rw [hstore]
    cases s.store.read e depth name.lexeme name.line <;> rfl

theorem silent_assign (e : EnvironmentId) (depth : Nat) (name : Token) (v : Value) :
    (assign e depth name v).Silent := fun s k => by
  have hstore : (s.withSink k).store = s.store := rfl
  unfold assign
  rw [hstore]
  cases s.store.owner? e depth name.lexeme <;> rfl

end Run

namespace Watch

variable {α β : Type}

def Watched.noting (s : Watched) (r : Resolution) (w : Walk) (env : EnvironmentId) (site : Site) :
    Watched :=
  { s with notes := ⟨site, w, r, env, s.state.store⟩ :: s.visits }

/-- From a state, the run makes requests of a kind, which do not depend on when the sink is full. -/
def ScriptedFrom (P : Request → Prop) (s : Watched) (x : Run α) : Prop :=
  ∃ qs result, (∀ q ∈ qs, P q) ∧ Leads s qs result.state ∧
    ∀ full, x (s.limited full) = play full qs result

def Scripted (P : Request → Prop) (x : Run α) : Prop := ∀ s, ScriptedFrom P s x

variable {P : Request → Prop} {s : Watched}

namespace ScriptedFrom

/-- What follows starts where the first part ends if all texts are taken. -/
theorem bind {x : Run α} {f : α → Run β} (hx : ScriptedFrom P s x)
    (hf : ∀ a t, s.visits <:+ t.visits → x s.unlimited = .done a t.unlimited →
      ScriptedFrom P t (f a)) : ScriptedFrom P s (x >>= f) := by
  obtain ⟨qs, result, hqs, hleads, hplay⟩ := hx
  have hfree := hplay fun _ => false
  rw [play_never] at hfree
  cases result with
  | done a t =>
    obtain ⟨qs', result', hqs', hleads', hplay'⟩ := hf a t hleads.visits hfree
    have hall : ∀ q ∈ qs ++ qs', P q := fun q hq => (List.mem_append.1 hq).elim (hqs q) (hqs' q)
    refine ⟨qs ++ qs', result', hall, hleads.trans hleads', fun full => ?_⟩
    rw [Computation.bind_apply, hplay, play, play, List.find?_append]
    cases qs.find? (·.refusedBy full) with
    | some q => rfl
    | none => exact hplay' full
  | failed e t =>
    refine ⟨qs, .failed e t, hqs, hleads, fun full => ?_⟩
    rw [Computation.bind_apply, hplay, play, play]
    cases qs.find? (·.refusedBy full) <;> rfl
  | unfinished t =>
    refine ⟨qs, .unfinished t, hqs, hleads, fun full => ?_⟩
    rw [Computation.bind_apply, hplay, play, play]
    cases qs.find? (·.refusedBy full) <;> rfl

theorem note {r : Resolution} {w : Walk} {env : EnvironmentId} {site : Site} {x : Run α}
    (hx : ScriptedFrom P (s.noting r w env site) x) :
    ScriptedFrom P s (note r w env site >>= fun _ => x) := by
  obtain ⟨qs, result, hqs, hleads, hplay⟩ := hx
  have hnoting : Leads s [] (s.noting r w env site) := .quiet rfl (List.suffix_cons _ _)
  exact ⟨qs, result, hqs, hnoting.trans hleads, hplay⟩

/-- If the text is taken, what follows starts with it in the sink. -/
theorem write {q : Request} {f : Unit → Run β} (hq : P q) (hf : ScriptedFrom P q.accepted (f ())) :
    ScriptedFrom P q.moment (Observer.lift (.write q.text) >>= f) := by
  obtain ⟨qs, result, hqs, hleads, hplay⟩ := hf
  refine ⟨q :: qs, result, List.forall_mem_cons.2 ⟨hq, hqs⟩,
    .request rfl (List.suffix_refl _) hleads, fun full => ?_⟩
  have hwrite : Observer.lift (.write q.text) (q.moment.limited full) =
      if q.refusedBy full then .failed q.moment.state.sink.error (q.moment.limited full)
      else .done () (q.accepted.limited full) := by
    rw [Observer.lift, Lox.Run.write]
    change (if q.refusedBy full then _ else _ : Result State Unit).map _ = _
    cases q.refusedBy full <;> rfl
  rw [Computation.bind_apply, hwrite, play, List.find?_cons]
  cases q.refusedBy full with
  | true => rfl
  | false => exact hplay full

end ScriptedFrom

namespace Scripted

theorem of_quiet {x : Run α} (result : Watched → Result Watched α)
    (hsink : ∀ s, (result s).state.state.sink = s.state.sink)
    (hvisits : ∀ s, s.visits <:+ (result s).state.visits)
    (h : ∀ s full, x (s.limited full) = (result s).map (·.limited full)) : Scripted P x := fun s =>
  ⟨[], result s, nofun, .quiet (hsink s) (hvisits s), h s⟩

theorem bind {x : Run α} {f : α → Run β} (hx : Scripted P x) (hf : ∀ a, Scripted P (f a)) :
    Scripted P (x >>= f) := fun s => (hx s).bind fun a t _ _ => hf a t

theorem pure (a : α) : Scripted P (Pure.pure a) :=
  .of_quiet (.done a) (fun _ => rfl) (fun _ => List.suffix_refl _) fun _ _ => rfl

theorem fail (e : RuntimeError) : Scripted P (.fail e : Run α) :=
  .of_quiet (.failed e) (fun _ => rfl) (fun _ => List.suffix_refl _) fun _ _ => rfl

theorem exhaust : Scripted P (.exhaust : Run α) :=
  .of_quiet .unfinished (fun _ => rfl) (fun _ => List.suffix_refl _) fun _ _ => rfl

theorem ofExcept (x : Except RuntimeError α) : Scripted P (.ofExcept x) := by
  cases x with
  | ok a => exact .pure a
  | error e => exact .fail e

theorem inspect {f : Watched → α} (hf : ∀ s full, f (s.limited full) = f s) :
    Scripted P (.inspect f) :=
  .of_quiet (fun s => .done (f s) s) (fun _ => rfl) (fun _ => List.suffix_refl _) fun s full => by
    rw [← hf s full]
    rfl

theorem note {r : Resolution} {w : Walk} {env : EnvironmentId} {site : Site} {x : Run α}
    (hx : Scripted P x) : Scripted P (note r w env site >>= fun _ => x) := fun s =>
  .note (hx (s.noting r w env site))

theorem keep {f : FunctionId} {w : Walk} {x : Run α} (hx : Scripted P x) :
    Scripted P (Observer.keep f w >>= fun _ => x) := by
  have hkeep : Scripted P (Observer.keep f w : Run Unit) :=
    .of_quiet (Observer.keep f w) (fun _ => rfl) (fun _ => List.suffix_refl _) fun _ _ => rfl
  exact hkeep.bind fun _ => hx

theorem onFault {x : Run α} (hx : Scripted P x) :
    Scripted P (Observer.onFault (fun visits => visits) x) := by
  rwa [Observer.onFault_id]

theorem lift {x : Lox.Run α} (hx : x.Silent) : Scripted P (Observer.lift x) := by
  have hstate : ∀ s : Watched, (Observer.lift x s).state = { s with state := (x s.state).state } :=
    fun s => Result.state_map _ _
  refine .of_quiet (Observer.lift x) (fun s => ?_) (fun s => ?_) fun s full => ?_
  · rw [hstate]
    exact hx.sink_eq s.state
  · exact hstate s ▸ List.suffix_refl s.visits
  · have hlimited : x (s.limited full).state =
        (x s.state).map (·.withSink { s.state.sink with full }) := hx _ _
    rw [Observer.lift, Observer.lift, hlimited, Result.map_map, Result.map_map]
    apply Result.map_congr
    rw [← hx.sink_eq s.state]
    rfl

theorem repeatWhile {condition : Run Value} {body : Run Flow} (hc : Scripted P condition)
    (hb : Scripted P body) (n : Nat) : Scripted P (repeatWhile condition body n) := by
  induction n with
  | zero => exact .exhaust
  | succ n ih =>
    rw [Computation.repeatWhile_succ]
    refine hc.bind fun v => ?_
    split
    · refine hb.bind fun flow => ?_
      cases flow with
      | next => exact ih
      | returned v => exact .pure _
    · exact .pure _

end Scripted

def valueRequest (v : Value) (t : Watched) : Request := ⟨t.state.store.text v, t⟩

def lineRequest (v : Value) (t : Watched) : Request := ⟨"\n", (valueRequest v t).accepted⟩

/-- A `print` is entered in one state, and its operand has a value in another, if the texts that are
printed on the way are taken. -/
def Prints (σ : Setting) (call : Value → List Value → UInt32 → Run Value) (v : Value) (t : Watched) :
    Prop :=
  ∃ (s : Watched) (w : Walk) (env : EnvironmentId) (e : Expr),
    evaluate σ call w env e (s.noting σ.resolution w env (.statement (.print e))).unlimited =
      .done v t.unlimited ∧ (s.noting σ.resolution w env (.statement (.print e))).visits <:+ t.visits

inductive Printed (σ : Setting) : Request → Prop
  | value {depth : Nat} {v : Value} {t : Watched} (h : Prints σ (call σ depth) v t) :
      Printed σ (valueRequest v t)
  | line {depth : Nat} {v : Value} {t : Watched} (h : Prints σ (call σ depth) v t) :
      Printed σ (lineRequest v t)

section

variable {σ : Setting} {call : Value → List Value → UInt32 → Run Value} {rounds : Nat}
  {P : Request → Prop}

open Lox.Run (silent_read silent_assign silent_define silent_enter silent_allocate)

mutual

theorem evaluate_scripted (hcall : ∀ f args line, Scripted P (call f args line)) (env : EnvironmentId) :
    ∀ (e : Expr) (w : Walk), Scripted P (evaluate σ call w env e)
  | .literal _, _ => .note (.pure _)
  | .group inner, w => .note (evaluate_scripted hcall env inner w)
  | .unary _ operand, w => .note ((evaluate_scripted hcall env operand w).bind fun _ =>
    .onFault (.ofExcept _))
  | .binary left _ right, w => .note ((evaluate_scripted hcall env left w).bind fun _ =>
    (evaluate_scripted hcall env right _).bind fun _ => .onFault (.ofExcept _))
  | .logical left op right, w => .note ((evaluate_scripted hcall env left w).bind fun l => by
    split
    · exact .pure l
    · exact evaluate_scripted hcall env right _)
  | .use _ _, _ => .note (.onFault (.lift (silent_read _ _ _)))
  | .assign _ _ value, w => .note ((evaluate_scripted hcall env value w).bind fun v =>
    .note ((Scripted.onFault (.lift (silent_assign _ _ _ v))).bind fun _ => .pure v))
  | .call callee args paren, w => .note ((evaluate_scripted hcall env callee w).bind fun f =>
    (evaluateAll_scripted hcall env args _).bind fun vs => .onFault (hcall f vs paren.line))

theorem evaluateAll_scripted (hcall : ∀ f args line, Scripted P (call f args line))
    (env : EnvironmentId) : ∀ (es : List Expr) (w : Walk), Scripted P (evaluateAll σ call w env es)
  | [], _ => .pure _
  | e :: es, w => (evaluate_scripted hcall env e w).bind fun _ =>
    (evaluateAll_scripted hcall env es _).bind fun _ => .pure _

end

mutual

theorem execute_scripted (hcall : ∀ f args line, Scripted P (call f args line))
    (hprint : ∀ v t, Prints σ call v t → P (valueRequest v t) ∧ P (lineRequest v t)) :
    ∀ (s : Stmt) (inFunction : Bool) (w : Walk) (env : EnvironmentId),
      Scripted P (execute σ call rounds inFunction w env s)
  | .expression e, _, w, env => .note ((evaluate_scripted hcall env e w).bind fun _ => .pure _)
  | .print e, _, w, env => fun s => .note <| by
    refine (evaluate_scripted hcall env e w _).bind fun v t hvisits hvalue => ?_
    obtain ⟨htext, hline⟩ := hprint v t ⟨s, w, env, e, hvalue, hvisits⟩
    exact .write htext (.write hline (Scripted.pure _ _))
  | .var name none, _, _, env => .note ((Scripted.lift (silent_define env _ _)).bind fun _ => .pure _)
  | .var name (some init), _, _, env => .note ((evaluate_scripted hcall env init _).bind fun v =>
    (Scripted.lift (silent_define env _ v)).bind fun _ => .pure _)
  | .block body, inFunction, _, env => .note ((Scripted.lift (silent_enter env)).bind fun inner =>
    executeAll_scripted hcall hprint body inFunction _ inner)
  | .branch condition consequent none, inFunction, w, env =>
    .note ((evaluate_scripted hcall env condition w).bind fun v => by
      split
      · exact execute_scripted hcall hprint consequent inFunction _ env
      · exact .pure _)
  | .branch condition consequent (some alternative), inFunction, w, env =>
    .note ((evaluate_scripted hcall env condition w).bind fun v => by
      split
      · exact execute_scripted hcall hprint consequent inFunction _ env
      · exact execute_scripted hcall hprint alternative inFunction _ env)
  | .loop condition body, inFunction, w, env =>
    .note ((evaluate_scripted hcall env condition w).repeatWhile
      (execute_scripted hcall hprint body inFunction _ env) rounds)
  | .function name params body, _, _, env => .note ((Scripted.lift (silent_allocate _)).bind fun f =>
    .keep ((Scripted.lift (silent_define env _ _)).bind fun _ => .pure _))
  | .ret _ none, _, _, _ => .note (.pure _)
  | .ret _ (some value), _, _, env => .note ((evaluate_scripted hcall env value _).bind fun _ =>
    .pure _)

theorem executeAll_scripted (hcall : ∀ f args line, Scripted P (call f args line))
    (hprint : ∀ v t, Prints σ call v t → P (valueRequest v t) ∧ P (lineRequest v t)) :
    ∀ (ss : List Stmt) (inFunction : Bool) (w : Walk) (env : EnvironmentId),
      Scripted P (executeAll σ call rounds inFunction w env ss)
  | [], _, _, _ => .pure _
  | s :: ss, inFunction, w, env => (execute_scripted hcall hprint s inFunction w env).bind fun flow => by
    cases flow with
    | next => exact executeAll_scripted hcall hprint ss inFunction _ env
    | returned v => exact .pure _

end

end

theorem call_scripted (σ : Setting) (depth : Nat) :
    ∀ f args line, Scripted (Printed σ) (call σ depth f args line) := by
  induction depth with
  | zero => exact fun _ _ _ => .exhaust
  | succ depth ih =>
    intro f args line
    cases f with
    | nil | bool | number | string => exact .fail _
    | function f =>
      refine (Scripted.inspect fun _ _ => rfl).bind fun g => ?_
      cases g with
      | none => exact .fail _
      | some g =>
        dsimp only
        split
        · exact .fail _
        cases g with
        | native name arity builtin => exact .lift (Lox.Run.silent_ticking _)
        | declared name params body closure =>
          refine (Scripted.inspect fun _ _ => rfl).bind fun w => ?_
          refine (Scripted.lift (Lox.Run.silent_enter closure)).bind fun env => ?_
          refine (Scripted.lift (Lox.Run.silent_defineAll env _)).bind fun _ => ?_
          refine (executeAll_scripted ih (fun _ _ h => ⟨.value h, .line h⟩) body true _ env).bind
            fun flow => ?_
          cases flow <;> exact .pure _

/-- A program makes the requests of its `print`s, and they do not depend on when the sink is full. -/
theorem runProgram_scripted (σ : Setting) (budget : Nat) : ∀ (p : Program) (w : Walk),
    Scripted (Printed σ) (runProgram σ budget w p)
  | [], _ => .pure ()
  | s :: ss, w => (execute_scripted (call_scripted σ budget) (fun _ _ h => ⟨.value h, .line h⟩) s
      false w globals).bind fun _ => runProgram_scripted σ budget ss _

end Watch
end Lox
