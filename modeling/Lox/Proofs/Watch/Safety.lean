import Lox.Proofs.Watch.Lockstep

/-! Everything that a watched run notes is in step.
The invariant speaks of all function objects in the store, so that a function can be called wherever
and whenever. It is proved of every part of a watched run, by induction on the tree, and on the depth
of calls. -/
namespace Lox
namespace Watch

def Site.variable? : Site → Option (UseId × Token)
  | .expression (.use id name) => some (id, name)
  | .write id name => some (id, name)
  | _ => none

structure Body (plain : Prop) (r : Resolution) (known : UseId → Prop) (w : Walk) (s : Store)
    (params : List Token) (body : List Stmt) (closure : EnvironmentId) : Prop where
  lockstep : Lockstep plain closure w s
  ready : w.Ready
  settled : (w.openBody params).SettledStatements r true body
  plain : plain → Stmt.arePlain body
  uses : ∀ id ∈ Stmt.usesAll body, known id

/-- The invariant of watched runs. -/
structure Good (plain : Prop) (r : Resolution) (known : UseId → Prop) (s : Watched) : Prop where
  rooted : globals < s.state.store.nextEnvironment
  root : s.state.store.enclosing? globals = none
  function : ∀ f name params body closure,
    s.state.store.function? f = some (.declared name params body closure) →
      Body plain r known (s.around f) s.state.store params body closure
  visits : ∀ v ∈ s.visits, v.InStep ∧ (plain → v.Bound)

/-- The invariant is kept, whatever happens, and a condition on the store is established. -/
def Safe {α : Type} (plain : Prop) (r : Resolution) (known : UseId → Prop) (P : Store → Prop)
    (x : Run α) (Q : α → Store → Prop) : Prop :=
  ∀ s, Good plain r known s → P s.state.store →
    Good plain r known (x s).state ∧
    s.state.store.Grows (fun _ => True) (x s).state.state.store ∧
    ∀ a t, x s = .done a t → Q a t.state.store

def Stable (P : Store → Prop) : Prop := ∀ s t, s.Grows (fun _ => True) t → P s → P t

section

variable {plain : Prop} {r : Resolution} {known : UseId → Prop} {P : Store → Prop} {α β : Type}
  {Q : α → Store → Prop} {R : β → Store → Prop} {env : EnvironmentId} {w : Walk}

theorem stable_lockstep : Stable (Lockstep plain env w) := fun _ _ hst h => h.mono hst

theorem Safe.pure {a : α} (h : ∀ s, P s → Q a s) : Safe plain r known P (Pure.pure a) Q := by
  refine fun s hs hp => ⟨hs, .refl _, fun b t hb => ?_⟩
  cases hb
  exact h _ hp

theorem Safe.fail (e : RuntimeError) : Safe plain r known P (.fail e) Q :=
  fun _ hs _ => ⟨hs, .refl _, nofun⟩

theorem Safe.ofExcept (x : Except RuntimeError α) :
    Safe plain r known P (.ofExcept x) fun _ _ => True := by
  cases x with
  | ok a => exact .pure fun _ _ => trivial
  | error e => exact .fail e

theorem Safe.inspect (f : Watched → α) : Safe plain r known P (.inspect f) fun _ _ => True :=
  fun _ hs _ => ⟨hs, .refl _, fun _ _ _ => trivial⟩

/-- What is seen of the state can be used for what is done next. -/
theorem Safe.look {h : Watched → β} {f : β → Run α}
    (hf : ∀ s, Good plain r known s → P s.state.store →
      ∃ P' : Store → Prop, P' s.state.store ∧ Safe plain r known P' (f (h s)) Q) :
    Safe plain r known P (.inspect h >>= f) Q := by
  intro s hs hp
  obtain ⟨P', hp', hsafe⟩ := hf s hs hp
  exact hsafe s hs hp'

theorem Safe.mono {P' : Store → Prop} {Q' : α → Store → Prop} {x : Run α}
    (hx : Safe plain r known P x Q) (hP : ∀ s, P' s → P s) (hQ : ∀ a s, Q a s → Q' a s) :
    Safe plain r known P' x Q' := fun s hs hp =>
  have ⟨hgood, hgrows, hq⟩ := hx s hs (hP _ hp)
  ⟨hgood, hgrows, fun a t ht => hQ _ _ (hq a t ht)⟩

theorem Safe.keep {x : Run α} (hx : Safe plain r known P x Q) {P' : Store → Prop}
    (hP : ∀ s, P s → P' s) (hstable : Stable P') :
    Safe plain r known P x fun a s => Q a s ∧ P' s := by
  intro s hs hp
  obtain ⟨hgood, hgrows, hq⟩ := hx s hs hp
  refine ⟨hgood, hgrows, fun a t ht => ⟨hq a t ht, ?_⟩⟩
  rw [ht] at hgrows
  exact hstable _ _ hgrows (hP _ hp)

theorem Safe.bind {x : Run α} {f : α → Run β} (hx : Safe plain r known P x Q)
    (hf : ∀ a, Safe plain r known (Q a) (f a) R) : Safe plain r known P (x >>= f) R := by
  intro s hs hp
  obtain ⟨hgood, hgrows, hq⟩ := hx s hs hp
  rw [Computation.bind_apply]
  cases hxs : x s with
  | done a t =>
    rw [hxs] at hgood hgrows
    obtain ⟨hgood, hgrows', hr⟩ := hf a t hgood (hq a t hxs)
    exact ⟨hgood, hgrows.trans hgrows' fun _ _ _ => trivial, hr⟩
  | failed e t =>
    rw [hxs] at hgood hgrows
    exact ⟨hgood, hgrows, nofun⟩
  | unfinished t =>
    rw [hxs] at hgood hgrows
    exact ⟨hgood, hgrows, nofun⟩

/-- Where the first step keeps its precondition. -/
theorem Safe.andThen {x : Run α} {f : α → Run β} (hstable : Stable P)
    (hx : Safe plain r known P x fun _ _ => True) (hf : ∀ a, Safe plain r known P (f a) R) :
    Safe plain r known P (x >>= f) R :=
  ((hx.keep (fun _ h => h) hstable).mono (fun _ h => h) fun _ _ h => h.2).bind hf

theorem Body.mono {A : EnvironmentId → Prop} {s t : Store} {params : List Token}
    {body : List Stmt} {closure : EnvironmentId} (h : Body plain r known w s params body closure)
    (hst : s.Grows A t) : Body plain r known w t params body closure :=
  { h with lockstep := h.lockstep.mono hst }

theorem Good.grow {A : EnvironmentId → Prop} {s : Watched} (hs : Good plain r known s)
    {state : State} (hgrows : s.state.store.Grows A state.store)
    (hfunctions : state.store.functions = s.state.store.functions) :
    Good plain r known { s with state } where
  rooted := Nat.lt_of_lt_of_le hs.rooted hgrows.next_le
  root := (hgrows.enclosing globals hs.rooted).trans hs.root
  function f name params body closure hf := by
    rw [Store.function?, hfunctions] at hf
    exact (hs.function f name params body closure hf).mono hgrows
  visits := hs.visits

theorem Safe.lift {A : EnvironmentId → Prop} {x : Lox.Run α} (hgrows : x.Grows A)
    (hfunctions : ∀ s, (x s).state.store.functions = s.store.functions)
    (hq : ∀ s a t, s.store.enclosing? globals = none → P s.store → x s = .done a t → Q a t.store) :
    Safe plain r known P (Observer.lift x) Q := by
  intro s hs hp
  have hg := hgrows s.state
  have hf := hfunctions s.state
  have hq := hq s.state
  unfold Observer.lift
  cases hx : x s.state with
  | done a t =>
    rw [hx] at hg hf
    refine ⟨hs.grow hg hf, (Store.Grows.refl _).trans hg fun _ _ _ => trivial, fun b u hb => ?_⟩
    cases hb
    exact hq a t hs.root hp hx
  | failed e t =>
    rw [hx] at hg hf
    exact ⟨hs.grow hg hf, (Store.Grows.refl _).trans hg fun _ _ _ => trivial, nofun⟩
  | unfinished t =>
    rw [hx] at hg hf
    exact ⟨hs.grow hg hf, (Store.Grows.refl _).trans hg fun _ _ _ => trivial, nofun⟩

theorem Safe.note {site : Site} {x : Run α}
    (hv : ∀ s, P s → s.enclosing? globals = none →
      (Visit.mk site w r env s).InStep ∧ (plain → (Visit.mk site w r env s).Bound))
    (hx : Safe plain r known P x Q) :
    Safe plain r known P (Watch.note r w env site >>= fun _ => x) Q := by
  intro s hs hp
  refine hx { s with notes := ⟨site, w, r, env, s.state.store⟩ :: s.visits } ?_ hp
  refine { hs with visits := fun v hmem => ?_ }
  rcases List.mem_cons.1 hmem with rfl | hmem
  · exact hv s.state.store hp hs.root
  · exact hs.visits v hmem

theorem Safe.onFault {x : Run α} (hx : Safe plain r known P x Q) :
    Safe plain r known P (Observer.onFault (fun visits => visits) x) Q := by
  rwa [Observer.onFault_id]

theorem Lockstep.visit {site : Site} {s : Store} (h : Lockstep plain env w s)
    (hroot : s.enclosing? globals = none) (hsite : site.variable? = none) :
    (Visit.mk site w r env s).InStep ∧ (plain → (Visit.mk site w r env s).Bound) := by
  have huse : ∀ id name, site ≠ .expression (.use id name) := by
    rintro id name rfl
    cases hsite
  have hwrite : ∀ id name, site ≠ .write id name := by
    rintro id name rfl
    cases hsite
  exact ⟨⟨h.chain, hroot, fun id name _ hs => absurd hs (huse id name),
      fun id name _ hs => absurd hs (hwrite id name)⟩,
    fun hp => ⟨h.ready hp, fun id name _ hs => absurd hs (huse id name),
      fun id name _ _ hs => absurd hs (hwrite id name)⟩⟩

theorem Lockstep.visit_use {id : UseId} {name : Token} {s : Store} (h : Lockstep plain env w s)
    (hroot : s.enclosing? globals = none) (hw : w.OuterReady)
    (hid : w.Settled r (.use id name)) :
    (Visit.mk (.expression (.use id name)) w r env s).InStep ∧
      (plain → (Visit.mk (.expression (.use id name)) w r env s).Bound) := by
  refine ⟨⟨h.chain, hroot, ?_, (fun _ _ _ hs => nomatch hs)⟩,
    fun hp => ⟨h.ready hp, ?_, (fun _ _ _ _ hs => nomatch hs)⟩⟩
  · rintro _ _ d ⟨⟩ hd
    exact h.isSome_ancestor? (hid.1.symm.trans hd)
  · rintro _ _ d ⟨⟩ hd
    obtain ⟨a, ha, hb⟩ := h.bound hp hw (hid.1.symm.trans hd) hid.2
    obtain ⟨value, hvalue⟩ := Option.isSome_iff_exists.1 hb
    exact ⟨value, by simp [Store.read, ha, hvalue]⟩

theorem Lockstep.visit_write {id : UseId} {name : Token} {s : Store} (h : Lockstep plain env w s)
    (hroot : s.enclosing? globals = none) (hw : w.OuterReady)
    (hid : r[id]? = w.depth? name.lexeme) :
    (Visit.mk (.write id name) w r env s).InStep ∧
      (plain → (Visit.mk (.write id name) w r env s).Bound) := by
  refine ⟨⟨h.chain, hroot, (fun _ _ _ hs => nomatch hs), ?_⟩,
    fun hp => ⟨h.ready hp, (fun _ _ _ hs => nomatch hs), ?_⟩⟩
  · rintro _ _ d ⟨⟩ hd
    exact h.isSome_ancestor? (hid.symm.trans hd)
  · rintro _ _ d value ⟨⟩ hd hx
    obtain ⟨a, ha, hb⟩ := h.bound hp hw (hid.symm.trans hd) hx
    exact ⟨_, by simp [Store.write, Store.owner?, ha, hb, Option.filter]; rfl⟩

theorem Safe.repeatWhile {c : Run Value} {b : Run Flow} (hstable : Stable P)
    (hc : Safe plain r known P c fun _ _ => True) (hb : Safe plain r known P b fun _ _ => True)
    (n : Nat) : Safe plain r known P (repeatWhile c b n) fun _ _ => True := by
  induction n with
  | zero => exact fun s hs _ => ⟨hs, .refl _, nofun⟩
  | succ n ih =>
    rw [Computation.repeatWhile_succ]
    refine .andThen hstable hc fun v => ?_
    split
    · refine .andThen hstable hb fun flow => ?_
      cases flow with
      | next => exact ih
      | returned v => exact .pure fun _ _ => trivial
    · exact .pure fun _ _ => trivial

theorem Safe.define {v : Walk} {x : String} {value : Value}
    (htail : v.scopes.tail = w.scopes.tail) (hlength : v.scopes.length = w.scopes.length)
    (hhead : ∀ scope ∈ v.scopes.head?, ∀ y, scope.lookup y = some true →
      y = x ∨ ∃ outer ∈ w.scopes.head?, outer.lookup y = some true) :
    Safe plain r known (Lockstep plain env w) (Observer.lift (.define env x value))
      fun _ => Lockstep plain env v := by
  refine .lift (Run.grows_define env x value) (fun _ => rfl) fun s a t _ h hst => ?_
  cases hst
  exact h.declare htail hlength hhead value

theorem head_enter {ready : Bool} {x : String} :
    ∀ scope ∈ (w.enter x ready).scopes.head?, ∀ y, scope.lookup y = some true →
      y = x ∨ ∃ outer ∈ w.scopes.head?, outer.lookup y = some true := by
  intro scope hs y hy
  rw [Walk.scopes_enter] at hs
  cases hw : w.scopes with
  | nil => simp [hw] at hs
  | cons head outer =>
    simp only [hw, List.head?_cons, Option.mem_def, Option.some.injEq] at hs
    rw [← hs, List.lookup_cons] at hy
    split at hy
    · next hyx => exact .inl (eq_of_beq hyx)
    · exact .inr ⟨head, rfl, hy⟩

theorem Safe.enter : Safe plain r known (Lockstep plain env w) (Observer.lift (.enter env))
    fun inner => Lockstep plain inner w.openScope := by
  refine .lift (A := fun _ => True) (fun s => (s.store.grows_push _).weaken) (fun _ => rfl) fun s a t _ h hst => ?_
  cases hst
  exact h.push

theorem Safe.defineAll (bs : List (String × Value)) :
    Safe plain r known (Lockstep plain env w) (Observer.lift (.defineAll env bs))
      fun _ => Lockstep plain env (w.enterAll (bs.map Prod.fst)) := by
  refine .lift (Run.grows_defineAll env bs) (fun s => ?_) fun s a t _ h hst => ?_
  · change (s.store.defineAll env bs).functions = s.store.functions
    generalize s.store = store
    induction bs generalizing store with
    | nil => rfl
    | cons b bs ih => exact ih _
  · cases hst
    change Lockstep plain env _ (s.store.defineAll env bs)
    generalize s.store = store at h
    induction bs generalizing store w with
    | nil => exact h
    | cons b bs ih =>
      have hb : Lockstep plain env (w.enter b.1 true) (store.define env b.1 b.2) :=
        h.declare (Walk.tail_scopes_enter ..) (Walk.length_scopes_enter ..) head_enter b.2
      exact ih _ hb

end

section

variable {plain : Prop} {σ : Setting} {known : UseId → Prop}
  {call : Value → List Value → UInt32 → Run Value} {rounds : Nat}

abbrev CallsSafe (plain : Prop) (r : Resolution) (known : UseId → Prop)
    (call : Value → List Value → UInt32 → Run Value) : Prop :=
  ∀ f args line, Safe plain r known (fun _ => True) (call f args line) fun _ _ => True

mutual

theorem evaluate_safe (hcall : CallsSafe plain σ.resolution known call) (env : EnvironmentId) :
    ∀ (e : Expr) {w : Walk}, w.OuterReady → w.Settled σ.resolution e →
      Safe plain σ.resolution known (Lockstep plain env w) (evaluate σ call w env e)
        fun _ _ => True
  | .literal _, _, _, _ =>
    .note (fun _ h hroot => h.visit hroot rfl) (.pure fun _ _ => trivial)
  | .group inner, _, hw, hs =>
    .note (fun _ h hroot => h.visit hroot rfl) (evaluate_safe hcall _ inner hw hs)
  | .unary _ operand, _, hw, hs =>
    .note (fun _ h hroot => h.visit hroot rfl)
      (.andThen stable_lockstep (evaluate_safe hcall _ operand hw hs) fun _ => .onFault (.ofExcept _))
  | .binary left _ right, w, hw, hs => by
    have hscopes := Walk.scopes_expression w left
    refine .note (fun _ h hroot => h.visit hroot rfl) ?_
    refine .andThen stable_lockstep (evaluate_safe hcall _ left hw hs.1) fun _ => ?_
    have hright := evaluate_safe hcall env right (hw.congr hscopes) hs.2
    exact .andThen stable_lockstep (hright.mono (fun _ h => h.congr hscopes) fun _ _ h => h)
      fun _ => .onFault (.ofExcept _)
  | .logical left op right, w, hw, hs => by
    have hscopes := Walk.scopes_expression w left
    refine .note (fun _ h hroot => h.visit hroot rfl) ?_
    refine .andThen stable_lockstep (evaluate_safe hcall _ left hw hs.1) fun l => ?_
    have hright := evaluate_safe hcall env right (hw.congr hscopes) hs.2
    split
    · exact .pure fun _ _ => trivial
    · exact hright.mono (fun _ h => h.congr hscopes) fun _ _ h => h
  | .use id name, _, hw, hs =>
    .note (fun _ h hroot => h.visit_use hroot hw hs)
      (.onFault (.lift (Run.frames_read _ _ name) (fun s => by unfold Run.read; split <;> rfl)
        fun _ _ _ _ _ _ => trivial))
  | .assign id name value, w, hw, hs => by
    have hscopes := Walk.scopes_expression w value
    have hid : σ.resolution[id]? = (w.expression value).depth? name.lexeme :=
      hs.2.trans (Walk.depth?_congr hscopes name.lexeme).symm
    refine .note (fun _ h hroot => h.visit hroot rfl) ?_
    refine .andThen stable_lockstep (evaluate_safe hcall _ value hw hs.1) fun v => ?_
    refine .note (fun _ h hroot => (h.congr hscopes).visit_write hroot (hw.congr hscopes) hid) ?_
    refine .andThen stable_lockstep (.onFault (.lift (Run.frames_assign _ _ name v) (fun s => ?_)
      fun _ _ _ _ _ _ => trivial)) fun _ => .pure fun _ _ => trivial
    unfold Run.assign
    split <;> rfl
  | .call callee args paren, w, hw, hs => by
    have hscopes := Walk.scopes_expression w callee
    refine .note (fun _ h hroot => h.visit hroot rfl) ?_
    refine .andThen stable_lockstep (evaluate_safe hcall _ callee hw hs.1) fun f => ?_
    have hargs := evaluateAll_safe hcall env args (hw.congr hscopes) hs.2
    refine .andThen stable_lockstep (hargs.mono (fun _ h => h.congr hscopes) fun _ _ h => h)
      fun vs => ?_
    exact .onFault ((hcall f vs paren.line).mono (fun _ _ => trivial) fun _ _ h => h)

theorem evaluateAll_safe (hcall : CallsSafe plain σ.resolution known call) (env : EnvironmentId) :
    ∀ (es : List Expr) {w : Walk}, w.OuterReady → w.SettledAll σ.resolution es →
      Safe plain σ.resolution known (Lockstep plain env w) (evaluateAll σ call w env es)
        fun _ _ => True
  | [], _, _, _ => .pure fun _ _ => trivial
  | e :: es, w, hw, hs => by
    have hscopes := Walk.scopes_expression w e
    refine .andThen stable_lockstep (evaluate_safe hcall _ e hw hs.1) fun v => ?_
    have hrest := evaluateAll_safe hcall env es (hw.congr hscopes) hs.2
    exact .andThen stable_lockstep (hrest.mono (fun _ h => h.congr hscopes) fun _ _ h => h)
      fun _ => .pure fun _ _ => trivial

end

/-- Declaring a function. The walk is kept before the name is bound, so that nothing can call the
function in between. -/
theorem Safe.declareFunction {env : EnvironmentId} {w : Walk} {name : Token} {params : List Token}
    {body : List Stmt} {α : Type} {x : Run α} {Q : α → Store → Prop} {r : Resolution} (hw : w.Ready)
    (settled : (w.enterBody name params).SettledStatements r true body)
    (hplain : plain → Stmt.arePlain body) (uses : ∀ id ∈ Stmt.usesAll body, known id)
    (hx : Safe plain r known (Lockstep plain env (w.enter name.lexeme true)) x Q) :
    Safe plain r known (Lockstep plain env w)
      (do
        let f ← Observer.lift (.allocate (.declared name params body env))
        Observer.keep f (w.enter name.lexeme true)
        Observer.lift (.define env name.lexeme (.function f))
        x) Q := by
  intro s hs h
  obtain ⟨state, around, visits⟩ := s
  generalize hg : Function.declared name params body env = g
  let f := state.store.functions.size
  let store := (state.store.allocate g).2.define env name.lexeme (.function f)
  have hallocate := state.store.grows_allocate g
  have hdefine := (state.store.allocate g).2.grows_define env name.lexeme (.function f)
  have hgrows : state.store.Grows (fun _ => True) store :=
    hallocate.weaken.trans hdefine fun _ _ _ => trivial
  have hlockstep : Lockstep plain env (w.enter name.lexeme true) store :=
    (h.mono hallocate).declare (Walk.tail_scopes_enter ..) (Walk.length_scopes_enter ..)
      head_enter (.function f)
  have hgood : Good plain r known ⟨{ state with store },
      fun k => if k = f then w.enter name.lexeme true else around k, visits⟩ := by
    refine ⟨Nat.lt_of_lt_of_le hs.rooted hgrows.next_le,
      (hgrows.enclosing globals hs.rooted).trans hs.root, fun k n ps b c hk => ?_, hs.visits⟩
    change (state.store.allocate g).2.function? k = _ at hk
    rw [Store.function?_allocate] at hk
    dsimp only [Watched.around]
    split at hk
    · next heq =>
      rw [if_pos heq]
      rw [← hg] at hk
      cases hk
      exact ⟨hlockstep, hw.enter name.lexeme, settled, hplain, uses⟩
    · next hne =>
      rw [if_neg hne]
      exact (hs.function k n ps b c hk).mono hgrows
  obtain ⟨hgood', hgrows', hq⟩ := hx _ hgood hlockstep
  exact ⟨hgood', hgrows.trans hgrows' fun _ _ _ => trivial, hq⟩

mutual

/-- Executing a statement, and being ready for the next one. -/
theorem execute_safe (hcall : CallsSafe plain σ.resolution known call) :
    ∀ (st : Stmt) {inFunction : Bool} {w : Walk} (env : EnvironmentId), w.Ready →
      w.SettledStatement σ.resolution inFunction st → (plain → st.isPlain) →
      (∀ id ∈ st.uses, known id) →
      Safe plain σ.resolution known (Lockstep plain env w)
        (execute σ call rounds inFunction w env st)
        fun flow s => flow = .next → Lockstep plain env (w.statement inFunction st) s
  | .expression e, _, w, _, hw, hs, _, _ => by
    refine .note (fun _ h hroot => h.visit hroot rfl) ?_
    refine .andThen stable_lockstep (evaluate_safe hcall _ e hw.outer hs) fun _ => ?_
    exact .pure fun _ h _ => h.congr (Walk.scopes_expression w e)
  | .print e, _, w, _, hw, hs, _, _ => by
    refine .note (fun _ h hroot => h.visit hroot rfl) ?_
    refine .andThen stable_lockstep (evaluate_safe hcall _ e hw.outer hs) fun v => ?_
    refine .andThen stable_lockstep (.inspect _) fun text => ?_
    have hwrite (text : String) : ∀ s, (Run.write text s).state.store.functions =
        s.store.functions := fun s => by
      unfold Run.write
      split <;> rfl
    refine .andThen stable_lockstep (.lift (Run.frames_write text) (hwrite text)
      fun _ _ _ _ _ _ => trivial) fun _ => ?_
    refine .andThen stable_lockstep (.lift (Run.frames_write "\n") (hwrite "\n")
      fun _ _ _ _ _ _ => trivial) fun _ => ?_
    exact .pure fun _ h _ => h.congr (Walk.scopes_expression w e)
  | .var name none, _, w, _, hw, _, _, _ => by
    refine .note (fun _ h hroot => h.visit hroot rfl) ?_
    refine Safe.bind (Safe.define (Walk.tail_scopes_enter w name.lexeme true)
      (Walk.length_scopes_enter ..) head_enter) fun _ => ?_
    exact .pure fun _ h _ => h
  | .var name (some init), _, w, env, hw, hs, _, _ => by
    refine .note (fun _ h hroot => h.visit hroot rfl) ?_
    have hscopes := Walk.scopes_expression (w.enter name.lexeme false) init
    have hinit := evaluate_safe hcall env init (hw.outer.enter name.lexeme false) hs
    refine .andThen stable_lockstep (hinit.mono (fun _ h => h.initializer) fun _ _ h => h)
      fun v => ?_
    refine Safe.bind (Safe.define ?_ ?_ fun scope hs y hy => ?_) fun _ => .pure fun _ h _ => h
    · rw [Walk.statement, Walk.tail_scopes_enter, hscopes, Walk.tail_scopes_enter]
    · rw [Walk.statement, Walk.length_scopes_enter, hscopes, Walk.length_scopes_enter]
    · rcases head_enter scope hs y hy with hyx | ⟨outer, ho, hy⟩
      · exact .inl hyx
      · exact head_enter outer (hscopes ▸ ho) y hy
  | .block body, inFunction, w, env, hw, hs, hp, hknown => by
    refine .note (fun _ h hroot => h.visit hroot rfl) ?_
    have hbody : Safe plain σ.resolution known (Lockstep plain env w)
        (do
          let inner ← Observer.lift (.enter env)
          executeAll σ call rounds inFunction w.openScope inner body) fun _ _ => True :=
      Safe.enter.bind fun inner => executeAll_safe hcall body _ hw.openScope hs hp hknown
    refine (hbody.keep (fun _ h => h) stable_lockstep).mono (fun _ h => h) fun _ _ h _ => ?_
    exact h.2.congr (Walk.scopes_block inFunction w body)
  | .branch condition consequent none, inFunction, w, env, hw, hs, hp, hknown => by
    have hscopes := Walk.scopes_expression w condition
    have hconsequent := execute_safe hcall consequent env (hw.congr hscopes) hs.2
      (fun hp' => Stmt.isPlain_of_isBody (hp hp')) fun id hid => hknown id (List.mem_append_right _ hid)
    refine .note (fun _ h hroot => h.visit hroot rfl) ?_
    refine .andThen stable_lockstep (evaluate_safe hcall _ condition hw.outer hs.1) fun v => ?_
    split
    · exact hconsequent.mono (fun _ h => h.congr hscopes) fun _ _ h => h
    · exact .pure fun _ h _ => (h.congr hscopes).body inFunction hp
  | .branch condition consequent (some alternative), inFunction, w, env, hw, hs, hp, hknown => by
    have hscopes := Walk.scopes_expression w condition
    have hp₁ : plain → consequent.isBody := fun hp' => (Bool.and_eq_true_iff.1 (hp hp')).1
    have hp₂ : plain → alternative.isBody := fun hp' => (Bool.and_eq_true_iff.1 (hp hp')).2
    have hready := hw.congr hscopes
    have hconsequent := execute_safe hcall consequent env hready hs.2.1
      (fun hp' => Stmt.isPlain_of_isBody (hp₁ hp'))
      fun id hid => hknown id (List.mem_append_right _ (List.mem_append_left _ hid))
    have halternative := execute_safe hcall alternative env
      (hready.statement inFunction consequent) hs.2.2
      (fun hp' => Stmt.isPlain_of_isBody (hp₂ hp'))
      fun id hid => hknown id (List.mem_append_right _ (List.mem_append_right _ hid))
    refine .note (fun _ h hroot => h.visit hroot rfl) ?_
    refine .andThen stable_lockstep (evaluate_safe hcall _ condition hw.outer hs.1) fun v => ?_
    split
    · exact hconsequent.mono (fun _ h => h.congr hscopes) fun _ _ h hnext =>
        (h hnext).body inFunction hp₂
    · exact halternative.mono (fun _ h => (h.congr hscopes).body inFunction hp₁) fun _ _ h => h
  | .loop condition body, inFunction, w, env, hw, hs, hp, hknown => by
    have hscopes := Walk.scopes_expression w condition
    have hbody := execute_safe hcall body env (hw.congr hscopes) hs.2
      (fun hp' => Stmt.isPlain_of_isBody (hp hp')) fun id hid => hknown id (List.mem_append_right _ hid)
    refine .note (fun _ h hroot => h.visit hroot rfl) ?_
    have hrounds := Safe.repeatWhile stable_lockstep
      (evaluate_safe hcall _ condition hw.outer hs.1)
      (hbody.mono (fun _ h => h.congr hscopes) fun _ _ _ => trivial) rounds
    exact (hrounds.keep (fun _ h => h) stable_lockstep).mono (fun _ h => h) fun _ _ h _ =>
      (h.2.congr hscopes).body inFunction hp
  | .function name params body, inFunction, w, _, hw, hs, hp, hknown => by
    refine .note (fun _ h hroot => h.visit hroot rfl) ?_
    refine Safe.declareFunction hw hs hp hknown (.pure fun _ h _ => ?_)
    exact h.congr (Walk.scopes_function inFunction w name params body)
  | .ret _ none, _, _, _, _, _, _, _ =>
    .note (fun _ h hroot => h.visit hroot rfl) (.pure fun _ _ => nofun)
  | .ret keyword (some value), inFunction, w, env, hw, hs, _, _ => by
    have hscopes := Walk.scopes_enterReturn w inFunction keyword
    refine .note (fun _ h hroot => h.visit hroot rfl) ?_
    have hvalue := evaluate_safe hcall env value (hw.congr hscopes).outer hs
    refine .andThen stable_lockstep (hvalue.mono (fun _ h => h.congr hscopes) fun _ _ h => h)
      fun v => ?_
    exact .pure fun _ _ => nofun

theorem executeAll_safe (hcall : CallsSafe plain σ.resolution known call) :
    ∀ (ss : List Stmt) {inFunction : Bool} {w : Walk} (env : EnvironmentId), w.Ready →
      w.SettledStatements σ.resolution inFunction ss → (plain → Stmt.arePlain ss) →
      (∀ id ∈ Stmt.usesAll ss, known id) →
      Safe plain σ.resolution known (Lockstep plain env w)
        (executeAll σ call rounds inFunction w env ss) fun _ _ => True
  | [], _, _, _, _, _, _, _ => .pure fun _ _ => trivial
  | st :: ss, inFunction, w, env, hw, hs, hp, hknown => by
    have hst := execute_safe hcall st env hw hs.1
      (fun hp' => (Bool.and_eq_true_iff.1 (hp hp')).1)
      fun id hid => hknown id (List.mem_append_left _ hid)
    refine hst.bind fun flow => ?_
    cases flow with
    | next =>
      refine (executeAll_safe hcall ss _ (hw.statement inFunction st) hs.2
        (fun hp' => (Bool.and_eq_true_iff.1 (hp hp')).2)
        fun id hid => hknown id (List.mem_append_right _ hid)).mono (fun _ h => h rfl)
        fun _ _ h => h
    | returned v => exact .pure fun _ _ => trivial

end

end

theorem call_safe {plain : Prop} {known : UseId → Prop} (σ : Setting) (depth : Nat) :
    CallsSafe plain σ.resolution known (call σ depth) := by
  induction depth with
  | zero => exact fun _ _ _ s hs _ => ⟨hs, .refl _, nofun⟩
  | succ depth ih =>
    intro f args line
    cases f with
    | nil | bool | number | string => exact .fail _
    | function f =>
      refine Safe.look fun s hs _ => ⟨(·.function? f = s.state.store.function? f), rfl, ?_⟩
      generalize s.state.store.function? f = g
      cases g with
      | none => exact .fail _
      | some g =>
        dsimp only
        split
        · exact .fail _
        next harity =>
        cases g with
        | native name arity builtin =>
          exact .lift (Run.frames_ticking _) (fun s => by unfold Run.ticking; split <;> rfl)
            fun _ _ _ _ _ _ => trivial
        | declared name params body closure =>
          have hnames : ((params.map Token.lexeme).zip args).map Prod.fst = params.map Token.lexeme := by
            refine List.map_fst_zip (Nat.le_of_eq ?_)
            rw [List.length_map]
            exact (Decidable.not_not.1 harity).symm
          refine Safe.look fun s hs hf => ?_
          have hbody := hs.function f name params body closure hf
          refine ⟨Lockstep plain closure (s.around f), hbody.lockstep, ?_⟩
          refine Safe.enter.bind fun env => ?_
          refine (Safe.defineAll ((params.map Token.lexeme).zip args)).bind fun _ => ?_
          rw [hnames]
          refine Safe.bind (executeAll_safe ih body _ (hbody.ready.openBody params) hbody.settled
            hbody.plain hbody.uses) fun flow => ?_
          cases flow <;> exact .pure fun _ _ => trivial

theorem runProgram_safe {plain : Prop} {known : UseId → Prop} (σ : Setting) (budget : Nat) :
    ∀ (p : Program) {w : Walk}, w.scopes = [] → w.SettledStatements σ.resolution false p →
      (plain → Stmt.arePlain p) → (∀ id ∈ p.uses, known id) →
      Safe plain σ.resolution known (fun _ => True) (runProgram σ budget w p) fun _ _ => True
  | [], _, _, _, _, _ => .pure fun _ _ => trivial
  | st :: p, w, hw, hs, hp, hknown => by
    have hready : w.Ready := by simp [Walk.Ready, hw]
    have hglobals : ∀ s, Lockstep plain globals w s := fun s =>
      ⟨by rw [hw]; rfl, fun _ i scope x hscope => by simp [hw] at hscope⟩
    have hnext : (w.statement false st).scopes = [] := by
      rw [← List.length_eq_zero_iff, (Walk.tail_scopes_statement false w st).2, hw]
      rfl
    refine Safe.bind (Safe.mono (execute_safe (call_safe σ budget) st _ hready hs.1
      (fun hp' => (Bool.and_eq_true_iff.1 (hp hp')).1)
      fun id hid => hknown id (List.mem_append_left _ hid))
      (fun s _ => hglobals s) fun _ _ _ => trivial) fun _ => ?_
    exact runProgram_safe σ budget p hnext hs.2
      (fun hp' => (Bool.and_eq_true_iff.1 (hp hp')).2)
      fun id hid => hknown id (List.mem_append_right _ hid)

end Watch
end Lox
