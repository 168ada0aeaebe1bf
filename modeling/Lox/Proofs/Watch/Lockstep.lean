import Lox.Proofs.Scopes
import Lox.Proofs.Watch.Evaluation

/-! Scopes of the walk and environments of the run.
Wherever a run comes, the chain of environments is as long as the stack of scopes that the walk has
there, and ends with the globals. If branches and loop bodies are no bare declarations, the names
that the scopes have ready are bound in the environments (`execute_safe`, `call_safe`). -/
namespace Lox

namespace Store

variable {s t : Store} {e a : EnvironmentId} {A : EnvironmentId → Prop}

theorem Grows.ancestor (h : s.Grows A t) {d : Nat} (he : s.ancestor? e d = some a) :
    t.ancestor? e d = some a := by
  induction d generalizing e with
  | zero => exact he
  | succ d ih =>
    rw [ancestor?, Option.bind_eq_some_iff] at he ⊢
    obtain ⟨e', he', hd⟩ := he
    exact ⟨e', (h.enclosing e (lt_of_enclosing? he')).trans he', ih hd⟩

theorem isSome_ancestor? {n d : Nat} (he : (s.ancestor? e n).isSome) (hd : d ≤ n) :
    (s.ancestor? e d).isSome := by
  induction n generalizing e d with
  | zero => rwa [Nat.le_zero.1 hd]
  | succ n ih =>
    cases d with
    | zero => rfl
    | succ d =>
      rw [ancestor?] at he ⊢
      cases he' : s.enclosing? e with
      | none => simp [he'] at he
      | some e' =>
        rw [he'] at he
        exact ih he (Nat.le_of_succ_le_succ hd)

end Store

namespace Walk

variable {v w : Walk}

/-- No name of an open scope is in its initializer. -/
def Ready (w : Walk) : Prop := ∀ scope ∈ w.scopes, ∀ x, scope.lookup x ≠ some false

/-- Only the innermost scope may have a name in its initializer. -/
def OuterReady (w : Walk) : Prop := ∀ scope ∈ w.scopes.tail, ∀ x, scope.lookup x ≠ some false

theorem Ready.outer (h : w.Ready) : w.OuterReady :=
  fun scope hs => h scope (List.mem_of_mem_tail hs)

theorem Ready.congr (h : w.Ready) (hv : v.scopes = w.scopes) : v.Ready := by
  rw [Ready, hv]
  exact h

theorem OuterReady.congr (h : w.OuterReady) (hv : v.scopes = w.scopes) : v.OuterReady := by
  rw [OuterReady, hv]
  exact h

theorem Ready.openScope (h : w.Ready) : w.openScope.Ready := by
  intro scope hs
  rcases List.mem_cons.1 hs with rfl | hs
  · exact fun x => nofun
  · exact h scope hs

theorem OuterReady.enter (h : w.OuterReady) (x : String) (ready : Bool) :
    (w.enter x ready).OuterReady := by
  rw [OuterReady, tail_scopes_enter]
  exact h

/-- A name that is ready hides that it was in its initializer. -/
theorem ready_enter (h : w.OuterReady) {x : String}
    (hx : ∀ scope ∈ w.scopes.head?, ∀ y, scope.lookup y = some false → y = x) :
    (w.enter x true).Ready := by
  intro scope hs y
  rw [scopes_enter] at hs
  cases hw : w.scopes with
  | nil => simp [hw] at hs
  | cons head outer =>
    rw [hw] at hs
    rcases List.mem_cons.1 hs with rfl | hs
    · rw [List.lookup_cons]
      split
      · exact nofun
      · next hy =>
        intro hf
        have := hx head (by rw [hw]; rfl) y hf
        simp [this] at hy
    · exact h scope (by rw [hw]; exact hs) y

theorem Ready.enter (h : w.Ready) (x : String) : (w.enter x true).Ready :=
  ready_enter h.outer fun scope hs y hf => absurd hf (h scope (List.mem_of_mem_head? hs) y)

theorem Ready.enterAll (h : w.Ready) (names : List String) : (w.enterAll names).Ready := by
  unfold Walk.enterAll
  induction names generalizing w with
  | nil => exact h
  | cons name names ih => exact ih (h.enter name)

theorem Ready.openBody (h : w.Ready) (params : List Token) : (w.openBody params).Ready :=
  h.openScope.enterAll _

theorem Ready.statement {w : Walk} (inFunction : Bool) (h : w.Ready) : ∀ s : Stmt,
    (w.statement inFunction s).Ready
  | .expression e | .print e => h.congr (scopes_expression w e)
  | .var name none => h.enter name.lexeme
  | .var name (some init) => by
    have hw := scopes_expression (w.enter name.lexeme false) init
    refine ready_enter ((h.outer.enter name.lexeme false).congr hw) fun scope hs y hf => ?_
    rw [hw, scopes_enter] at hs
    cases hc : w.scopes with
    | nil => simp [hc] at hs
    | cons head outer =>
      simp only [hc, List.head?_cons, Option.mem_def, Option.some.injEq] at hs
      rw [← hs, List.lookup_cons] at hf
      split at hf
      · next hy => exact eq_of_beq hy
      · exact absurd hf (h head (by rw [hc]; exact List.mem_cons_self) y)
  | .block body => h.congr (scopes_block inFunction w body)
  | .branch condition consequent none =>
    (h.congr (scopes_expression w condition)).statement inFunction consequent
  | .branch condition consequent (some alternative) =>
    ((h.congr (scopes_expression w condition)).statement inFunction consequent).statement inFunction
      alternative
  | .loop condition body => (h.congr (scopes_expression w condition)).statement inFunction body
  | .function name params body =>
    (h.enter name.lexeme).congr (scopes_function inFunction w name params body)
  | .ret keyword value => by
    have hreturn := scopes_enterReturn w inFunction keyword
    cases value with
    | none => exact h.congr hreturn
    | some value => exact h.congr ((scopes_expression _ value).trans hreturn)

theorem depth?_eq_some {x : String} {d : Nat} (h : w.depth? x = some d) :
    ∃ scope b, w.scopes[d]? = some scope ∧ scope.lookup x = some b := by
  obtain ⟨hd, hx, -⟩ := List.findIdx?_eq_some_iff_getElem.1 h
  obtain ⟨b, hb⟩ := Option.isSome_iff_exists.1 hx
  exact ⟨w.scopes[d], b, List.getElem?_eq_getElem hd, hb⟩

end Walk

namespace Watch

/-- What a visit shows of any program. -/
structure Visit.InStep (v : Visit) : Prop where
  /-- One environment for each scope, and then the globals. -/
  chain : v.store.ancestor? v.env v.walk.scopes.length = some globals
  last : v.store.enclosing? globals = none
  /-- A distance that is looked up leads to an environment. -/
  use : ∀ id name d, v.site = .expression (.use id name) → v.resolution[id]? = some d →
    (v.store.ancestor? v.env d).isSome
  write : ∀ id name d, v.site = .write id name → v.resolution[id]? = some d →
    (v.store.ancestor? v.env d).isSome

/-- What a visit shows where branches and loop bodies are no bare declarations. -/
structure Visit.Bound (v : Visit) : Prop where
  ready : ∀ i scope x, v.walk.scopes[i]? = some scope → scope.lookup x = some true →
    ∃ a, v.store.ancestor? v.env i = some a ∧ (v.store.binding? a x).isSome
  /-- A local variable that is read has a value. -/
  use : ∀ id name d, v.site = .expression (.use id name) → v.resolution[id]? = some d →
    ∃ value, v.store.read v.env d name.lexeme name.line = .ok value
  /-- A local variable that is assigned exists, unless this is done in its own initializer. -/
  write : ∀ id name d value, v.site = .write id name → v.resolution[id]? = some d →
    v.walk.inOwnInitializer name.lexeme = false →
      ∃ store, v.store.write v.env d name.lexeme name.line value = .ok store

/-- An environment is in step with the walk. -/
structure Lockstep (plain : Prop) (env : EnvironmentId) (w : Walk) (s : Store) : Prop where
  chain : s.ancestor? env w.scopes.length = some globals
  ready : plain → ∀ i scope x, w.scopes[i]? = some scope → scope.lookup x = some true →
    ∃ a, s.ancestor? env i = some a ∧ (s.binding? a x).isSome

section

variable {plain : Prop} {env : EnvironmentId} {v w : Walk} {s t : Store} {r : Resolution}

theorem Lockstep.mono {A : EnvironmentId → Prop} (h : Lockstep plain env w s)
    (hst : s.Grows A t) : Lockstep plain env w t where
  chain := hst.ancestor h.chain
  ready hp i scope x hs hx := by
    obtain ⟨a, ha, hb⟩ := h.ready hp i scope x hs hx
    exact ⟨a, hst.ancestor ha, hst.bound a x hb⟩

theorem Lockstep.congr (h : Lockstep plain env w s) (hv : v.scopes = w.scopes) :
    Lockstep plain env v s := by
  refine ⟨?_, ?_⟩ <;> rw [hv]
  · exact h.chain
  · exact h.ready

/-- Every scope has its environment. -/
theorem Lockstep.isSome_ancestor? (h : Lockstep plain env w s) {x : String} {d : Nat}
    (hd : w.depth? x = some d) : (s.ancestor? env d).isSome := by
  obtain ⟨scope, -, hs, -⟩ := Walk.depth?_eq_some hd
  have hlt := (List.getElem?_eq_some_iff.1 hs).1
  exact Store.isSome_ancestor? (by rw [h.chain]; rfl) (Nat.le_of_lt hlt)

/-- A name that is found is bound, unless it is in its initializer. -/
theorem Lockstep.bound (h : Lockstep plain env w s) (hp : plain) (hw : w.OuterReady) {x : String}
    {d : Nat} (hd : w.depth? x = some d) (hx : w.inOwnInitializer x = false) :
    ∃ a, s.ancestor? env d = some a ∧ (s.binding? a x).isSome := by
  obtain ⟨scope, b, hs, hb⟩ := Walk.depth?_eq_some hd
  cases b with
  | true => exact h.ready hp d scope x hs hb
  | false =>
    exfalso
    cases hc : w.scopes with
    | nil => simp [hc] at hs
    | cons head outer =>
      rw [hc] at hs
      cases d with
      | zero =>
        simp only [List.getElem?_cons_zero, Option.some.injEq] at hs
        simp [Walk.inOwnInitializer, hc, hs, hb] at hx
      | succ d => exact hw scope (by rw [hc]; exact List.mem_of_getElem? hs) x hb

/-- The innermost scope gains a name, and so does the environment. -/
theorem Lockstep.declare (h : Lockstep plain env w s) {x : String}
    (htail : v.scopes.tail = w.scopes.tail) (hlength : v.scopes.length = w.scopes.length)
    (hhead : ∀ scope ∈ v.scopes.head?, ∀ y, scope.lookup y = some true →
      y = x ∨ ∃ outer ∈ w.scopes.head?, outer.lookup y = some true) (value : Value) :
    Lockstep plain env v (s.define env x value) := by
  have hgrows := s.grows_define env x value
  refine ⟨?_, fun hp i scope y hs hy => ?_⟩
  · rw [hlength]
    exact hgrows.ancestor h.chain
  · have hold : ∀ outer, w.scopes[i]? = some outer → outer.lookup y = some true →
        ∃ a, (s.define env x value).ancestor? env i = some a ∧
          ((s.define env x value).binding? a y).isSome := fun outer ho hy =>
      (h.mono hgrows).ready hp i outer y ho hy
    cases i with
    | succ i =>
      rw [← List.getElem?_tail, htail, List.getElem?_tail] at hs
      exact hold scope hs hy
    | zero =>
      rw [← List.head?_eq_getElem?] at hs
      rcases hhead scope hs y hy with rfl | ⟨outer, ho, hy⟩
      · refine ⟨env, rfl, ?_⟩
        -- There is a scope, so that the environment is not the last one.
        have hpos : 0 < w.scopes.length := by
          rw [← hlength]
          cases hv : v.scopes with
          | nil => simp [hv] at hs
          | cons _ _ => exact Nat.succ_pos _
        have hlt : env < s.nextEnvironment := by
          have hchain := h.chain
          rw [← Nat.succ_pred_eq_of_pos hpos, Store.ancestor?, Option.bind_eq_some_iff] at hchain
          obtain ⟨e', he', -⟩ := hchain
          exact Store.lt_of_enclosing? he'
        rw [Store.binding?_define, if_pos ⟨rfl, rfl, hlt⟩]
        rfl
      · exact hold outer (by rw [← List.head?_eq_getElem?]; exact ho) hy

/-- While its initializer is walked a name is not ready, whether it is bound or not. -/
theorem Lockstep.initializer (h : Lockstep plain env w s) {x : String} :
    Lockstep plain env (w.enter x false) s := by
  refine ⟨by rw [Walk.length_scopes_enter]; exact h.chain, fun hp i scope y hs hy => ?_⟩
  rw [Walk.scopes_enter] at hs
  cases hw : w.scopes with
  | nil => simp [hw] at hs
  | cons head outer =>
    rw [hw] at hs
    cases i with
    | succ i => exact h.ready hp (i + 1) scope y (by rw [hw]; exact hs) hy
    | zero =>
      simp only [List.getElem?_cons_zero, Option.some.injEq] at hs
      rw [← hs, List.lookup_cons] at hy
      split at hy
      · cases hy
      · exact h.ready hp 0 head y (by rw [hw]; rfl) hy

/-- A new scope gets a new environment. -/
theorem Lockstep.push (h : Lockstep plain env w s) :
    Lockstep plain s.nextEnvironment w.openScope (s.push (some env)) := by
  have hgrows := s.grows_push (some env)
  have hlink : (s.push (some env)).enclosing? s.nextEnvironment = some env := by
    rw [Store.enclosing?_push, if_pos rfl]
  refine ⟨?_, fun hp i scope x hs hx => ?_⟩
  · change (s.push (some env)).ancestor? s.nextEnvironment (w.scopes.length + 1) = _
    rw [Store.ancestor?, hlink]
    exact hgrows.ancestor h.chain
  · cases i with
    | zero =>
      cases hs
      cases hx
    | succ i =>
      rw [Store.ancestor?, hlink]
      exact (h.mono hgrows).ready hp i scope x hs hx

/-- Whether a branch is taken or not, scopes and environments are in step behind it. -/
theorem Lockstep.body (h : Lockstep plain env w s) (inFunction : Bool) {st : Stmt}
    (hst : plain → st.isBody) : Lockstep plain env (w.statement inFunction st) s := by
  have hlength := (Walk.tail_scopes_statement inFunction w st).2
  refine ⟨by rw [hlength]; exact h.chain, fun hp => ?_⟩
  have hbody := Bool.and_eq_true_iff.1 (hst hp)
  have hdeclares : st.declares = false := by simpa using hbody.1
  rw [Walk.scopes_statement_of_isPlain inFunction w st hbody.2 hdeclares]
  exact h.ready hp

end

end Watch
end Lox
