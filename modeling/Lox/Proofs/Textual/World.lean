import Lox.Proofs.Growth
import Lox.Proofs.Initializers
import Lox.Proofs.Scopes
import Lox.Proofs.Textual.Evaluation

/-! Cells and their slots.
Every cell belongs to one name in one environment, its slot. A chain of environments corresponds to
scopes if each name that a scope has is in the slot of its cell, and the states of the two
evaluators are related if cells and slots have the same values. -/
namespace Lox
namespace Textual

/-- The slots of the cells: for each cell, the environment and the name that have its value. -/
abbrev World := List (EnvironmentId × String)

def SameNames : List Lox.Scope → Scopes → Prop
  | [], [] => True
  | tracked :: outer, scope :: ρ =>
    (∀ x, (tracked.lookup x).isSome = (scope.lookup x).isSome) ∧ SameNames outer ρ
  | _, _ => False

/-- From an environment up to the globals there is one environment for each scope, with a slot for
each name that the scope has. -/
def Chain (W : World) (s : Store) : EnvironmentId → Scopes → Prop
  | e, [] => e = globals
  | e, scope :: ρ =>
    (∀ x c, scope.lookup x = some c → W[c]? = some (e, x)) ∧
      ∃ e', s.enclosing? e = some e' ∧ Chain W s e' ρ

/-- An environment and scopes correspond where the walk has this state. -/
structure Stands (e : EnvironmentId) (ρ : Scopes) (w : Walk) (W : World) (s : Store) : Prop where
  chain : Chain W s e ρ
  names : SameNames w.scopes ρ

/-- The innermost scope has a name for every slot of the environment. -/
def Current (e : EnvironmentId) (ρ : Scopes) (W : World) : Prop :=
  ∀ scope ∈ ρ.head?, ∀ x c, W[c]? = some (e, x) → scope.lookup x = some c

/-- They correspond, and statements can be executed there. -/
structure At (e : EnvironmentId) (ρ : Scopes) (w : Walk) (W : World) (s : Store) : Prop
    extends Stands e ρ w W s where
  current : Current e ρ W

variable {W W' : World} {s s' : Store} {e : EnvironmentId} {ρ : Scopes} {v w : Walk}

theorem slot_mono (hW : W <+: W') {c : CellId} {slot : EnvironmentId × String}
    (hc : W[c]? = some slot) : W'[c]? = some slot := by
  obtain ⟨V, rfl⟩ := hW
  rwa [List.getElem?_append_left (List.getElem?_eq_some_iff.1 hc).1]

theorem Chain.mono (hW : W <+: W')
    (hs : ∀ a b, s.enclosing? a = some b → s'.enclosing? a = some b) :
    ∀ {ρ : Scopes} {e : EnvironmentId}, Chain W s e ρ → Chain W' s' e ρ
  | [], _, h => h
  | _ :: _, _, ⟨hc, e', he, h⟩ =>
    ⟨fun x c hx => slot_mono hW (hc x c hx), e', hs _ _ he, Chain.mono hW hs h⟩

theorem Stands.mono (h : Stands e ρ w W s) (hW : W <+: W')
    (hs : ∀ a b, s.enclosing? a = some b → s'.enclosing? a = some b) : Stands e ρ w W' s' :=
  ⟨h.chain.mono hW hs, h.names⟩

theorem Stands.congr_walk (h : Stands e ρ w W s) (hw : v.scopes = w.scopes) : Stands e ρ v W s :=
  ⟨h.chain, hw ▸ h.names⟩

theorem At.congr_walk (h : At e ρ w W s) (hw : v.scopes = w.scopes) : At e ρ v W s :=
  ⟨h.toStands.congr_walk hw, h.current⟩

/-- The walk counts the links up to the slot of the cell. -/
theorem find (x : String) : ∀ {tracked : List Lox.Scope} {ρ : Scopes}
    {e : EnvironmentId}, SameNames tracked ρ → Chain W s e ρ →
    (tracked.findIdx? (fun scope => (scope.lookup x).isSome) = none ∧ ρ.cell? x = none) ∨
    ∃ d c a, tracked.findIdx? (fun scope => (scope.lookup x).isSome) = some d ∧
      ρ.cell? x = some c ∧ s.ancestor? e d = some a ∧ W[c]? = some (a, x)
  | [], [], _, _, _ => .inl ⟨rfl, rfl⟩
  | tracked :: outer, scope :: ρ, e, hn, ⟨hc, e', he, h⟩ => by
    rw [List.findIdx?_cons, hn.1 x, Scopes.cell?, List.findSome?_cons]
    cases hx : scope.lookup x with
    | some c => exact .inr ⟨0, c, e, rfl, rfl, rfl, hc x c hx⟩
    | none =>
      rcases find x hn.2 h with ⟨hd, hc⟩ | ⟨d, c, a, hd, hc, ha, hW⟩
      · exact .inl ⟨by simp [hd], hc⟩
      · exact .inr ⟨d + 1, c, a, by simp [hd], hc, by simp [Store.ancestor?, he, ha], hW⟩

/-- Functions that behave alike. What is known of a declared function lets its body be executed. -/
inductive SameFunction (r : Resolution) (known : UseId → Prop) (W : World) (s : Store) :
    Lox.Function → Function → Prop
  | native (name : String) (arity : Nat) (builtin : Builtin) :
    SameFunction r known W s (.native name arity builtin) (.native name arity builtin)
  | declared {name : Token} {params : List Token} {body : List Stmt} {e : EnvironmentId}
    {ρ : Scopes} {w : Walk} (stands : Stands e ρ w W s)
    (settled : (w.openBody params).SettledStatements r true body)
    (plain : Stmt.arePlain body) (clean : Stmt.initializeCleanly true body)
    (uses : ∀ id ∈ Stmt.usesAll body, known id) :
    SameFunction r known W s (.declared name params body e) (.declared name params body ρ)

/-- The states of the two evaluators, the world saying where the cells are. -/
structure Related (r : Resolution) (known : UseId → Prop) (W : World) (s : Lox.State) (t : State) :
    Prop where
  sink : s.sink = t.sink
  ticks : s.ticks = t.ticks
  rooted : globals < s.store.nextEnvironment
  root : s.store.enclosing? globals = none
  global : ∀ x, s.store.binding? globals x = t.globals.get? x
  length : W.length = t.cells.length
  nodup : W.Nodup
  cell : ∀ (c : CellId) e x, W[c]? = some (e, x) → e ≠ globals ∧ s.store.binding? e x = t.cells[c]?
  complete : ∀ e x, e ≠ globals → (s.store.binding? e x).isSome → (e, x) ∈ W
  count : s.store.functions.size = t.functions.length
  function : ∀ f g, s.store.function? f = some g →
    ∃ h, t.functions[f]? = some h ∧ SameFunction r known W s.store g h

section

variable {r : Resolution} {known : UseId → Prop} {s : Lox.State} {t : State}

theorem SameFunction.mono {s s' : Store} {g : Lox.Function} {h : Function} (hW : W <+: W')
    (hs : ∀ a b, s.enclosing? a = some b → s'.enclosing? a = some b) :
    SameFunction r known W s g h → SameFunction r known W' s' g h
  | .native name arity builtin => .native name arity builtin
  | .declared stands settled plain clean uses =>
    .declared (stands.mono hW hs) settled plain clean uses

theorem SameFunction.arity_eq {s : Store} {g : Lox.Function} {h : Function} :
    SameFunction r known W s g h → g.arity = h.arity
  | .native _ _ _ | .declared .. => rfl

theorem SameFunction.text_eq {s : Store} {g : Lox.Function} {h : Function} :
    SameFunction r known W s g h → g.text = h.text
  | .native _ _ _ | .declared .. => rfl

namespace Related

theorem isSome_cell (h : Related r known W s t) {c : CellId} {a : EnvironmentId} {x : String}
    (hc : W[c]? = some (a, x)) : (s.store.binding? a x).isSome := by
  rw [(h.cell c a x hc).2]
  have hlt : c < t.cells.length := h.length ▸ (List.getElem?_eq_some_iff.1 hc).1
  simp [hlt]

theorem function_none (h : Related r known W s t) {f : FunctionId}
    (hf : s.store.function? f = none) : t.functions[f]? = none := by
  have : s.store.functions.size ≤ f := Array.getElem?_eq_none_iff.1 hf
  exact List.getElem?_eq_none (h.count ▸ this)

theorem text_eq (h : Related r known W s t) (v : Value) : s.store.text v = t.text v := by
  unfold Store.text State.text
  congr 1
  funext f
  cases hf : s.store.function? f with
  | none => rw [h.function_none hf]
  | some g =>
    obtain ⟨g', hg', hsame⟩ := h.function f g hf
    rw [hg']
    exact hsame.text_eq

/-- A change of the bindings, the cells and the globals that keeps the two sides equal. -/
theorem rebind {W' : World} (h : Related r known W s t) (hW : W <+: W') (hnodup : W'.Nodup)
    {store : Store} {cells : List Value} {bindings : Bindings}
    (henclosing : ∀ a, store.enclosing? a = s.store.enclosing? a)
    (hnext : store.nextEnvironment = s.store.nextEnvironment)
    (hfunctions : store.functions = s.store.functions)
    (hglobal : ∀ x, store.binding? Lox.globals x = bindings.get? x)
    (hlength : W'.length = cells.length)
    (hcell : ∀ (c : CellId) e x, W'[c]? = some (e, x) → e ≠ Lox.globals ∧ store.binding? e x = cells[c]?)
    (hcomplete : ∀ e x, e ≠ Lox.globals → (store.binding? e x).isSome → (e, x) ∈ W') :
    Related r known W' { s with store } { t with cells, globals := bindings } where
  sink := h.sink
  ticks := h.ticks
  rooted := hnext ▸ h.rooted
  root := (henclosing _).trans h.root
  global := hglobal
  length := hlength
  nodup := hnodup
  cell := hcell
  complete := hcomplete
  count := hfunctions ▸ h.count
  function f g hf := by
    rw [Store.function?, hfunctions] at hf
    obtain ⟨g', hg', hsame⟩ := h.function f g hf
    exact ⟨g', hg', hsame.mono hW fun a b hab => (henclosing a).trans hab⟩

theorem setCell (h : Related r known W s t) {c : CellId} {a : EnvironmentId} {x : String}
    (hc : W[c]? = some (a, x)) (v : Value) :
    Related r known W { s with store := s.store.define a x v } { t with cells := t.cells.set c v } := by
  have ha := h.cell c a x hc
  have hnext := Store.lt_of_binding? (h.isSome_cell hc)
  refine h.rebind (List.prefix_refl W) h.nodup (fun b => by simp) (by simp) rfl (fun y => ?_)
    (by simp [h.length]) (fun c' e y hc' => ⟨(h.cell c' e y hc').1, ?_⟩) fun e y he hy => ?_
  · rw [Store.binding?_define, if_neg fun hh => ha.1 hh.1.symm]
    exact h.global y
  · rw [Store.binding?_define, List.getElem?_set]
    by_cases hcc : c = c'
    · subst hcc
      rw [hc] at hc'
      injection hc' with hp
      injection hp with he hy
      have hlt : c < t.cells.length := h.length ▸ (List.getElem?_eq_some_iff.1 hc).1
      rw [if_pos ⟨he.symm, hy, hnext⟩, if_pos rfl, if_pos hlt]
    · rw [if_neg hcc, if_neg, (h.cell c' e y hc').2]
      -- Two cells have different slots.
      rintro ⟨rfl, rfl, -⟩
      have hlt := (List.getElem?_eq_some_iff.1 hc).1
      exact hcc ((List.getElem?_inj hlt h.nodup).1 (hc.trans hc'.symm))
  · rw [Store.binding?_define] at hy
    split at hy
    · next hh =>
      rw [hh.1, ← hh.2.1]
      exact List.mem_of_getElem? hc
    · exact h.complete e y he hy

theorem setGlobal (h : Related r known W s t) (x : String) (v : Value) :
    Related r known W { s with store := s.store.define Lox.globals x v }
      { t with globals := t.globals.set x v } := by
  refine h.rebind (List.prefix_refl W) h.nodup (fun b => by simp) (by simp) rfl (fun y => ?_)
    h.length (fun c e y hc => ⟨(h.cell c e y hc).1, ?_⟩) fun e y he hy => ?_
  · rw [Store.binding?_define, Bindings.get?_set, h.global y]
    simp [h.rooted]
  · rw [Store.binding?_define, if_neg fun hh => (h.cell c e y hc).1 hh.1]
    exact (h.cell c e y hc).2
  · rw [Store.binding?_define, if_neg fun hh => he hh.1] at hy
    exact h.complete e y he hy

theorem newCell (h : Related r known W s t) {a : EnvironmentId} {x : String}
    (ha : a ≠ Lox.globals) (hnext : a < s.store.nextEnvironment) (hx : (a, x) ∉ W) (v : Value) :
    Related r known (W ++ [(a, x)]) { s with store := s.store.define a x v }
      { t with cells := t.cells ++ [v] } := by
  have hnodup : (W ++ [(a, x)]).Nodup :=
    List.nodup_append.2 ⟨h.nodup, by simp, fun p hp q hq hpq => by
      rw [List.mem_singleton.1 hq] at hpq
      exact hx (hpq ▸ hp)⟩
  refine h.rebind (List.prefix_append W _) hnodup (fun b => by simp) (by simp) rfl (fun y => ?_)
    (by simp [h.length]) (fun c e y hc => ?_) fun e y he hy => ?_
  · rw [Store.binding?_define, if_neg fun hh => ha hh.1.symm]
    exact h.global y
  · rw [List.getElem?_append] at hc
    rw [Store.binding?_define, List.getElem?_append, ← h.length]
    split at hc
    · next hlt =>
      have hmem := List.mem_of_getElem? hc
      rw [if_pos hlt, if_neg]
      · exact h.cell c e y hc
      · rintro ⟨rfl, rfl, -⟩
        exact hx hmem
    · next hlt =>
      obtain ⟨hl, hg⟩ := List.getElem?_eq_some_iff.1 hc
      simp only [List.length_singleton, Nat.lt_one_iff] at hl
      simp only [hl, List.getElem_cons_zero, Prod.mk.injEq] at hg
      rw [if_neg hlt, if_pos ⟨hg.1.symm, hg.2, hnext⟩, hl]
      exact ⟨hg.1 ▸ ha, rfl⟩
  · rw [Store.binding?_define] at hy
    split at hy
    · next hh =>
      rw [hh.1, ← hh.2.1]
      simp
    · exact List.mem_append_left _ (h.complete e y he hy)

theorem push (h : Related r known W s t) (a : EnvironmentId) :
    Related r known W { s with store := s.store.push (some a) } t where
  sink := h.sink
  ticks := h.ticks
  rooted := by
    rw [Store.nextEnvironment_push]
    exact Nat.lt_succ_of_lt h.rooted
  root := by
    rw [Store.enclosing?_push, if_neg (Nat.ne_of_lt h.rooted)]
    exact h.root
  global x := (Store.binding?_push ..).trans (h.global x)
  length := h.length
  nodup := h.nodup
  cell c e x hc := ⟨(h.cell c e x hc).1, (Store.binding?_push ..).trans (h.cell c e x hc).2⟩
  complete e x he hx := h.complete e x he (by simpa using hx)
  count := h.count
  function f g hf := by
    obtain ⟨g', hg', hsame⟩ := h.function f g hf
    refine ⟨g', hg', hsame.mono (List.prefix_refl W) fun e e' he => ?_⟩
    rw [Store.enclosing?_push, if_neg (Nat.ne_of_lt (Store.lt_of_enclosing? he))]
    exact he

theorem allocate (h : Related r known W s t) {g : Lox.Function} {g' : Function}
    (hg : SameFunction r known W s.store g g') :
    Related r known W { s with store := (s.store.allocate g).2 }
      { t with functions := t.functions ++ [g'] } where
  sink := h.sink
  ticks := h.ticks
  rooted := h.rooted
  root := h.root
  global := h.global
  length := h.length
  nodup := h.nodup
  cell := h.cell
  complete := h.complete
  count := by simp [Store.allocate, h.count]
  function f k hf := by
    rw [Store.function?_allocate] at hf
    have hlinks : ∀ a b, s.store.enclosing? a = some b →
        (s.store.allocate g).2.enclosing? a = some b := fun _ _ hab => hab
    split at hf
    · next heq =>
      cases hf
      exact ⟨g', by simp [heq, h.count], hg.mono (List.prefix_refl W) hlinks⟩
    · next hne =>
      obtain ⟨k', hk', hsame⟩ := h.function f k hf
      refine ⟨k', ?_, hsame.mono (List.prefix_refl W) hlinks⟩
      rw [List.getElem?_append_left (List.getElem?_eq_some_iff.1 hk').1, hk']

end Related

end

end Textual
end Lox
