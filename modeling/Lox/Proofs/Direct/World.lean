import Lox.Proofs.Direct.Evaluation
import Lox.Proofs.Growth
import Lox.Proofs.Scopes

/-! Environments of rewritten loops.
A rewritten loop makes an environment for each round around body and increment, and the loop as it
is written makes none. The other environments correspond one to one, with equal bindings, and those
for rounds bind nothing (`Related`). The scopes of the walk count the environments for rounds, and
the scopes of the text do not, so that names are found in corresponding environments
(`Place.locate`). -/
namespace Lox

theorem Store.enclosing?_push_of_eq_some {store : Store} {p : Option EnvironmentId}
    {a b : EnvironmentId} (h : store.enclosing? a = some b) :
    (store.push p).enclosing? a = some b := by
  rwa [enclosing?_push, if_neg (Nat.ne_of_lt (lt_of_enclosing? h))]

namespace Direct

/-- Two stores and the correspondence between them: for each environment of the direct run, the
environment of the other run. -/
structure World where
  pairs : List EnvironmentId
  real : Store
  direct : Store

/-- Corresponding environments go on corresponding and keep their links; what corresponds in addition
is new. -/
structure World.Extends (W W' : World) : Prop where
  pairs : ∃ new, W'.pairs = W.pairs ++ new ∧ ∀ e ∈ new, W.real.nextEnvironment ≤ e
  next_le : W.real.nextEnvironment ≤ W'.real.nextEnvironment
  real : ∀ a b, W.real.enclosing? a = some b → W'.real.enclosing? a = some b
  direct : ∀ a b, W.direct.enclosing? a = some b → W'.direct.enclosing? a = some b

/-- Where a piece of text stands in the two runs: the scopes around it and its environment, in the
text and as the walk and the other run have them. -/
inductive Place (W : World) : Scopes → EnvironmentId → List Scope → EnvironmentId → Prop
  | top : Place W [] globals [] globals
  | scope {names : List String} {ρ : Scopes} {i i' : EnvironmentId} {tracked : Scope}
    {outer : List Scope} {e e' : EnvironmentId}
    (same : ∀ x, (tracked.lookup x).isSome = decide (x ∈ names)) (pair : W.pairs[i]? = some e)
    (direct : W.direct.enclosing? i = some i') (real : W.real.enclosing? e = some e')
    (around : Place W ρ i' outer e') : Place W (names :: ρ) i (tracked :: outer) e
  /-- The walk opens a scope for the round of a loop, in which nothing is declared. -/
  | round {ρ : Scopes} {i : EnvironmentId} {outer : List Scope} {e e' : EnvironmentId}
    (unpaired : e ∉ W.pairs) (real : W.real.enclosing? e = some e')
    (around : Place W ρ i outer e') : Place W ρ i ([] :: outer) e

variable {W W' W'' : World} {ρ : Scopes} {i e : EnvironmentId} {tracked : List Scope}

namespace World

theorem Extends.refl (W : World) : W.Extends W :=
  ⟨⟨[], (List.append_nil _).symm, nofun⟩, Nat.le_refl _, fun _ _ h => h, fun _ _ h => h⟩

theorem Extends.trans (h : W.Extends W') (h' : W'.Extends W'') : W.Extends W'' := by
  obtain ⟨new, hnew, hle⟩ := h.pairs
  obtain ⟨new', hnew', hle'⟩ := h'.pairs
  refine ⟨⟨new ++ new', by rw [hnew', hnew, List.append_assoc], fun e he => ?_⟩,
    Nat.le_trans h.next_le h'.next_le, fun a b hab => h'.real a b (h.real a b hab),
    fun a b hab => h'.direct a b (h.direct a b hab)⟩
  rcases List.mem_append.1 he with he | he
  · exact hle e he
  · exact Nat.le_trans h.next_le (hle' e he)

theorem Extends.pair (h : W.Extends W') (hi : W.pairs[i]? = some e) : W'.pairs[i]? = some e := by
  obtain ⟨new, hnew, -⟩ := h.pairs
  rw [hnew, List.getElem?_append_left (List.getElem?_eq_some_iff.1 hi).1]
  exact hi

/-- An environment for a round does not come to correspond to anything later. -/
theorem Extends.unpaired (h : W.Extends W') (he : e ∉ W.pairs)
    (hlt : e < W.real.nextEnvironment) : e ∉ W'.pairs := by
  obtain ⟨new, hnew, hle⟩ := h.pairs
  rw [hnew, List.mem_append, not_or]
  exact ⟨he, fun hmem => Nat.not_le_of_lt hlt (hle e hmem)⟩

theorem extends_define (pairs : List EnvironmentId) (store store' : Store) (e i : EnvironmentId)
    (x : String) (v : Value) :
    Extends ⟨pairs, store, store'⟩ ⟨pairs, store.define e x v, store'.define i x v⟩ where
  pairs := ⟨[], (List.append_nil _).symm, nofun⟩
  next_le := Nat.le_of_eq (Store.nextEnvironment_define ..).symm
  real _ _ h := (Store.enclosing?_define ..).trans h
  direct _ _ h := (Store.enclosing?_define ..).trans h

theorem extends_pushPair (pairs : List EnvironmentId) (store store' : Store)
    (p p' : Option EnvironmentId) :
    Extends ⟨pairs, store, store'⟩
      ⟨pairs ++ [store.nextEnvironment], store.push p, store'.push p'⟩ where
  pairs := ⟨[store.nextEnvironment], rfl, fun _ he => Nat.le_of_eq (List.mem_singleton.1 he).symm⟩
  next_le := by
    rw [Store.nextEnvironment_push]
    exact Nat.le_succ _
  real _ _ := Store.enclosing?_push_of_eq_some
  direct _ _ := Store.enclosing?_push_of_eq_some

theorem extends_pushRound (pairs : List EnvironmentId) (store store' : Store)
    (p : Option EnvironmentId) :
    Extends ⟨pairs, store, store'⟩ ⟨pairs, store.push p, store'⟩ where
  pairs := ⟨[], (List.append_nil _).symm, nofun⟩
  next_le := by
    rw [Store.nextEnvironment_push]
    exact Nat.le_succ _
  real _ _ := Store.enclosing?_push_of_eq_some
  direct _ _ h := h

theorem extends_allocate (pairs : List EnvironmentId) (store store' : Store) (g g' : Function) :
    Extends ⟨pairs, store, store'⟩
      ⟨pairs, (store.allocate g).2, (store'.allocate g').2⟩ where
  pairs := ⟨[], (List.append_nil _).symm, nofun⟩
  next_le := Nat.le_refl _
  real _ _ h := h
  direct _ _ h := h

end World

theorem Place.mono (hW : W.Extends W') (h : Place W ρ i tracked e) : Place W' ρ i tracked e := by
  induction h with
  | top => exact .top
  | scope same pair direct real _ ih =>
    exact .scope same (hW.pair pair) (hW.direct _ _ direct) (hW.real _ _ real) ih
  | round unpaired real _ ih =>
    exact .round (hW.unpaired unpaired (Store.lt_of_enclosing? real)) (hW.real _ _ real) ih

/-- The scopes that stand around after a name has been declared. -/
theorem Place.enter {w : Walk} (h : Place W ρ i w.scopes e) (hi : W.pairs[i]? = some e) (x : String)
    (ready : Bool) : Place W (ρ.enter x) i (w.enter x ready).scopes e := by
  rw [Walk.scopes_enter]
  generalize w.scopes = tracked at h
  cases h with
  | top => exact .top
  | scope same pair direct real around =>
    refine .scope (fun y => ?_) pair direct real around
    rw [List.lookup_cons]
    by_cases hy : y = x
    · simp [hy]
    · simp [hy, beq_eq_false_iff_ne.2 hy, same y]
  | round unpaired => exact absurd (List.mem_of_getElem? hi) unpaired

theorem Place.enter_again {w : Walk} {x : String} (h : Place W (ρ.enter x) i w.scopes e)
    (hi : W.pairs[i]? = some e) (ready : Bool) :
    Place W (ρ.enter x) i (w.enter x ready).scopes e := by
  have hentered := h.enter hi x ready
  generalize (w.enter x ready).scopes = tracked at hentered
  cases ρ with
  | nil => exact hentered
  | cons names ρ =>
    cases hentered with
    | scope same pair direct real around =>
      exact .scope (fun y => (same y).trans (by simp)) pair direct real around
    | round unpaired => exact absurd (List.mem_of_getElem? hi) unpaired

theorem Place.declared {w : Walk} (h : Place W ρ i w.scopes e) (hi : W.pairs[i]? = some e)
    (inFunction : Bool) : ∀ d : Declaration,
    Place W (d.scopes ρ) i (w.statement inFunction d.lower).scopes e
  | .var name none => h.enter hi name.lexeme true
  | .var name (some init) => by
    have hready := h.enter hi name.lexeme false
    rw [← Walk.scopes_expression _ init] at hready
    exact hready.enter_again hi true
  | .function name params body => by
    rw [Declaration.lower, Walk.scopes_function]
    exact h.enter hi name.lexeme true
  | .statement s => by
    rw [Declaration.lower, Walk.scopes_statement_of_isPlain inFunction w s.lower
      (Stmt.isPlain_of_isBody s.isBody_lower) s.declares_lower]
    exact h

theorem Place.openBody {w : Walk} (h : Place W ([] :: ρ) i w.openScope.scopes e)
    (hi : W.pairs[i]? = some e) (params : List Token) :
    Place W (params.map Token.lexeme :: ρ) i (w.openBody params).scopes e := by
  have hopen : w.openScope.scopes = [] :: w.scopes := rfl
  rw [Walk.openBody, Walk.scopes_enterAll hopen, List.append_nil]
  rw [hopen] at h
  cases h with
  | scope same pair direct real around =>
    refine .scope (fun x => ?_) pair direct real around
    rw [Bool.eq_iff_iff, decide_eq_true_iff, Option.isSome_iff_ne_none, ne_eq,
      List.lookup_eq_none_iff]
    simp [eq_comm (a := x)]
  | round unpaired => exact absurd (List.mem_of_getElem? hi) unpaired

/-- The two sides count the scopes up to a declaration each in their own way, and come to
corresponding environments. -/
theorem Place.find (h : Place W ρ i tracked e) (x : String) :
    (tracked.findIdx? (fun scope => (scope.lookup x).isSome) = none ∧ ρ.depth? x = none) ∨
    ∃ d d' a b, tracked.findIdx? (fun scope => (scope.lookup x).isSome) = some d ∧
      ρ.depth? x = some d' ∧ W.real.ancestor? e d = some b ∧ W.direct.ancestor? i d' = some a ∧
      W.pairs[a]? = some b := by
  unfold Scopes.depth?
  induction h with
  | top => exact .inl ⟨rfl, rfl⟩
  | @scope names ρ i i' scope outer e e' same pair direct real _ ih =>
    rw [List.findIdx?_cons, List.findIdx?_cons, same x]
    by_cases hx : x ∈ names
    · exact .inr ⟨0, 0, i, e, by simp [hx], by simp [hx], rfl, rfl, pair⟩
    · rcases ih with ⟨hd, hd'⟩ | ⟨d, d', a, b, hd, hd', hb, ha, hab⟩
      · exact .inl ⟨by simp [hx, hd], by simp [hx, hd']⟩
      · exact .inr ⟨d + 1, d' + 1, a, b, by simp [hx, hd], by simp [hx, hd'],
          by simp [Store.ancestor?, real, hb], by simp [Store.ancestor?, direct, ha], hab⟩
  | @round ρ i outer e e' unpaired real _ ih =>
    rw [List.findIdx?_cons]
    rcases ih with ⟨hd, hd'⟩ | ⟨d, d', a, b, hd, hd', hb, ha, hab⟩
    · exact .inl ⟨by simp [hd], hd'⟩
    · exact .inr ⟨d + 1, d', a, b, by simp [hd], hd', by simp [Store.ancestor?, real, hb], ha, hab⟩

/-- Function objects that behave alike, the second one having its body beside it. -/
inductive SameFunction (r : Resolution) (known : UseId → Prop) (W : World) (c : Code) :
    Function → Function → Prop
  | native (name : String) (arity : Nat) (builtin : Builtin) :
    SameFunction r known W c (.native name arity builtin) (.native name arity builtin)
  | declared {name : Token} {params : List Token} {i e : EnvironmentId} {w : Walk}
    (place : Place W c.around i w.scopes e)
    (settled : (w.openBody params).SettledStatements r true (lowerAll c.body))
    (uses : ∀ id ∈ Stmt.usesAll (lowerAll c.body), known id) :
    SameFunction r known W c (.declared name params (lowerAll c.body) e)
      (.declared name params [] i)

/-- The two runs are alike: corresponding environments bind the same names to the same values, and the
environments for rounds bind nothing. -/
structure Related (r : Resolution) (known : UseId → Prop) (pairs : List EnvironmentId)
    (s : Lox.State) (t : State) : Prop where
  sink : s.sink = t.run.sink
  ticks : s.ticks = t.run.ticks
  length : pairs.length = t.run.store.nextEnvironment
  nodup : pairs.Nodup
  bound : ∀ e ∈ pairs, e < s.store.nextEnvironment
  root : pairs[globals]? = some globals
  binding : ∀ i e, pairs[i]? = some e → ∀ x, s.store.binding? e x = t.run.store.binding? i x
  unpaired : ∀ e, e ∉ pairs → ∀ x, s.store.binding? e x = none
  count : s.store.functions.size = t.run.store.functions.size
  function : ∀ f g, s.store.function? f = some g → ∃ h, t.run.store.function? f = some h ∧
    SameFunction r known ⟨pairs, s.store, t.run.store⟩ (t.code f) g h

section

variable {r : Resolution} {known : UseId → Prop} {pairs : List EnvironmentId} {s : Lox.State}
  {t : State} {c : Code}

theorem SameFunction.mono {g h : Function} (hW : W.Extends W') :
    SameFunction r known W c g h → SameFunction r known W' c g h
  | .native name arity builtin => .native name arity builtin
  | .declared place settled uses => .declared (place.mono hW) settled uses

theorem SameFunction.arity_eq {g h : Function} : SameFunction r known W c g h → g.arity = h.arity
  | .native .. | .declared .. => rfl

theorem SameFunction.text_eq {g h : Function} : SameFunction r known W c g h → g.text = h.text
  | .native .. | .declared .. => rfl

namespace Related

theorem function_none (h : Related r known pairs s t) {f : FunctionId}
    (hf : s.store.function? f = none) : t.run.store.function? f = none := by
  unfold Store.function? at hf ⊢
  rw [Array.getElem?_eq_none_iff] at hf ⊢
  rwa [← h.count]

theorem text_eq (h : Related r known pairs s t) (v : Value) :
    s.store.text v = t.run.store.text v := by
  unfold Store.text
  congr 1
  funext f
  cases hf : s.store.function? f with
  | none => rw [h.function_none hf]
  | some g =>
    obtain ⟨g', hg', hsame⟩ := h.function f g hf
    rw [hg']
    exact hsame.text_eq

theorem pair_inj (h : Related r known pairs s t) {i j e : EnvironmentId} (hi : pairs[i]? = some e)
    (hj : pairs[j]? = some e) : i = j :=
  (List.getElem?_inj (List.getElem?_eq_some_iff.1 hi).1 h.nodup).1 (hi.trans hj.symm)

theorem pair_lt (h : Related r known pairs s t) {i e : EnvironmentId} (hi : pairs[i]? = some e) :
    i < t.run.store.nextEnvironment := by
  rw [← h.length]
  exact (List.getElem?_eq_some_iff.1 hi).1

theorem restore (h : Related r known pairs s t) {pairs' : List EnvironmentId} {store : Store}
    {store' : Store}
    (hextends : World.Extends ⟨pairs, s.store, t.run.store⟩ ⟨pairs', store, store'⟩)
    (hfunctions : store.functions = s.store.functions)
    (hfunctions' : store'.functions = t.run.store.functions)
    (hlength : pairs'.length = store'.nextEnvironment) (hnodup : pairs'.Nodup)
    (hbound : ∀ e ∈ pairs', e < store.nextEnvironment)
    (hbinding : ∀ i e, pairs'[i]? = some e → ∀ x, store.binding? e x = store'.binding? i x)
    (hunpaired : ∀ e, e ∉ pairs' → ∀ x, store.binding? e x = none) :
    Related r known pairs' { s with store } { t with run := { t.run with store := store' } } where
  sink := h.sink
  ticks := h.ticks
  length := hlength
  nodup := hnodup
  bound := hbound
  root := hextends.pair h.root
  binding := hbinding
  unpaired := hunpaired
  count := by
    rw [hfunctions, hfunctions']
    exact h.count
  function f g hf := by
    rw [Store.function?, hfunctions] at hf
    obtain ⟨g', hg', hsame⟩ := h.function f g hf
    refine ⟨g', ?_, hsame.mono hextends⟩
    rw [Store.function?, hfunctions']
    exact hg'

theorem define (h : Related r known pairs s t) {i e : EnvironmentId} (hi : pairs[i]? = some e)
    (x : String) (v : Value) :
    Related r known pairs { s with store := s.store.define e x v }
      { t with run := { t.run with store := t.run.store.define i x v } } := by
  have he : e < s.store.nextEnvironment := h.bound e (List.mem_of_getElem? hi)
  refine h.restore (World.extends_define ..) rfl rfl
    (h.length.trans (Store.nextEnvironment_define ..).symm) h.nodup (fun e' he' => ?_)
    (fun j e' hj y => ?_) fun e' he' y => ?_
  · rw [Store.nextEnvironment_define]
    exact h.bound e' he'
  · have hji : e' = e ↔ j = i := by
      constructor
      · rintro rfl
        exact h.pair_inj hj hi
      · rintro rfl
        exact Option.some.inj (hj.symm.trans hi)
    simp only [Store.binding?_define, he, h.pair_lt hi, and_true, hji, h.binding j e' hj y]
  · rw [Store.binding?_define, if_neg]
    · exact h.unpaired e' he' y
    · rintro ⟨rfl, -⟩
      exact he' (List.mem_of_getElem? hi)

theorem pushPair (h : Related r known pairs s t) (p p' : Option EnvironmentId) :
    Related r known (pairs ++ [s.store.nextEnvironment]) { s with store := s.store.push p }
      { t with run := { t.run with store := t.run.store.push p' } } := by
  have hnew : s.store.nextEnvironment ∉ pairs := fun hmem =>
    Nat.lt_irrefl _ (h.bound _ hmem)
  have hfree : ∀ x, s.store.binding? s.store.nextEnvironment x = none := h.unpaired _ hnew
  have hfree' : ∀ x, t.run.store.binding? t.run.store.nextEnvironment x = none := fun x =>
    Option.not_isSome_iff_eq_none.1 fun hx => Nat.lt_irrefl _ (Store.lt_of_binding? hx)
  refine h.restore (World.extends_pushPair ..) rfl rfl ?_ ?_ (fun e he => ?_) (fun i e hi x => ?_)
    fun e he x => ?_
  · rw [List.length_append, h.length, Store.nextEnvironment_push]
    rfl
  · exact List.nodup_append.2 ⟨h.nodup, by simp, fun a ha b hb hab =>
      hnew (List.mem_singleton.1 hb ▸ hab ▸ ha)⟩
  · rw [Store.nextEnvironment_push]
    rcases List.mem_append.1 he with he | he
    · exact Nat.lt_succ_of_lt (h.bound e he)
    · exact Nat.lt_succ_of_le (Nat.le_of_eq (List.mem_singleton.1 he))
  · rw [Store.binding?_push, Store.binding?_push]
    by_cases hlt : i < pairs.length
    · exact h.binding i e (by rwa [List.getElem?_append_left hlt] at hi) x
    · obtain ⟨hl, rfl⟩ := List.getElem?_eq_some_iff.1 hi
      obtain rfl : i = t.run.store.nextEnvironment := by
        rw [← h.length]
        exact Nat.le_antisymm (Nat.le_of_lt_succ (by simpa using hl)) (Nat.le_of_not_lt hlt)
      rw [hfree', List.getElem_append_right (Nat.le_of_not_lt hlt)]
      simpa using hfree x
  · rw [Store.binding?_push]
    exact h.unpaired e (fun hmem => he (List.mem_append_left _ hmem)) x

theorem pushRound (h : Related r known pairs s t) (p : Option EnvironmentId) :
    Related r known pairs { s with store := s.store.push p } t := by
  have hextends := World.extends_pushRound pairs s.store t.run.store p
  refine h.restore hextends rfl rfl h.length h.nodup (fun e he => ?_) (fun i e hi x => ?_)
    fun e he x => ?_
  · rw [Store.nextEnvironment_push]
    exact Nat.lt_succ_of_lt (h.bound e he)
  · rw [Store.binding?_push]
    exact h.binding i e hi x
  · rw [Store.binding?_push]
    exact h.unpaired e he x

theorem allocate (h : Related r known pairs s t) {g g' : Function} {c : Code}
    (hg : SameFunction r known ⟨pairs, s.store, t.run.store⟩ c g g') :
    Related r known pairs { s with store := (s.store.allocate g).2 }
      { t with
        run := { t.run with store := (t.run.store.allocate g').2 }
        code := fun f => if f = (t.run.store.allocate g').1 then c else t.code f } where
  sink := h.sink
  ticks := h.ticks
  length := h.length
  nodup := h.nodup
  bound := h.bound
  root := h.root
  binding := h.binding
  unpaired := h.unpaired
  count := by simp [Store.allocate, h.count]
  function f k hf := by
    have hextends := World.extends_allocate pairs s.store t.run.store g g'
    rw [Store.function?_allocate, h.count] at hf
    rw [Store.function?_allocate]
    change ∃ k', _ ∧ SameFunction r known _
      (if f = t.run.store.functions.size then c else t.code f) k k'
    split at hf
    · next heq =>
      cases hf
      rw [if_pos heq, if_pos heq]
      exact ⟨g', rfl, hg.mono hextends⟩
    · next hne =>
      rw [if_neg hne, if_neg hne]
      obtain ⟨k', hk', hsame⟩ := h.function f k hf
      exact ⟨k', hk', hsame.mono hextends⟩

end Related

end

/-- Where a name is bound: at corresponding environments, which are both global or stand where the
name is declared. -/
theorem Place.locate {σ : Setting} {w : Walk} (h : Place W ρ i w.scopes e)
    (root : W.pairs[globals]? = some globals) {id : UseId} {x : String}
    (hid : σ.resolution[id]? = w.depth? x) :
    ∃ a b, W.real.ancestor? (σ.locate e id).1 (σ.locate e id).2 = some b ∧
      W.direct.ancestor? (ρ.locate i x).1 (ρ.locate i x).2 = some a ∧ W.pairs[a]? = some b := by
  unfold Setting.locate Scopes.locate
  rw [hid, Walk.depth?]
  rcases h.find x with ⟨hd, hd'⟩ | ⟨d, d', a, b, hd, hd', hb, ha, hab⟩
  · rw [hd, hd']
    exact ⟨globals, globals, rfl, rfl, root⟩
  · rw [hd, hd']
    exact ⟨a, b, hb, ha, hab⟩

end Direct
end Lox
