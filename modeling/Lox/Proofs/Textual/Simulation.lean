import Lox.Proofs.Textual.World

/-! Resolved programs and textual scoping in step.
Two computations agree if from related states they end in the same way, in related states. All
expressions, statements and calls of settled programs agree with their textual counterparts
(`call_agrees`, `execute_agrees`). -/
namespace Lox
namespace Textual

/-- Two ends of computations that are alike, the world having grown. -/
inductive SameEnd {α β : Type} (r : Resolution) (known : UseId → Prop) (W : World)
    (Q : World → Store → α → β → Prop) : Result Lox.State α → Result State β → Prop
  | done {a : α} {b : β} {W' : World} {s : Lox.State} {t : State} (grows : W <+: W')
    (related : Related r known W' s t) (post : Q W' s.store a b) :
    SameEnd r known W Q (.done a s) (.done b t)
  | failed (e : RuntimeError) {W' : World} {s : Lox.State} {t : State}
    (related : Related r known W' s t) : SameEnd r known W Q (.failed e s) (.failed e t)
  | unfinished {W' : World} {s : Lox.State} {t : State} (related : Related r known W' s t) :
    SameEnd r known W Q (.unfinished s) (.unfinished t)

/-- From related states that satisfy a precondition, two computations end alike. -/
def Agree {α β : Type} (r : Resolution) (known : UseId → Prop) (P : World → Store → Prop)
    (x : Lox.Run α) (y : Run β) (Q : World → Store → α → β → Prop) : Prop :=
  ∀ W s t, Related r known W s t → P W s.store → SameEnd r known W Q (x s) (y t)

abbrev Equal {α : Type} (P : World → Store → Prop) (W : World) (s : Store) (a b : α) : Prop :=
  a = b ∧ P W s

section

variable {α β γ δ : Type} {r : Resolution} {known : UseId → Prop} {P : World → Store → Prop}
  {Q : World → Store → α → β → Prop} {R : World → Store → γ → δ → Prop}

theorem SameEnd.since {W W' : World} (hW : W <+: W') {u : Result Lox.State α} {v : Result State β}
    (h : SameEnd r known W' Q u v) : SameEnd r known W Q u v := by
  cases h with
  | done hW' hrel hq => exact .done (hW.trans hW') hrel hq
  | failed e hrel => exact .failed e hrel
  | unfinished hrel => exact .unfinished hrel

theorem Agree.pure {a : α} {b : β} (h : ∀ W s, P W s → Q W s a b) :
    Agree r known P (Pure.pure a) (Pure.pure b) Q :=
  fun W s _ hrel hp => .done (List.prefix_refl W) hrel (h W s.store hp)

theorem Agree.bind {x : Lox.Run α} {y : Run β} {f : α → Lox.Run γ} {g : β → Run δ}
    (hx : Agree r known P x y Q) (hf : ∀ a b, Agree r known (fun W s => Q W s a b) (f a) (g b) R) :
    Agree r known P (x >>= f) (y >>= g) R := by
  intro W s t hrel hp
  have hend := hx W s t hrel hp
  rw [Computation.bind_apply, Computation.bind_apply]
  generalize x s = u, y t = v at hend ⊢
  cases hend with
  | @done a b W' s' t' hW hrel hq => exact (hf a b W' s' t' hrel hq).since hW
  | failed e hrel => exact .failed e hrel
  | unfinished hrel => exact .unfinished hrel

theorem Agree.andThen {P' : World → Store → Prop} {x : Lox.Run α} {y : Run α}
    {f : α → Lox.Run γ} {g : α → Run δ} (hx : Agree r known P x y (Equal P'))
    (hf : ∀ a, Agree r known P' (f a) (g a) R) : Agree r known P (x >>= f) (y >>= g) R := by
  refine hx.bind fun a b W s t hrel hp => ?_
  obtain ⟨rfl, hp⟩ := hp
  exact hf a W s t hrel hp

theorem Agree.mono {P' : World → Store → Prop} {Q' : World → Store → α → β → Prop}
    {x : Lox.Run α} {y : Run β} (hx : Agree r known P x y Q) (hP : ∀ W s, P' W s → P W s)
    (hQ : ∀ W s a b, Q W s a b → Q' W s a b) : Agree r known P' x y Q' := by
  intro W s t hrel hp
  have hend := hx W s t hrel (hP W s.store hp)
  generalize x s = u, y t = v at hend ⊢
  cases hend with
  | done hW hrel hq => exact .done hW hrel (hQ _ _ _ _ hq)
  | failed e hrel => exact .failed e hrel
  | unfinished hrel => exact .unfinished hrel

theorem Agree.fail (e : RuntimeError) : Agree r known P (.fail e) (.fail e) Q :=
  fun _ _ _ hrel _ => .failed e hrel

theorem Agree.exhaust : Agree r known P .exhaust .exhaust Q :=
  fun _ _ _ hrel _ => .unfinished hrel

theorem Agree.ofExcept (x : Except RuntimeError α) :
    Agree r known P (.ofExcept x) (.ofExcept x) (Equal P) := by
  cases x with
  | ok a => exact .pure fun _ _ hp => ⟨rfl, hp⟩
  | error e => exact .fail e

theorem Agree.inspect {f : Lox.State → α} {g : State → α}
    (h : ∀ W s t, Related r known W s t → f s = g t) :
    Agree r known P (.inspect f) (.inspect g) (Equal P) :=
  fun W s t hrel hp => .done (List.prefix_refl W) hrel ⟨h W s t hrel, hp⟩

theorem Agree.write (text : String) : Agree r known P (.write text) (.write text) (Equal P) := by
  intro W s t hrel hp
  unfold Lox.Run.write Run.write
  rw [← hrel.sink]
  split
  · exact .failed _ hrel
  · exact .done (List.prefix_refl W) { hrel with sink := rfl } ⟨rfl, hp⟩

theorem Agree.ticking (f : Nat → Except RuntimeError (α × Nat)) :
    Agree r known P (.ticking f) (.ticking f) (Equal P) := by
  intro W s t hrel hp
  unfold Lox.Run.ticking Run.ticking
  rw [← hrel.ticks]
  cases f s.ticks with
  | ok a => exact .done (List.prefix_refl W) { hrel with ticks := rfl } ⟨rfl, hp⟩
  | error e => exact .failed e hrel

/-- What makes no name known in an environment leaves the innermost scope current. -/
theorem At.keep {e : EnvironmentId} {ρ : Scopes} {w : Walk} {W W' : World} {s s' : Lox.State}
    {t t' : State} (h : At e ρ w W s.store) (hrel : Related r known W s t)
    (hrel' : Related r known W' s' t') (hW : W <+: W') (hkeeps : s.store.Keeps s'.store) :
    At e ρ w W' s'.store := by
  refine ⟨h.toStands.mono hW fun a b hab =>
    (hkeeps.enclosing a (Store.lt_of_enclosing? hab)).trans hab, fun scope hscope y c hc => ?_⟩
  have he : e < s.store.nextEnvironment := by
    have hchain := h.chain
    cases ρ with
    | nil => cases hscope
    | cons scope ρ =>
      obtain ⟨-, e', hee', -⟩ := hchain
      exact Store.lt_of_enclosing? hee'
  have hbound := hkeeps.fresh e he not_false y (hrel'.isSome_cell hc)
  obtain ⟨c₀, hc₀⟩ := List.mem_iff_getElem?.1 (hrel.complete e y (hrel'.cell c e y hc).1 hbound)
  have hlt := (List.getElem?_eq_some_iff.1 hc).1
  have hcc := (List.getElem?_inj hlt hrel'.nodup).1 (hc.trans (slot_mono hW hc₀).symm)
  exact hcc ▸ h.current scope hscope y c₀ hc₀

theorem Agree.keep {e : EnvironmentId} {ρ : Scopes} {w : Walk} {x : Lox.Run α} {y : Run β}
    (hx : Agree r known P x y Q) (hframes : x.Frames) (hP : ∀ W s, P W s → At e ρ w W s) :
    Agree r known P x y fun W s a b => Q W s a b ∧ At e ρ w W s := by
  intro W s t hrel hp
  have hkeeps := hframes s
  have hend := hx W s t hrel hp
  generalize x s = u, y t = v at hkeeps hend ⊢
  cases hend with
  | done hW hrel' hq => exact .done hW hrel' ⟨hq, (hP W s.store hp).keep hrel hrel' hW hkeeps⟩
  | failed e hrel => exact .failed e hrel
  | unfinished hrel => exact .unfinished hrel

end

section

variable {r : Resolution} {known : UseId → Prop} {e : EnvironmentId} {ρ : Scopes} {w : Walk}

/-- Where names are read and written: in the slot of a cell, or among the globals. -/
theorem Stands.locate {W : World} {s : Store} {σ : Setting} {id : UseId} {x : String}
    (h : Stands e ρ w W s) (hid : σ.resolution[id]? = w.depth? x) :
    (ρ.cell? x = none ∧ σ.locate e id = (Lox.globals, 0)) ∨
    ∃ c a d, ρ.cell? x = some c ∧ σ.locate e id = (e, d) ∧ s.ancestor? e d = some a ∧
      W[c]? = some (a, x) := by
  unfold Setting.locate
  rw [hid, Walk.depth?]
  rcases find x h.names h.chain with ⟨hd, hc⟩ | ⟨d, c, a, hd, hc, ha, hW⟩
  · rw [hd]
    exact .inl ⟨hc, rfl⟩
  · rw [hd]
    exact .inr ⟨c, a, d, hc, rfl, ha, hW⟩

theorem Agree.read {σ : Setting} {id : UseId} {name : Token}
    (hid : σ.resolution[id]? = w.depth? name.lexeme) :
    Agree r known (At e ρ w) (.read (σ.locate e id).1 (σ.locate e id).2 name) (.read ρ name)
      (Equal (At e ρ w)) := by
  intro W s t hrel hat
  unfold Lox.Run.read Store.read Run.read
  have hvalue : ((s.store.ancestor? (σ.locate e id).1 (σ.locate e id).2).bind fun a =>
      s.store.binding? a name.lexeme) = t.value? ρ name.lexeme := by
    unfold State.value?
    rcases hat.toStands.locate hid with ⟨hc, hl⟩ | ⟨c, a, d, hc, hl, ha, hW⟩
    · rw [hl, hc]
      exact hrel.global name.lexeme
    · rw [hl, hc]
      simp only [ha, Option.bind_some, (hrel.cell c a name.lexeme hW).2]
  rw [hvalue]
  cases t.value? ρ name.lexeme with
  | some v => exact .done (List.prefix_refl W) hrel ⟨rfl, hat⟩
  | none => exact .failed _ hrel

/-- Binding a name in some environment moves nothing. -/
theorem At.define {W : World} {s : Store} (h : At e ρ w W s) (a : EnvironmentId) (x : String)
    (v : Value) : At e ρ w W (s.define a x v) :=
  ⟨h.toStands.mono (List.prefix_refl W) fun b _ hb => (Store.enclosing?_define s a b x v).trans hb,
    h.current⟩

theorem Agree.assign {σ : Setting} {id : UseId} {name : Token} {v : Value}
    (hid : σ.resolution[id]? = w.depth? name.lexeme) :
    Agree r known (At e ρ w) (.assign (σ.locate e id).1 (σ.locate e id).2 name v)
      (.assign ρ name v) (Equal (At e ρ w)) := by
  intro W s t hrel hat
  unfold Lox.Run.assign Store.owner? Run.assign
  rcases hat.toStands.locate hid with ⟨hc, hl⟩ | ⟨c, a, d, hc, hl, ha, hW⟩
  · rw [hl, hc]
    simp only [Store.ancestor?, Option.filter, hrel.global]
    split
    · next h =>
      split at h
      · next hb =>
        cases h
        rw [if_pos hb]
        exact .done (List.prefix_refl W) (hrel.setGlobal _ v) ⟨rfl, hat.define _ _ v⟩
      · cases h
    · next h =>
      split at h
      · cases h
      · next hb =>
        rw [if_neg hb]
        exact .failed _ hrel
  · rw [hl, hc]
    simp only [ha, Option.filter, hrel.isSome_cell hW, if_true]
    exact .done (List.prefix_refl W) (hrel.setCell hW v) ⟨rfl, hat.define _ _ v⟩

theorem Agree.declare (x : String) (v : Value) :
    Agree r known (At e ρ w) (.define e x v) (.declare ρ x v)
      fun W s _ ρ' => At e ρ' (w.enter x true) W s := by
  intro W s t hrel hat
  unfold Lox.Run.define Run.declare
  have hchain := hat.chain
  have hnames := hat.names
  cases ρ with
  | nil =>
    cases hw : w.scopes with
    | cons _ _ => simp [hw, SameNames] at hnames
    | nil =>
      cases hchain
      rw [Walk.enter_of_nil hw]
      exact .done (List.prefix_refl W) (hrel.setGlobal x v) (hat.define _ _ v)
  | cons scope ρ =>
    cases hw : w.scopes with
    | nil => simp [hw, SameNames] at hnames
    | cons tracked outer =>
      rw [hw] at hnames
      obtain ⟨hslots, e', he', hchain⟩ := hchain
      have hscopes : (w.enter x true).scopes = ((x, true) :: tracked) :: outer := by
        rw [Walk.scopes_enter, hw]
      dsimp only
      cases hx : scope.lookup x with
      | some c =>
        refine .done (List.prefix_refl W) (hrel.setCell (hslots x c hx) v) ?_
        refine ⟨⟨(hat.define e x v).chain, ?_⟩, hat.current⟩
        rw [hscopes]
        refine ⟨fun y => ?_, hnames.2⟩
        rw [List.lookup_cons]
        split
        · next hy => rw [eq_of_beq hy, hx]; rfl
        · exact hnames.1 y
      | none =>
        have hcurrent : ∀ y c, W[c]? = some (e, y) → scope.lookup y = some c :=
          hat.current scope rfl
        have hnew : (e, x) ∉ W := by
          intro hmem
          obtain ⟨c, hc⟩ := List.mem_iff_getElem?.1 hmem
          rw [hcurrent x c hc] at hx
          cases hx
        have hne : e ≠ Lox.globals := by
          rintro rfl
          rw [hrel.root] at he'
          cases he'
        have hW : W <+: W ++ [(e, x)] := List.prefix_append W _
        have hlast : (W ++ [(e, x)])[t.cells.length]? = some (e, x) := by
          simp [← hrel.length]
        refine .done hW (hrel.newCell hne (Store.lt_of_enclosing? he') hnew v) ?_
        refine ⟨⟨⟨fun y c hy => ?_, e', ?_, ?_⟩, ?_⟩, ?_⟩
        · rw [List.lookup_cons] at hy
          split at hy
          · next hyx =>
            cases hy
            rw [eq_of_beq hyx]
            exact hlast
          · exact slot_mono hW (hslots y c hy)
        · exact (Store.enclosing?_define ..).trans he'
        · exact hchain.mono hW fun a b hab => (Store.enclosing?_define ..).trans hab
        · rw [hscopes]
          refine ⟨fun y => ?_, hnames.2⟩
          rw [List.lookup_cons, List.lookup_cons]
          split
          · rfl
          · exact hnames.1 y
        · rintro _ ⟨⟩ y c hc
          rw [List.lookup_cons]
          by_cases hlt : c < W.length
          · rw [List.getElem?_append_left hlt] at hc
            have hy := hcurrent y c hc
            split
            · next hyx =>
              rw [eq_of_beq hyx, hx] at hy
              cases hy
            · exact hy
          · obtain ⟨hl, hg⟩ := List.getElem?_eq_some_iff.1 hc
            have hcl : c = t.cells.length := by
              rw [← hrel.length]
              exact Nat.le_antisymm (Nat.le_of_lt_succ (by simpa using hl)) (Nat.le_of_not_lt hlt)
            rw [hcl, hlast] at hc
            cases hc
            rw [beq_self_eq_true, hcl]

/-- A new environment for a new scope. -/
theorem Agree.enter {α β : Type} {Q : World → Store → α → β → Prop} {f : EnvironmentId → Lox.Run α}
    {y : Run β} (hf : ∀ a, Agree r known (At a ([] :: ρ) w.openScope) (f a) y Q) :
    Agree r known (Stands e ρ w) (Lox.Run.enter e >>= f) y Q := by
  intro W s t hrel hstands
  refine hf s.store.nextEnvironment W { s with store := s.store.push (some e) } t (hrel.push e) ?_
  have hlinks : ∀ a b, s.store.enclosing? a = some b →
      (s.store.push (some e)).enclosing? a = some b := fun a b hab => by
    rw [Store.enclosing?_push, if_neg (Nat.ne_of_lt (Store.lt_of_enclosing? hab))]
    exact hab
  refine ⟨⟨⟨nofun, e, ?_, hstands.chain.mono (List.prefix_refl W) hlinks⟩, ?_⟩, ?_⟩
  · rw [Store.enclosing?_push, if_pos rfl]
  · exact ⟨fun _ => rfl, hstands.names⟩
  · rintro _ ⟨⟩ x c hc
    exact absurd (Store.lt_of_binding? (hrel.isSome_cell hc)) (Nat.lt_irrefl _)

theorem Agree.declareAll : ∀ (bs : List (String × Value)) {ρ : Scopes} {w : Walk},
    Agree r known (At e ρ w) (.defineAll e bs) (.declareAll ρ bs)
      fun W s _ ρ' => At e ρ' (w.enterAll (bs.map Prod.fst)) W s
  | [], _, _ => .pure fun _ _ h => h
  | (x, v) :: bs, _, _ => (Agree.declare x v).bind fun _ _ => Agree.declareAll bs

theorem Agree.declareFunction {name : Token} {params : List Token} {body : List Stmt}
    (settled : (w.enterBody name params).SettledStatements r true body)
    (plain : Stmt.arePlain body) (clean : Stmt.initializeCleanly true body)
    (uses : ∀ id ∈ Stmt.usesAll body, known id) :
    Agree r known (At e ρ w)
      (do
        let f ← Lox.Run.allocate (.declared name params body e)
        .define e name.lexeme (.function f)
        Pure.pure Flow.next)
      (do
        let f ← Computation.inspect (·.functions.length)
        let ρ ← .declare ρ name.lexeme (.function f)
        .allocate (.declared name params body ρ)
        Pure.pure (Flow.next, ρ))
      fun W s a b => a = b.1 ∧ At e b.2 (w.enter name.lexeme true) W s := by
  -- The name can be bound first, because its value is known.
  have horder : (do
        let f ← Lox.Run.allocate (.declared name params body e)
        .define e name.lexeme (.function f)
        Pure.pure Flow.next) = (do
        let f ← Computation.inspect (·.store.functions.size)
        Lox.Run.define e name.lexeme (.function f)
        let _ ← Lox.Run.allocate (.declared name params body e)
        Pure.pure Flow.next) := rfl
  rw [horder]
  refine (Agree.inspect fun W s t hrel => hrel.count).andThen fun f => ?_
  refine (Agree.declare name.lexeme (.function f)).bind fun _ ρ' W s t hrel hat => ?_
  exact .done (List.prefix_refl W)
    (hrel.allocate (.declared hat.toStands settled plain clean uses))
    ⟨rfl, hat.toStands.mono (List.prefix_refl W) fun _ _ h => h, hat.current⟩

end

/-- How a statement is left: with equal flows, and ready for the statement behind it. -/
structure Leaves (inFunction : Bool) (e : EnvironmentId) (ρ : Scopes) (w : Walk) (st : Stmt)
    (W : World) (s : Store) (a : Flow) (b : Flow × Scopes) : Prop where
  flow : a = b.1
  scopes : st.declares = false → b.2 = ρ
  ready : a = .next → At e b.2 (w.statement inFunction st) W s

section

variable {σ : Setting} {known : UseId → Prop} {call : Caller}
  {textualCall : Value → List Value → UInt32 → Run Value} {rounds : Nat} {e : EnvironmentId}

/-- Calls agree, and make no name known to the caller. -/
structure CallsAgree (r : Resolution) (known : UseId → Prop) (call : Caller)
    (textualCall : Value → List Value → UInt32 → Run Value) : Prop where
  frames : ∀ f args line, (call f args line).Frames
  agree : ∀ f args line, Agree r known (fun _ _ => True) (call f args line)
    (textualCall f args line) fun _ _ a b => a = b

mutual

theorem evaluate_agrees (hcall : CallsAgree σ.resolution known call textualCall) {ρ : Scopes} :
    ∀ (x : Expr) {w : Walk}, w.Settled σ.resolution x → Agree σ.resolution known (At e ρ w)
      (Lox.evaluate σ call e x) (evaluate textualCall ρ x) (Equal (At e ρ w))
  | .literal _, _, _ => .pure fun _ _ h => ⟨rfl, h⟩
  | .group inner, _, hx => evaluate_agrees hcall inner hx
  | .unary op operand, _, hx => (evaluate_agrees hcall operand hx).andThen fun v => .ofExcept _
  | .binary left op right, w, hx => by
    refine (evaluate_agrees hcall left hx.1).andThen fun l => ?_
    have hr := hx.2.congr_walk (Walk.scopes_expression w left) right
    exact (evaluate_agrees hcall right hr).andThen fun r => .ofExcept _
  | .logical left op right, w, hx => by
    refine (evaluate_agrees hcall left hx.1).andThen fun l => ?_
    split
    · exact .pure fun _ _ h => ⟨rfl, h⟩
    · exact evaluate_agrees hcall right (hx.2.congr_walk (Walk.scopes_expression w left) right)
  | .use id name, _, hx => Agree.read hx.1
  | .assign id name value, _, hx =>
    (evaluate_agrees hcall value hx.1).andThen fun _ =>
      (Agree.assign hx.2).andThen fun _ => .pure fun _ _ h => ⟨rfl, h⟩
  | .call callee args paren, w, hx => by
    refine (evaluate_agrees hcall callee hx.1).andThen fun f => ?_
    have ha := hx.2.congr_walk (Walk.scopes_expression w callee) args
    refine (evaluateAll_agrees hcall args ha).andThen fun vs => ?_
    exact ((hcall.agree f vs paren.line).mono (fun _ _ _ => trivial) fun _ _ _ _ h => h).keep
      (hcall.frames f vs paren.line) fun _ _ h => h

theorem evaluateAll_agrees (hcall : CallsAgree σ.resolution known call textualCall) {ρ : Scopes} :
    ∀ (xs : List Expr) {w : Walk}, w.SettledAll σ.resolution xs → Agree σ.resolution known (At e ρ w)
      (Lox.evaluateAll σ call e xs) (evaluateAll textualCall ρ xs) (Equal (At e ρ w))
  | [], _, _ => .pure fun _ _ h => ⟨rfl, h⟩
  | x :: xs, w, hx => by
    refine (evaluate_agrees hcall x hx.1).andThen fun v => ?_
    have hr := hx.2.congr_walk (Walk.scopes_expression w x) xs
    exact (evaluateAll_agrees hcall xs hr).andThen fun vs => .pure fun _ _ h => ⟨rfl, h⟩

end

/-- Where a declaration is executed, its initializer is evaluated before the name is declared. -/
theorem settled_init {r : Resolution} {w : Walk} {name : Token} {init : Expr}
    (h : (w.enter name.lexeme false).Settled r init)
    (hclean : (Stmt.var name (some init)).initializesCleanly !w.scopes.isEmpty) :
    w.Settled r init := by
  cases hw : w.scopes with
  | nil => rwa [Walk.enter_of_nil hw] at h
  | cons scope outer =>
    refine h.without ?_ hw init (by simpa [Stmt.initializesCleanly, hw] using hclean)
    rw [Walk.scopes_enter, hw]

theorem At.enter_twice {ρ : Scopes} {w v : Walk} {W : World} {s : Store} {x : String}
    (h : At e ρ (w.enter x true) W s) (hv : v.scopes = (w.enter x false).scopes) :
    At e ρ (v.enter x true) W s := by
  refine ⟨⟨h.chain, ?_⟩, h.current⟩
  have hnames := h.names
  rw [Walk.scopes_enter] at hnames hv ⊢
  cases hw : w.scopes with
  | nil => simpa [hv, hw] using hnames
  | cons scope outer =>
    rw [hw] at hnames hv
    rw [hv]
    cases ρ with
    | nil => exact hnames
    | cons scope' ρ =>
      refine ⟨fun y => ?_, hnames.2⟩
      rw [← hnames.1 y, List.lookup_cons, List.lookup_cons, List.lookup_cons]
      cases y == x <;> rfl

theorem isEmpty_scopes_statement (inFunction : Bool) (w : Walk) (st : Stmt) :
    (w.statement inFunction st).scopes.isEmpty = w.scopes.isEmpty := by
  have h := (Walk.tail_scopes_statement inFunction w st).2
  rw [Bool.eq_iff_iff, List.isEmpty_iff_length_eq_zero, List.isEmpty_iff_length_eq_zero, h]

theorem Agree.repeatWhile {r : Resolution} {P : World → Store → Prop} {c : Lox.Run Value}
    {c' : Run Value} {b : Lox.Run Flow} {b' : Run Flow} (hc : Agree r known P c c' (Equal P))
    (hb : Agree r known P b b' fun W s a a' => a = a' ∧ (a = .next → P W s)) (n : Nat) :
    Agree r known P (repeatWhile c b n) (repeatWhile c' b' n)
      fun W s a a' => a = a' ∧ (a = .next → P W s) := by
  induction n with
  | zero => exact .exhaust
  | succ n ih =>
    rw [Computation.repeatWhile_succ, Computation.repeatWhile_succ]
    refine hc.andThen fun v => ?_
    split
    · refine hb.bind fun a a' W s t hrel ha => ?_
      obtain ⟨rfl, ha⟩ := ha
      cases a with
      | next => exact ih W s t hrel (ha rfl)
      | returned v => exact .done (List.prefix_refl W) hrel ⟨rfl, nofun⟩
    · exact .pure fun _ _ h => ⟨rfl, fun _ => h⟩

theorem Agree.map {α β γ : Type} {r : Resolution} {P : World → Store → Prop}
    {Q : World → Store → α → β → Prop} {R : World → Store → α → γ → Prop} {x : Lox.Run α}
    {y : Run β} {f : β → γ} (hx : Agree r known P x y Q) (hf : ∀ W s a b, Q W s a b → R W s a (f b)) :
    Agree r known P x (y >>= fun b => Pure.pure (f b)) R := by
  intro W s t hrel hp
  have hend := hx W s t hrel hp
  rw [Computation.bind_apply]
  generalize x s = u, y t = v at hend ⊢
  cases hend with
  | done hW hrel hq => exact .done hW hrel (hf _ _ _ _ hq)
  | failed e hrel => exact .failed e hrel
  | unfinished hrel => exact .unfinished hrel

/-- A statement that declares nothing leaves the scopes as they are. -/
theorem Agree.body {r : Resolution} {ρ : Scopes} {v w : Walk} {inFunction : Bool} {st : Stmt}
    {x : Lox.Run Flow} {y : Run (Flow × Scopes)} (hw : v.scopes = w.scopes) (hst : st.isBody)
    (h : Agree r known (At e ρ v) x y (Leaves inFunction e ρ v st)) :
    Agree r known (At e ρ w) x y fun W s a b => a = b.1 ∧ (a = .next → At e ρ w W s) := by
  have hst := Bool.and_eq_true_iff.1 hst
  have hdeclares : st.declares = false := by simpa using hst.1
  refine h.mono (fun _ _ h => h.congr_walk hw) fun W s a b h => ⟨h.flow, fun ha => ?_⟩
  rw [← h.scopes hdeclares]
  exact (h.ready ha).congr_walk
    (hw.symm.trans (Walk.scopes_statement_of_isPlain inFunction v st hst.2 hdeclares).symm)

mutual

theorem execute_agrees (hcall : CallsAgree σ.resolution known call textualCall) :
    ∀ (st : Stmt) {e : EnvironmentId} {ρ : Scopes} {w : Walk} {inFunction : Bool},
      w.SettledStatement σ.resolution inFunction st → st.isPlain →
      st.initializesCleanly (!w.scopes.isEmpty) → (∀ id ∈ st.uses, known id) →
      Agree σ.resolution known (At e ρ w) (Lox.execute σ call rounds e st)
        (execute textualCall rounds ρ st) (Leaves inFunction e ρ w st)
  | .expression x, _, _, w, _, hs, _, _, _ =>
    (evaluate_agrees hcall x hs).andThen fun _ => .pure fun _ _ h =>
      ⟨rfl, fun _ => rfl, fun _ => h.congr_walk (Walk.scopes_expression w x)⟩
  | .print x, _, _, w, _, hs, _, _, _ =>
    (evaluate_agrees hcall x hs).andThen fun v =>
      (Agree.inspect fun _ _ _ hrel => hrel.text_eq v).andThen fun text =>
        (Agree.write text).andThen fun _ => (Agree.write "\n").andThen fun _ => .pure fun _ _ h =>
          ⟨rfl, fun _ => rfl, fun _ => h.congr_walk (Walk.scopes_expression w x)⟩
  | .var name none, _, _, _, _, _, _, _, _ =>
    (Agree.declare name.lexeme .nil).bind fun _ ρ' => .pure fun _ _ h =>
      ⟨rfl, nofun, fun _ => h⟩
  | .var name (some init), _, _, w, _, hs, _, hclean, _ => by
    refine (evaluate_agrees hcall init (settled_init hs hclean)).andThen fun v => ?_
    refine (Agree.declare name.lexeme v).bind fun _ ρ' => .pure fun _ _ h => ⟨rfl, nofun, fun _ => ?_⟩
    exact h.enter_twice (Walk.scopes_expression _ init)
  | .block body, e, ρ, w, inFunction, hs, hp, hclean, hknown => by
    have hbody : Agree σ.resolution known (Stands e ρ w)
        (Lox.execute σ call rounds e (.block body)) (executeAll textualCall rounds ([] :: ρ) body)
        fun _ _ a b => a = b :=
      .enter fun inner => executeAll_agrees hcall body hs hp hclean hknown
    refine Agree.mono (P := At e ρ w) ?_ (fun _ _ h => h) fun W s a b h => h
    have hkeep := (hbody.mono (fun _ _ h => h.toStands) fun _ _ _ _ h => h).keep
      (execute_block_grows hcall.frames e body) fun W s (h : At e ρ w W s) => h
    refine hkeep.map fun W s a b h => ⟨h.1, fun _ => rfl, fun _ => ?_⟩
    exact h.2.congr_walk (Walk.scopes_block inFunction w body)
  | .branch condition consequent none, e, ρ, w, inFunction, hs, hp, hclean, hknown => by
    have hscopes := Walk.scopes_expression w condition
    have hleave := Walk.scopes_statement_of_isPlain inFunction w (.branch condition consequent none)
      hp rfl
    have hconsequent := (execute_agrees hcall consequent (e := e) (ρ := ρ) hs.2
      (Stmt.isPlain_of_isBody hp) (hscopes ▸ hclean)
      fun id hid => hknown id (List.mem_append_right _ hid)).body hscopes hp
    refine (evaluate_agrees hcall condition hs.1).andThen fun v => ?_
    split
    · exact hconsequent.map fun W s a b h => ⟨h.1, fun _ => rfl, fun ha => (h.2 ha).congr_walk hleave⟩
    · exact .pure fun _ _ h => ⟨rfl, fun _ => rfl, fun _ => h.congr_walk hleave⟩
  | .branch condition consequent (some alternative), e, ρ, w, inFunction, hs, hp, hclean, hknown => by
    have hscopes := Walk.scopes_expression w condition
    have hleave := Walk.scopes_statement_of_isPlain inFunction w
      (.branch condition consequent (some alternative)) hp rfl
    have hplain := Bool.and_eq_true_iff.1 hp
    have hclean := Bool.and_eq_true_iff.1 hclean
    have hdeclares := Bool.and_eq_true_iff.1 hplain.1
    have hscopes' := (Walk.scopes_statement_of_isPlain inFunction (w.expression condition)
      consequent hdeclares.2 (by simpa using hdeclares.1)).trans hscopes
    have hconsequent := (execute_agrees hcall consequent (e := e) (ρ := ρ) hs.2.1
      (Stmt.isPlain_of_isBody hplain.1) (hscopes ▸ hclean.1) fun id hid =>
        hknown id (List.mem_append_right _ (List.mem_append_left _ hid))).body hscopes hplain.1
    have halternative := (execute_agrees hcall alternative (e := e) (ρ := ρ) hs.2.2
      (Stmt.isPlain_of_isBody hplain.2) (hscopes' ▸ hclean.2) fun id hid =>
        hknown id (List.mem_append_right _ (List.mem_append_right _ hid))).body hscopes' hplain.2
    refine (evaluate_agrees hcall condition hs.1).andThen fun v => ?_
    dsimp only
    split
    · exact hconsequent.map fun W s a b h => ⟨h.1, fun _ => rfl, fun ha => (h.2 ha).congr_walk hleave⟩
    · exact halternative.map fun W s a b h => ⟨h.1, fun _ => rfl, fun ha => (h.2 ha).congr_walk hleave⟩
  | .loop condition body, e, ρ, w, inFunction, hs, hp, hclean, hknown => by
    have hscopes := Walk.scopes_expression w condition
    have hleave := Walk.scopes_statement_of_isPlain inFunction w (.loop condition body) hp rfl
    have hbody := (execute_agrees hcall body (e := e) (ρ := ρ) hs.2
      (Stmt.isPlain_of_isBody hp) (hscopes ▸ hclean)
      fun id hid => hknown id (List.mem_append_right _ hid)).body hscopes hp
    have hround := hbody.map (f := Prod.fst) (R := fun W s a b =>
      a = b ∧ (a = .next → At e ρ w W s)) fun _ _ _ _ h => h
    rw [← map_eq_pure_bind] at hround
    exact (Agree.repeatWhile (evaluate_agrees hcall condition hs.1) hround rounds).map
      fun W s a b h => ⟨h.1, fun _ => rfl, fun ha => (h.2 ha).congr_walk hleave⟩
  | .function name params body, _, _, w, _, hs, hp, hclean, hknown =>
    (Agree.declareFunction hs hp hclean hknown).mono (fun _ _ h => h) fun _ _ _ _ h =>
      ⟨h.1, nofun, fun _ => h.2.congr_walk (Walk.scopes_function _ w name params body)⟩
  | .ret _ none, _, _, _, _, _, _, _, _ => .pure fun _ _ _ => ⟨rfl, fun _ => rfl, nofun⟩
  | .ret keyword (some value), _, _, w, inFunction, hs, _, _, _ => by
    have hv := hs.congr_walk (Walk.scopes_enterReturn w inFunction keyword) value
    exact (evaluate_agrees hcall value hv).andThen fun v =>
      .pure fun _ _ _ => ⟨rfl, fun _ => rfl, nofun⟩

theorem executeAll_agrees (hcall : CallsAgree σ.resolution known call textualCall) :
    ∀ (ss : List Stmt) {e : EnvironmentId} {ρ : Scopes} {w : Walk} {inFunction : Bool},
      w.SettledStatements σ.resolution inFunction ss → Stmt.arePlain ss →
      Stmt.initializeCleanly (!w.scopes.isEmpty) ss → (∀ id ∈ Stmt.usesAll ss, known id) →
      Agree σ.resolution known (At e ρ w) (Lox.executeAll σ call rounds e ss)
        (executeAll textualCall rounds ρ ss) fun _ _ a b => a = b
  | [], _, _, _, _, _, _, _, _ => .pure fun _ _ _ => rfl
  | st :: ss, _, _, w, inFunction, hs, hp, hclean, hknown => by
    have hplain := Bool.and_eq_true_iff.1 hp
    have hclean := Bool.and_eq_true_iff.1 hclean
    refine (execute_agrees hcall st hs.1 hplain.1 hclean.1 fun id hid =>
      hknown id (List.mem_append_left _ hid)).bind fun a b W s t hrel h => ?_
    obtain ⟨flow, ρ'⟩ := b
    obtain rfl : a = flow := h.flow
    cases a with
    | next =>
      have hclean' : Stmt.initializeCleanly (!(w.statement inFunction st).scopes.isEmpty) ss := by
        rw [isEmpty_scopes_statement]
        exact hclean.2
      exact executeAll_agrees hcall ss hs.2 hplain.2 hclean'
        (fun id hid => hknown id (List.mem_append_right _ hid)) W s t hrel (h.ready rfl)
    | returned v => exact .done (List.prefix_refl W) hrel rfl

end

end

theorem call_agrees {σ : Setting} {known : UseId → Prop} (depth : Nat) :
    CallsAgree σ.resolution known (Lox.call σ depth) (call σ.clock depth) := by
  refine ⟨call_grows σ depth, ?_⟩
  induction depth with
  | zero => exact fun f args line => .exhaust
  | succ depth ih =>
    intro f args line
    cases f with
    | nil | bool | number | string => exact .fail _
    | function f =>
      have hlookup : Agree σ.resolution known (fun _ _ => True) (.inspect (·.store.function? f))
          (.inspect (·.functions[f]?)) fun W s g g' => g = none ∧ g' = none ∨
            ∃ h h', g = some h ∧ g' = some h' ∧ SameFunction σ.resolution known W s h h' := by
        intro W s t hrel _
        refine .done (List.prefix_refl W) hrel ?_
        cases hf : s.store.function? f with
        | none => exact .inl ⟨hf, hrel.function_none hf⟩
        | some g =>
          obtain ⟨g', hg', hsame⟩ := hrel.function f g hf
          exact .inr ⟨g, g', hf, hg', hsame⟩
      refine hlookup.bind fun g g' W s t hrel hg => ?_
      rcases hg with ⟨rfl, rfl⟩ | ⟨h, h', rfl, rfl, hsame⟩
      · exact .failed _ hrel
      dsimp only
      rw [← hsame.arity_eq]
      split
      · exact .failed _ hrel
      next harity =>
      cases hsame with
      | native name arity builtin =>
        have hanswer : Agree σ.resolution known (fun _ _ => True)
            (.ticking fun ticks => builtin.answer σ.clock line ticks args)
            (.ticking fun ticks => builtin.answer σ.clock line ticks args) fun _ _ a b => a = b :=
          (Agree.ticking _).mono (fun _ _ h => h) fun _ _ _ _ h => h.1
        exact hanswer W s t hrel trivial
      | @declared name params body e ρ w stands settled plain clean uses =>
        have hnames : ((params.map Token.lexeme).zip args).map Prod.fst = params.map Token.lexeme := by
          refine List.map_fst_zip (Nat.le_of_eq ?_)
          rw [List.length_map]
          exact (Decidable.not_not.1 harity).symm
        refine Agree.enter (fun env => ?_) W s t hrel stands
        refine (Agree.declareAll ((params.map Token.lexeme).zip args)).bind fun _ ρ' => ?_
        rw [hnames]
        have hclean : Stmt.initializeCleanly
            (!(w.openBody params).scopes.isEmpty) body := by
          have hopen : w.openScope.scopes = [] :: w.scopes := rfl
          rw [Walk.openBody, Walk.scopes_enterAll hopen]
          exact clean
        refine (executeAll_agrees ⟨call_grows σ depth, ih⟩ body settled plain hclean uses).bind
          fun flow flow' W s t hrel h => ?_
        subst h
        cases flow <;> exact .done (List.prefix_refl W) hrel rfl

theorem at_globals {w : Walk} (hw : w.scopes = []) (W : World) (s : Store) :
    At Lox.globals [] w W s :=
  ⟨⟨rfl, by rw [hw]; trivial⟩, fun _ h => nomatch h⟩

theorem runProgram_agrees {σ : Setting} {known : UseId → Prop} (budget : Nat) :
    ∀ (p : Program) {w : Walk}, w.scopes = [] → w.SettledStatements σ.resolution false p →
      Stmt.arePlain p → Stmt.initializeCleanly false p → (∀ id ∈ p.uses, known id) →
      Agree σ.resolution known (fun _ _ => True) (Lox.runProgram σ budget p)
        (runProgram σ.clock budget p) fun _ _ _ _ => True
  | [], _, _, _, _, _, _ => .pure fun _ _ _ => trivial
  | st :: p, w, hw, hs, hp, hclean, hknown => by
    have hp := Bool.and_eq_true_iff.1 hp
    have hclean := Bool.and_eq_true_iff.1 hclean
    have hst : Agree σ.resolution known (fun _ _ => True)
        (Lox.execute σ (Lox.call σ budget) budget Lox.globals st)
        (execute (call σ.clock budget) budget [] st) fun _ _ _ _ => True :=
      (execute_agrees (call_agrees budget) st hs.1 hp.1 (by rw [hw]; exact hclean.1)
        fun id hid => hknown id (List.mem_append_left _ hid)).mono
        (fun W s _ => at_globals hw W s) fun _ _ _ _ _ => trivial
    have hw' : (w.statement false st).scopes = [] := by
      rw [← List.isEmpty_iff, isEmpty_scopes_statement, hw]
      rfl
    exact hst.bind fun _ _ =>
      runProgram_agrees budget p hw' hs.2 hp.2 hclean.2
        fun id hid => hknown id (List.mem_append_right _ hid)

end Textual
end Lox
