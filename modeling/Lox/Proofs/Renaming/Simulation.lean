import Lox.Proofs.Growth
import Lox.Proofs.Renaming.Resolution

/-! Runs of renamed programs.
Two programs that are renamings of each other make the same environments and functions. In environments that
are made for the renamed scope the variable has another name. They print the same and end in the same way, up
to that name (`runProgram_renamed`). -/
namespace Lox

inductive RuntimeError.SameBut (x y : String) : RuntimeError → RuntimeError → Prop
  | same (e : RuntimeError) : SameBut x y e e
  | undefined (line : UInt32) :
    SameBut x y (.fault line (.undefinedVariable x)) (.fault line (.undefinedVariable y))

namespace Renaming

/-- For each environment, whether it is made for the renamed scope. -/
abbrev Marks := List Bool

/-- Of the environments that enclose one another from here, the one is marked that is as far out as the
renamed scope. -/
def Stands (M : Marks) (s : Store) (env : EnvironmentId) (position : Option Nat) : Prop :=
  ∀ depth a, s.ancestor? env depth = some a →
    a < M.length ∧ (M[a]? = some true ↔ position = some depth)

/-- What is known of environments stays true when there are more of them. -/
structure Later (M : Marks) (s : Store) (M' : Marks) (s' : Store) : Prop where
  marks : M <+: M'
  enclosing : ∀ a < M.length, s'.enclosing? a = s.enclosing? a

inductive SameFunction (C : Change) (M : Marks) (s : Store) : Function → Function → Prop
  | native (name : String) (arity : Nat) (builtin : Builtin) :
    SameFunction C M s (.native name arity builtin) (.native name arity builtin)
  | declared (name : Token) {params params' : List Token} {body body' : List Stmt}
    {closure : EnvironmentId} {position inner : Option Nat} (stands : Stands M s closure position)
    (within : Within position inner) (names : List.Forall₂ (C.Names (inner = some 0)) params params')
    (all : Stmt.AllRenames C inner body body') :
    SameFunction C M s (.declared name params body closure) (.declared name params' body' closure)

structure Related (C : Change) (M : Marks) (s t : State) : Prop where
  sink : s.sink = t.sink
  ticks : s.ticks = t.ticks
  length : M.length = s.store.nextEnvironment
  next : t.store.nextEnvironment = s.store.nextEnvironment
  root : M[globals]? = some false
  enclosing : ∀ e, t.store.enclosing? e = s.store.enclosing? e
  binding : ∀ e n n', C.Name (M[e]? = some true) n n' → t.store.binding? e n' = s.store.binding? e n
  count : s.store.functions.size = t.store.functions.size
  function : ∀ f g, s.store.function? f = some g →
    ∃ h, t.store.function? f = some h ∧ SameFunction C M s.store g h

inductive SameEnd {α : Type} (C : Change) (M : Marks) (s : Store) :
    Result State α → Result State α → Prop
  | done (a : α) {M' : Marks} {s' t' : State} (later : Later M s M' s'.store)
    (related : Related C M' s' t') : SameEnd C M s (.done a s') (.done a t')
  | failed {e e' : RuntimeError} {M' : Marks} {s' t' : State} (same : e.SameBut C.old C.new e')
    (related : Related C M' s' t') : SameEnd C M s (.failed e s') (.failed e' t')
  | unfinished {M' : Marks} {s' t' : State} (related : Related C M' s' t') :
    SameEnd C M s (.unfinished s') (.unfinished t')

/-- Where an environment has this position, two computations end alike. -/
def Agree {α : Type} (C : Change) (env : EnvironmentId) (position : Option Nat) (x y : Run α) : Prop :=
  ∀ M s t, Related C M s t → Stands M s.store env position → SameEnd C M s.store (x s) (y t)

variable {C : Change} {M M' : Marks} {s s' t : Store} {env : EnvironmentId} {position inner : Option Nat}

theorem Later.refl (M : Marks) (s : Store) : Later M s M s := ⟨List.prefix_refl M, fun _ _ => rfl⟩

theorem Later.trans {M'' : Marks} {s'' : Store} (h : Later M s M' s') (h' : Later M' s' M'' s'') :
    Later M s M'' s'' where
  marks := h.marks.trans h'.marks
  enclosing a ha :=
    (h'.enclosing a (Nat.lt_of_lt_of_le ha h.marks.length_le)).trans (h.enclosing a ha)

theorem Later.marked_iff (h : Later M s M' s') {a : EnvironmentId} (ha : a < M.length) :
    M'[a]? = M[a]? := by
  obtain ⟨N, rfl⟩ := h.marks
  exact List.getElem?_append_left ha

/-- Environments that there were are enclosed as before. -/
theorem Later.ancestor?_eq (h : Later M s M' s')
    (hlt : ∀ depth a, s.ancestor? env depth = some a → a < M.length) (depth : Nat) :
    s'.ancestor? env depth = s.ancestor? env depth := by
  induction depth generalizing env with
  | zero => rfl
  | succ depth ih =>
    have hlink : s'.enclosing? env = s.enclosing? env := h.enclosing env (hlt 0 env rfl)
    rw [Store.ancestor?, Store.ancestor?, hlink]
    cases he : s.enclosing? env with
    | none => rfl
    | some e =>
      refine ih fun depth a ha => hlt (depth + 1) a ?_
      rw [Store.ancestor?, he]
      exact ha

/-- In the renamed scope itself the environment is marked. -/
theorem Stands.here_iff (h : Stands M s env position) : position = some 0 ↔ M[env]? = some true :=
  (h 0 env rfl).2.symm

theorem Stands.later (h : Stands M s env position) (hlater : Later M s M' s') :
    Stands M' s' env position := by
  intro depth a ha
  rw [hlater.ancestor?_eq fun depth a ha => (h depth a ha).1] at ha
  obtain ⟨hlt, hmark⟩ := h depth a ha
  rw [hlater.marked_iff hlt]
  exact ⟨Nat.lt_of_lt_of_le hlt hlater.marks.length_le, hmark⟩

theorem SameFunction.later {g h : Function} (hlater : Later M s M' s') :
    SameFunction C M s g h → SameFunction C M' s' g h
  | .native name arity builtin => .native name arity builtin
  | .declared name stands within names all => .declared name (stands.later hlater) within names all

theorem SameFunction.arity_eq {g h : Function} : SameFunction C M s g h → h.arity = g.arity
  | .native .. => rfl
  | .declared _ _ _ names _ => names.length_eq.symm

theorem SameFunction.text_eq {g h : Function} : SameFunction C M s g h → h.text = g.text
  | .native .. | .declared .. => rfl

def mark (M : Marks) (inner : Option Nat) : Marks := M ++ [decide (inner = some 0)]

theorem later_define (M : Marks) (s : Store) (e : EnvironmentId) (name : String) (v : Value) :
    Later M s M (s.define e name v) :=
  ⟨List.prefix_refl M, fun _ _ => Store.enclosing?_define ..⟩

theorem later_allocate (M : Marks) (s : Store) (g : Function) : Later M s M (s.allocate g).2 :=
  ⟨List.prefix_refl M, fun _ _ => rfl⟩

theorem later_push (hlength : M.length = s.nextEnvironment) (e : EnvironmentId) (inner : Option Nat) :
    Later M s (mark M inner) (s.push (some e)) where
  marks := List.prefix_append M _
  enclosing a ha := by rw [Store.enclosing?_push, if_neg (Nat.ne_of_lt (hlength ▸ ha))]

/-- A new environment stands one further in. -/
theorem Stands.push (h : Stands M s env position) (hlength : M.length = s.nextEnvironment)
    (hwithin : Within position inner) :
    Stands (mark M inner) (s.push (some env)) s.nextEnvironment inner := by
  intro depth a ha
  cases depth with
  | zero =>
    cases ha
    rw [mark, ← hlength]
    simp
  | succ depth =>
    rw [Store.ancestor?, Store.enclosing?_push, if_pos rfl] at ha
    obtain ⟨hlt, hmark⟩ := h.later (later_push hlength env inner) depth a ha
    exact ⟨hlt, hmark.trans (hwithin depth).symm⟩

namespace Related

variable {s t : State}

theorem ancestor?_eq (h : Related C M s t) (e : EnvironmentId) (depth : Nat) :
    t.store.ancestor? e depth = s.store.ancestor? e depth := by
  induction depth generalizing e with
  | zero => rfl
  | succ depth ih =>
    rw [Store.ancestor?, Store.ancestor?, h.enclosing]
    exact congrArg _ (funext ih)

theorem function_none (h : Related C M s t) {f : FunctionId} (hf : s.store.function? f = none) :
    t.store.function? f = none := by
  have hsize : s.store.functions.size ≤ f := Array.getElem?_eq_none_iff.1 hf
  exact Array.getElem?_eq_none_iff.2 (h.count ▸ hsize)

theorem function_later (h : Related C M s t) {s' : Store} (hlater : Later M s.store M' s')
    (f : FunctionId) (g : Function) (hf : s.store.function? f = some g) :
    ∃ g', t.store.function? f = some g' ∧ SameFunction C M' s' g g' := by
  obtain ⟨g', hg', hsame⟩ := h.function f g hf
  exact ⟨g', hg', hsame.later hlater⟩

theorem text_eq (h : Related C M s t) (v : Value) : s.store.text v = t.store.text v := by
  unfold Store.text
  congr 1
  funext f
  cases hf : s.store.function? f with
  | none => rw [h.function_none hf]
  | some g =>
    obtain ⟨g', hg', hsame⟩ := h.function f g hf
    rw [hg']
    exact hsame.text_eq.symm

theorem define (h : Related C M s t) {e : EnvironmentId} {n n' : String}
    (hn : C.Name (M[e]? = some true) n n') (v : Value) :
    Related C M { s with store := s.store.define e n v } { t with store := t.store.define e n' v } where
  sink := h.sink
  ticks := h.ticks
  length := by simpa using h.length
  next := by simpa using h.next
  root := h.root
  enclosing := by simpa using h.enclosing
  binding e' m m' hm := by
    rw [Store.binding?_define, Store.binding?_define, h.next, h.binding e' m m' hm]
    by_cases he : e' = e
    · subst he
      simp only [hn.iff hm]
    · simp [he]
  count := h.count
  function := h.function_later (later_define ..)

theorem push (h : Related C M s t) (e : EnvironmentId) (inner : Option Nat) :
    Related C (mark M inner) { s with store := s.store.push (some e) }
      { t with store := t.store.push (some e) } where
  sink := h.sink
  ticks := h.ticks
  length := by simp [mark, h.length]
  next := by simp [h.next]
  root := by
    rw [(later_push h.length e inner).marked_iff (List.getElem?_eq_some_iff.1 h.root).1]
    exact h.root
  enclosing a := by
    rw [Store.enclosing?_push, Store.enclosing?_push, h.next, h.enclosing]
  binding a n n' hn := by
    rw [Store.binding?_push, Store.binding?_push]
    by_cases ha : a < M.length
    · rw [(later_push h.length e inner).marked_iff ha] at hn
      exact h.binding a n n' hn
    · have hs : s.store.nextEnvironment ≤ a := h.length ▸ Nat.le_of_not_lt ha
      have ht : t.store.nextEnvironment ≤ a := h.next ▸ hs
      rw [Store.binding?, Store.binding?, Array.getElem?_eq_none hs, Array.getElem?_eq_none ht]
      rfl
  count := h.count
  function := h.function_later (later_push h.length e inner)

theorem allocate (h : Related C M s t) {g g' : Function} (hg : SameFunction C M s.store g g') :
    Related C M { s with store := (s.store.allocate g).2 } { t with store := (t.store.allocate g').2 } where
  sink := h.sink
  ticks := h.ticks
  length := h.length
  next := h.next
  root := h.root
  enclosing := h.enclosing
  binding := h.binding
  count := by simp [Store.allocate, h.count]
  function f k hf := by
    have hlater : Later M s.store M (s.store.allocate g).2 := later_allocate M s.store g
    rw [Store.function?_allocate] at hf
    rw [Store.function?_allocate, ← h.count]
    split at hf
    · next heq =>
      cases hf
      exact ⟨g', if_pos heq, hg.later hlater⟩
    · next hne =>
      obtain ⟨k', hk', hsame⟩ := h.function_later hlater f k hf
      exact ⟨k', (if_neg hne).trans hk', hsame⟩

end Related

section

variable {α β : Type}

theorem SameEnd.since (h : Later M s M' s') {u v : Result State α} (hend : SameEnd C M' s' u v) :
    SameEnd C M s u v := by
  cases hend with
  | done a later related => exact .done a (h.trans later) related
  | failed same related => exact .failed same related
  | unfinished related => exact .unfinished related

/-- The next computations start where the first ones end. -/
theorem SameEnd.bind {s t : State} {x y : Run α} {f g : α → Run β}
    (h : SameEnd C M s.store (x s) (y t))
    (hf : ∀ a M' s' t', Later M s.store M' s'.store → Related C M' s' t' →
      SameEnd C M' s'.store (f a s') (g a t')) :
    SameEnd C M s.store ((x >>= f) s) ((y >>= g) t) := by
  rw [Computation.bind_apply, Computation.bind_apply]
  generalize x s = u, y t = v at h ⊢
  cases h with
  | done a later related => exact (hf a _ _ _ later related).since later
  | failed same related => exact .failed same related
  | unfinished related => exact .unfinished related

theorem SameEnd.ticking {s t : State} (hrel : Related C M s t)
    (f : Nat → Except RuntimeError (α × Nat)) :
    SameEnd C M s.store (Run.ticking f s) (Run.ticking f t) := by
  unfold Run.ticking
  rw [hrel.ticks]
  cases f t.ticks with
  | ok a => exact .done a.1 (.refl M s.store) { hrel with ticks := rfl }
  | error e => exact .failed (.same e) hrel

namespace Agree

theorem pure (a : α) : Agree C env position (Pure.pure a) (Pure.pure a) :=
  fun M s _ hrel _ => .done a (.refl M s.store) hrel

theorem fail (e : RuntimeError) : Agree C env position (.fail e : Run α) (.fail e) :=
  fun _ _ _ hrel _ => .failed (.same e) hrel

theorem exhaust : Agree C env position (.exhaust : Run α) .exhaust :=
  fun _ _ _ hrel _ => .unfinished hrel

theorem bind {x y : Run α} {f g : α → Run β} (hx : Agree C env position x y)
    (hf : ∀ a, Agree C env position (f a) (g a)) : Agree C env position (x >>= f) (y >>= g) :=
  fun M s t hrel hstands => (hx M s t hrel hstands).bind fun a M' s' t' hlater hrel' =>
    hf a M' s' t' hrel' (hstands.later hlater)

theorem ofExcept (x : Except RuntimeError α) : Agree C env position (.ofExcept x) (.ofExcept x) := by
  cases x with
  | ok a => exact pure a
  | error e => exact fail e

theorem inspect {f : State → α} (h : ∀ M s t, Related C M s t → f s = f t) :
    Agree C env position (.inspect f) (.inspect f) := by
  intro M s t hrel _
  change SameEnd C M s.store (.done (f s) s) (.done (f t) t)
  rw [h M s t hrel]
  exact .done (f t) (.refl M s.store) hrel

theorem write (text : String) : Agree C env position (.write text) (.write text) := by
  intro M s t hrel _
  unfold Run.write
  rw [hrel.sink]
  split
  · exact .failed (.same _) hrel
  · exact .done () (.refl M s.store) { hrel with sink := rfl }

theorem define {name name' : Token} (names : C.Names (position = some 0) name name') (v : Value) :
    Agree C env position (.define env name.lexeme v) (.define env name'.lexeme v) := by
  intro M s t hrel hstands
  exact .done () (later_define ..) (hrel.define (names.name.congr hstands.here_iff) v)

theorem repeatWhile {c c' : Run Value} {b b' : Run Flow} (hc : Agree C env position c c')
    (hb : Agree C env position b b') (n : Nat) :
    Agree C env position (repeatWhile c b n) (repeatWhile c' b' n) := by
  induction n with
  | zero => exact exhaust
  | succ n ih =>
    rw [Computation.repeatWhile_succ, Computation.repeatWhile_succ]
    refine hc.bind fun v => ?_
    split
    · refine hb.bind fun flow => ?_
      cases flow with
      | next => exact ih
      | returned v => exact pure _
    · exact pure _

theorem enter (hwithin : Within position inner) {f g : EnvironmentId → Run α}
    (hf : ∀ e, Agree C e inner (f e) (g e)) :
    Agree C env position (Run.enter env >>= f) (Run.enter env >>= g) := by
  intro M s t hrel hstands
  have ht : Run.enter env t =
      .done s.store.nextEnvironment { t with store := t.store.push (some env) } := by
    rw [Run.enter, hrel.next]
  rw [Computation.bind_done ht]
  have hend := hf s.store.nextEnvironment _ _ _ (hrel.push env inner)
    (hstands.push hrel.length hwithin)
  exact hend.since (later_push hrel.length env inner)

/-- Functions are made on both sides, with bodies that are renamings of each other. -/
theorem declareFunction {name : Token} {params params' : List Token} {body body' : List Stmt}
    (kept : C.Name (position = some 0) name.lexeme name.lexeme) (within : Within position inner)
    (names : List.Forall₂ (C.Names (inner = some 0)) params params')
    (all : Stmt.AllRenames C inner body body') :
    Agree C env position
      (do
        let f ← Run.allocate (.declared name params body env)
        .define env name.lexeme (.function f)
        Pure.pure Flow.next)
      (do
        let f ← Run.allocate (.declared name params' body' env)
        .define env name.lexeme (.function f)
        Pure.pure Flow.next) := by
  intro M s t hrel hstands
  have ht : Run.allocate (.declared name params' body' env) t =
      .done s.store.functions.size
        { t with store := (t.store.allocate (.declared name params' body' env)).2 } := by
    rw [hrel.count]
    rfl
  rw [Computation.bind_done ht]
  have hallocate := hrel.allocate (.declared name hstands within names all)
  have hlater := later_allocate M s.store (.declared name params body env)
  exact .done Flow.next (hlater.trans (later_define ..))
    (hallocate.define (kept.congr hstands.here_iff) _)

end Agree

/-- Settings that settle uses as they are settled in the renamed program. -/
structure Settles (C : Change) (σ τ : Setting) : Prop where
  left : ∀ id : UseId, σ.resolution[id]? = C.depth? id
  right : ∀ id : UseId, τ.resolution[id]? = C.depth? id
  clock : σ.clock = τ.clock

variable {σ τ : Setting}

theorem Settles.locate_eq (h : Settles C σ τ) (env : EnvironmentId) (id : UseId) :
    τ.locate env id = σ.locate env id := by
  rw [Setting.locate, h.right, Setting.locate, h.left]

/-- A use means the renamed scope if the environment is marked where it is located. -/
theorem Settles.marked_iff (h : Settles C σ τ) {s t : State} (hrel : Related C M s t)
    (hstands : Stands M s.store env position) {id : UseId} {a : EnvironmentId}
    (ha : s.store.ancestor? (σ.locate env id).1 (σ.locate env id).2 = some a) :
    C.Means position id ↔ M[a]? = some true := by
  unfold Setting.locate at ha
  rw [h.left] at ha
  cases hd : C.depth? id with
  | some depth =>
    rw [hd] at ha
    exact (Change.means_iff hd).trans (hstands depth a ha).2.symm
  | none =>
    rw [hd] at ha
    cases ha
    simp [hrel.root, Change.Means, hd]

theorem sameBut_undefined {here : Prop} {name name' : Token} (names : C.Names here name name') :
    RuntimeError.SameBut C.old C.new (.fault name.line (.undefinedVariable name.lexeme))
      (.fault name'.line (.undefinedVariable name'.lexeme)) := by
  obtain ⟨hname, hline⟩ := names
  rw [hline]
  generalize name.lexeme = n, name'.lexeme = n' at hname
  cases hname with
  | renamed => exact .undefined name.line
  | kept => exact .same _

theorem Agree.read (h : Settles C σ τ) {id : UseId} {name name' : Token}
    (names : C.Names (C.Means position id) name name') :
    Agree C env position (.read (σ.locate env id).1 (σ.locate env id).2 name)
      (.read (τ.locate env id).1 (τ.locate env id).2 name') := by
  intro M s t hrel hstands
  have hvalue : ((t.store.ancestor? (τ.locate env id).1 (τ.locate env id).2).bind fun a =>
      t.store.binding? a name'.lexeme) =
      (s.store.ancestor? (σ.locate env id).1 (σ.locate env id).2).bind fun a =>
        s.store.binding? a name.lexeme := by
    rw [h.locate_eq, hrel.ancestor?_eq]
    cases ha : s.store.ancestor? (σ.locate env id).1 (σ.locate env id).2 with
    | none => rfl
    | some a => exact hrel.binding a _ _ (names.name.congr (h.marked_iff hrel hstands ha))
  unfold Run.read Store.read
  rw [hvalue]
  generalize Option.bind _ _ = value
  cases value with
  | some v => exact .done v (.refl M s.store) hrel
  | none => exact .failed (sameBut_undefined names) hrel

theorem Agree.assign (h : Settles C σ τ) {id : UseId} {name name' : Token}
    (names : C.Names (C.Means position id) name name') (v : Value) :
    Agree C env position (.assign (σ.locate env id).1 (σ.locate env id).2 name v)
      (.assign (τ.locate env id).1 (τ.locate env id).2 name' v) := by
  intro M s t hrel hstands
  unfold Run.assign Store.owner?
  rw [h.locate_eq, hrel.ancestor?_eq]
  cases ha : s.store.ancestor? (σ.locate env id).1 (σ.locate env id).2 with
  | none => exact .failed (sameBut_undefined names) hrel
  | some a =>
    have hname : C.Name (M[a]? = some true) name.lexeme name'.lexeme :=
      names.name.congr (h.marked_iff hrel hstands ha)
    simp only [Option.filter, hrel.binding a _ _ hname]
    by_cases hbound : (s.store.binding? a name.lexeme).isSome
    · rw [if_pos hbound]
      exact .done () (later_define ..) (hrel.define hname v)
    · rw [if_neg hbound]
      exact .failed (sameBut_undefined names) hrel

end

section

variable {σ τ : Setting} {call call' : Caller} {rounds : Nat}

abbrev CallsAgree (C : Change) (call call' : Caller) : Prop :=
  ∀ f args line M s t, Related C M s t →
    SameEnd C M s.store (call f args line s) (call' f args line t)

mutual

theorem evaluate_agrees (h : Settles C σ τ) (hcall : CallsAgree C call call') {e e' : Expr} :
    e.Renames C position e' →
      Agree C env position (evaluate σ call env e) (evaluate τ call' env e')
  | .literal _ => .pure _
  | .group inner => by
    rw [evaluate, evaluate]
    exact evaluate_agrees h hcall inner
  | .unary _ operand => (evaluate_agrees h hcall operand).bind fun _ => .ofExcept _
  | .binary _ left right =>
    (evaluate_agrees h hcall left).bind fun _ =>
      (evaluate_agrees h hcall right).bind fun _ => .ofExcept _
  | .logical _ left right =>
    (evaluate_agrees h hcall left).bind fun l => by
      split
      · exact .pure l
      · exact evaluate_agrees h hcall right
  | .use names => .read h names
  | .assign names value =>
    (evaluate_agrees h hcall value).bind fun v => (Agree.assign h names v).bind fun _ => .pure v
  | .call paren head tail =>
    (evaluate_agrees h hcall head).bind fun f =>
      (evaluateAll_agrees h hcall tail).bind fun vs M s t hrel _ =>
        hcall f vs paren.line M s t hrel

theorem evaluateAll_agrees (h : Settles C σ τ) (hcall : CallsAgree C call call')
    {es es' : List Expr} : Expr.AllRenames C position es es' →
      Agree C env position (evaluateAll σ call env es) (evaluateAll τ call' env es')
  | .nil => .pure _
  | .cons head tail =>
    (evaluate_agrees h hcall head).bind fun _ => (evaluateAll_agrees h hcall tail).bind fun _ => .pure _

end

mutual

theorem execute_agrees (h : Settles C σ τ) (hcall : CallsAgree C call call') {env : EnvironmentId}
    {position : Option Nat} {s s' : Stmt} : s.Renames C position s' →
      Agree C env position (execute σ call rounds env s) (execute τ call' rounds env s')
  | .expression value => (evaluate_agrees h hcall value).bind fun _ => .pure _
  | .print value =>
    (evaluate_agrees h hcall value).bind fun v =>
      (Agree.inspect fun _ _ _ hrel => hrel.text_eq v).bind fun text =>
        (Agree.write text).bind fun _ => (Agree.write "\n").bind fun _ => .pure _
  | .var names => (Agree.define names .nil).bind fun _ => .pure _
  | .init names value =>
    (evaluate_agrees h hcall value).bind fun v => (Agree.define names v).bind fun _ => .pure _
  | .block within all => Agree.enter within fun _ => executeAll_agrees h hcall all
  | .branch condition consequent =>
    (evaluate_agrees h hcall condition).bind fun v => by
      split
      · exact execute_agrees h hcall consequent
      · exact .pure _
  | .branchElse condition consequent alternative =>
    (evaluate_agrees h hcall condition).bind fun v => by
      split
      · exact execute_agrees h hcall consequent
      · exact execute_agrees h hcall alternative
  | .loop condition body =>
    .repeatWhile (evaluate_agrees h hcall condition) (execute_agrees h hcall body) rounds
  | .function kept within names all => .declareFunction kept within names all
  | .ret _ => .pure _
  | .retValue _ value => (evaluate_agrees h hcall value).bind fun _ => .pure _

theorem executeAll_agrees (h : Settles C σ τ) (hcall : CallsAgree C call call') {env : EnvironmentId}
    {position : Option Nat} {ss ss' : List Stmt} : Stmt.AllRenames C position ss ss' →
      Agree C env position (executeAll σ call rounds env ss) (executeAll τ call' rounds env ss')
  | .nil => .pure _
  | .cons head tail => (execute_agrees h hcall head).bind fun flow => by
    cases flow with
    | next => exact executeAll_agrees h hcall tail
    | returned v => exact .pure _

end

end

theorem Agree.defineAll {params params' : List Token}
    (names : List.Forall₂ (C.Names (position = some 0)) params params') (args : List Value) :
    Agree C env position (.defineAll env ((params.map Token.lexeme).zip args))
      (.defineAll env ((params'.map Token.lexeme).zip args)) := by
  -- There may be fewer arguments than parameters, or more.
  induction names generalizing args with
  | nil => exact .pure ()
  | @cons name name' params params' hname _ ih =>
    cases args with
    | nil => exact .pure ()
    | cons v args => exact (Agree.define hname v).bind fun _ => ih args

theorem call_agrees {σ τ : Setting} (h : Settles C σ τ) (depth : Nat) :
    CallsAgree C (call σ depth) (call τ depth) := by
  induction depth with
  | zero => exact fun f args line M s t hrel => .unfinished hrel
  | succ depth ih =>
    intro f args line M s t hrel
    cases f with
    | nil | bool | number | string => exact .failed (.same _) hrel
    | function f =>
      rw [call, call]
      have hs : Computation.inspect (·.store.function? f) s = .done (s.store.function? f) s := rfl
      have ht : Computation.inspect (·.store.function? f) t = .done (t.store.function? f) t := rfl
      rw [Computation.bind_done hs, Computation.bind_done ht]
      cases hf : s.store.function? f with
      | none =>
        rw [hrel.function_none hf]
        exact .failed (.same _) hrel
      | some g =>
        obtain ⟨g', hg', hsame⟩ := hrel.function f g hf
        rw [hg']
        dsimp only
        rw [hsame.arity_eq]
        split
        · exact .failed (.same _) hrel
        cases hsame with
        | native name arity builtin =>
          dsimp only
          rw [h.clock]
          exact .ticking hrel _
        | @declared name params params' body body' closure position inner stands within names all =>
          -- The body is related where it was declared, not where it is called.
          refine Agree.enter within (fun env => ?_) M s t hrel stands
          refine (Agree.defineAll names args).bind fun _ => ?_
          refine (executeAll_agrees h ih all).bind fun flow => ?_
          cases flow <;> exact .pure _

/-- A renamed program runs alike in the environment of the globals. -/
theorem runProgram_renamed {σ τ : Setting} (h : Settles C σ τ) (budget : Nat) {p p' : Program}
    (hp : Stmt.AllRenames C none p p') :
    Agree C globals none (runProgram σ budget p) (runProgram τ budget p') := by
  induction p generalizing p' with
  | nil =>
    cases hp
    exact .pure ()
  | cons s p ih =>
    cases hp with
    | cons head tail =>
      exact (execute_agrees h (call_agrees h budget) head).bind fun _ => ih tail

end Renaming
end Lox
