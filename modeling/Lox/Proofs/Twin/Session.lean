import Lox.Proofs.Compilation
import Lox.Proofs.Numbering
import Lox.Proofs.Twin.Parsing
import Lox.Proofs.Twin.Simulation

/-! Sessions that run twins.
Ids and tables differ from session to session, but a use and its twin are always settled at the same
depth. So sessions that have run twins so far will run twins alike (`agrees_of_covers`). -/
namespace Lox

open Blame (Traced Culprit)

/-- The table of a session, and the uses that it is about. -/
structure Side where
  table : Resolution
  known : UseId → Prop

namespace Side

/-- A later side has the same entries for the uses known so far. -/
structure Extends (a b : Side) : Prop where
  table : ∀ id, a.known id → b.table[id]? = a.table[id]?
  known : ∀ id, a.known id → b.known id

theorem Extends.refl (a : Side) : a.Extends a := ⟨fun _ _ => rfl, fun _ h => h⟩

/-- All uses in a program that the walk comes to in this state are known and settled. -/
structure Covers (a : Side) (w : Walk) (p : Program) : Prop where
  settled : w.SettledStatements a.table false p
  known : ∀ id ∈ p.uses, a.known id

end Side

/-- Two sides on which uses are alike if they are settled at the same depth. -/
def Side.pairing (a b : Side) (groupless : Prop) (token : Nat → Token → Token → Prop) : Pairing where
  groupless := groupless
  token := token
  use id id' := a.table[id]? = b.table[id']? ∧ a.known id ∧ b.known id'
  left := a.table
  right := b.table

structure LawfulTokens (token : Nat → Token → Token → Prop) : Prop where
  kind : ∀ program t t', token program t t' → t'.kind = t.kind
  lexeme : ∀ program t t', token program t t' → t'.lexeme = t.lexeme

section

variable {a b a' b' : Side} {groupless groupless' : Prop} {token token' : Nat → Token → Token → Prop}

theorem LawfulTokens.likeness (h : LawfulTokens token) (program : Nat) {use : UseId → UseId → Prop} :
    Likeness.Lawful ⟨groupless, token program, use⟩ := ⟨h.kind program, h.lexeme program⟩

theorem lawful_pairing (h : LawfulTokens token) : (a.pairing b groupless token).Lawful where
  likeness program := h.likeness program
  use _ _ h := h.1

/-- Who is to blame makes no difference to the states. -/
theorem Pairing.Related.innocent {B : Pairing} {s : Traced} {t : State} (h : B.Related s t) :
    B.Related ⟨s.state, s.origin, none⟩ t :=
  ⟨h.environments, h.count, h.function, h.sink, h.ticks⟩

/-- Functions stay twins when the tables grow, and if more is taken to be alike. -/
theorem Pairing.Related.extend {s : Traced} {t : State}
    (h : (a.pairing b groupless token).Related s t) (ha : a.Extends a') (hb : b.Extends b')
    (hgroup : groupless → groupless') {origin : FunctionId → Nat}
    (htoken : ∀ f u u', token (s.origin f) u u' → token' (origin f) u u') :
    (a'.pairing b' groupless' token').Related ⟨s.state, origin, none⟩ t where
  environments := h.environments
  count := h.count
  function f g hf := by
    obtain ⟨g', hg', hsame⟩ := h.function f g hf
    refine ⟨g', hg', ?_⟩
    have himplies : ((a.pairing b groupless token).likeness (s.origin f)).Implies
        ((a'.pairing b' groupless' token').likeness (origin f)) :=
      ⟨hgroup, htoken f, fun id id' h =>
        ⟨(ha.table id h.2.1).trans (h.1.trans (hb.table id' h.2.2).symm), ha.known id h.2.1,
          hb.known id' h.2.2⟩⟩
    cases hsame with
    | native name arity builtin => exact .native name arity builtin
    | declared closure name tokens all =>
      exact .declared closure (htoken f _ _ name) (tokens.imp (htoken f)) (all.mono himplies)
  sink := h.sink
  ticks := h.ticks

/-- Programs are twins also in the uses if each side covers its own. -/
theorem twin_of_covers (h : LawfulTokens token) {program : Nat} {w w' : Walk} {p p' : Program}
    (hw : w.Alike (token program) w') (ha : a.Covers w p) (hb : b.Covers w' p')
    (htwin : Stmt.AllTwin ⟨groupless, token program, fun _ _ => True⟩ p p') :
    Stmt.AllTwin ((a.pairing b groupless token).likeness program) p p' := by
  have hsettles : Likeness.Settles ⟨groupless, token program, fun _ _ => True⟩
      ((a.pairing b groupless token).likeness program) a.table b.table a.known b.known :=
    ⟨h.likeness program, fun h => h, fun _ _ h => h,
      fun _ _ hid hid' heq => ⟨heq, hid, hid'⟩⟩
  exact htwin.settle hsettles hw ha.settled hb.settled ha.known hb.known

/-- Twins that are covered run alike. -/
theorem agrees_of_covers (h : LawfulTokens token) (clock : Nat → Float) (budget : Nat) {program : Nat}
    {w w' : Walk} {p p' : Program} (hw : w.Alike (token program) w') (ha : a.Covers w p)
    (hb : b.Covers w' p') (htwin : Stmt.AllTwin ⟨groupless, token program, fun _ _ => True⟩ p p') :
    (a.pairing b groupless token).Agree (a.pairing b groupless token).Named
      (Blame.runProgram ⟨a.table, clock⟩ budget program p) (runProgram ⟨b.table, clock⟩ budget p') :=
  Pairing.runProgram_agrees (lawful_pairing h) clock budget program (twin_of_covers h hw ha hb htwin)

end

def Result.outcome {σ : Type} : Result σ Unit → Outcome
  | .done _ _ => .ok
  | .failed e _ => .failed e
  | .unfinished _ => .unfinished

def Result.fails {σ α : Type} : Result σ α → Bool
  | .failed _ _ => true
  | _ => false

section

variable {σ τ : Type} (f : σ → τ) (r : Result σ Unit)

theorem Result.outcome_map : (r.map f).outcome = r.outcome := by cases r <;> rfl

theorem Result.fails_map : (r.map f).fails = r.fails := by cases r <;> rfl

end

namespace Pairing

variable {B : Pairing} {E : Option Culprit → UInt32 → UInt32 → Prop}
variable {r : Result Traced Unit} {r' : Result State Unit}

theorem SameEnd.fails_eq (h : B.SameEnd E r r') : r.fails = r'.fails := by
  cases h <;> rfl

theorem SameEnd.outcome_eq (h : B.SameEnd B.Named r r') (htoken : B.token = fun _ => Eq) :
    r.outcome = r'.outcome := by
  cases h with
  | fault cause hrel hnamed =>
    rw [hnamed.line_eq htoken]
    rfl
  | done | output | unfinished => rfl

end Pairing

/-- Whatever ids are free, the same errors are found in a source, or the programs are twins. -/
theorem compile_alike (source : String) (ids ids' : IdSupply) :
    (∃ errors, (compile source ids).1 = .error errors ∧ (compile source ids').1 = .error errors) ∨
      ∃ p p', (compile source ids).1 = .ok p ∧ (compile source ids').1 = .ok p' ∧
        Stmt.AllTwin ⟨False, Eq, fun _ _ => True⟩ p p' := by
  have hparse : SameParse ⟨False, Eq, fun _ _ => True⟩ (parse (scan source).tokens ids).1
      (parse (scan source).tokens ids').1 :=
    (parse_alike (fun _ _ => True) (fun _ _ h => h) (fun _ _ h => congrArg Token.kind h.symm)
      (fun _ _ h => congrArg Token.literal h.symm) (fun _ _ h => h)
      (List.forall₂_same.2 fun _ _ => rfl) rfl trivial).1
  unfold compile
  dsimp only
  generalize (parse _ ids).1 = x, (parse _ ids').1 = y at hparse ⊢
  cases hparse with
  | ok twin =>
    cases (scan source).errors with
    | nil => exact .inr ⟨_, _, rfl, rfl, twin⟩
    | cons e es => exact .inl ⟨_, rfl, rfl⟩
  | error alike => exact .inl ⟨_, rfl, SyntaxError.Alike.all_eq alike ▸ rfl⟩

/-- A source uses up as many ids wherever it is compiled. -/
theorem handed_compile_alike (source : String) (ids ids' : IdSupply) :
    (compile source ids).2.handed + ids'.handed = (compile source ids').2.handed + ids.handed :=
  (@parse_alike Eq (fun _ _ => True) (fun x y => x.handed + ids'.handed = y.handed + ids.handed)
    (fun _ _ _ => trivial) (fun _ _ h => congrArg Token.kind h.symm)
    (fun _ _ h => congrArg Token.literal h.symm)
    (fun x y h => by simp only [IdSupply.take]; omega) _ _
    (List.forall₂_same.2 fun _ _ => rfl) rfl _ _ (Nat.add_comm _ _)).2

namespace Session

section

variable {budget : Nat} {clock : Nat → Float} {s : Session} {source : String}
variable {errors : List SyntaxError} {p : Program} {new : Resolution}

theorem run_eq : s.run budget clock source =
    match (compile source s.ids).1 with
    | .error errors =>
      (.refused errors, { s with ids := (compile source s.ids).2, hadError := true })
    | .ok p => { s with ids := (compile source s.ids).2 }.runProgram budget clock p := rfl

theorem run_of_error (h : (compile source s.ids).1 = .error errors) : s.run budget clock source =
    (.refused errors, { s with ids := (compile source s.ids).2, hadError := true }) := by
  rw [run_eq, h]

theorem run_of_unresolved (h : (compile source s.ids).1 = .ok p) (hr : resolve p = .error errors) :
    s.run budget clock source =
      (.refused errors, { s with ids := (compile source s.ids).2, hadError := true }) := by
  rw [run_eq, h]
  dsimp only
  rw [runProgram, hr]

theorem run_of_resolved (h : (compile source s.ids).1 = .ok p) (hr : resolve p = .ok new) :
    s.run budget clock source =
      { s with ids := (compile source s.ids).2 }.execute budget clock new p := by
  rw [run_eq, h]
  dsimp only
  rw [runProgram, hr]

/-- A run that is refused changes neither variables nor tables. -/
theorem state_of_refused (h : (s.run budget clock source).1 = .refused errors) :
    s.run budget clock source =
      (.refused errors, { s with ids := (compile source s.ids).2, hadError := true }) := by
  cases hc : (compile source s.ids).1 with
  | error errors =>
    rw [run_of_error hc] at h ⊢
    cases h
    rfl
  | ok p =>
    cases hr : resolve p with
    | error errors =>
      rw [run_of_unresolved hc hr] at h ⊢
      cases h
      rfl
    | ok new =>
      rw [run_of_resolved hc hr] at h
      unfold execute at h
      dsimp only at h
      cases hu : Lox.runProgram _ _ _ _ with
      | done | failed | unfinished =>
        rw [hu] at h
        cases h

theorem since_self (k : Sink) : k.since k = "" := by
  unfold Sink.since
  rw [List.drop_eq_nil_of_le (Nat.le_of_eq (String.length_toList ..))]

end

section

variable {budget : Nat} {clock : Nat → Float} {s : Session} {ids : IdSupply}
variable {p : Program} {new : Resolution}

def ended (s : Session) (ids : IdSupply) (resolution : Resolution) (r : Result State Unit) :
    Outcome × Session :=
  (r.outcome, { s with ids, resolution, state := r.state
                       hadRuntimeError := r.fails || s.hadRuntimeError })

theorem execute_eq : { s with ids }.execute budget clock new p =
    s.ended ids (s.resolution.extend new)
      (Lox.runProgram ⟨s.resolution.extend new, clock⟩ budget p s.state) := by
  unfold execute
  dsimp only
  cases Lox.runProgram _ _ _ _ <;> rfl

end

def side (s : Session) : Side := ⟨s.resolution, Handed s.ids⟩

/-- There are no entries for ids to come. -/
def Fresh (s : Session) : Prop := ∀ id, ¬ Handed s.ids id → s.resolution[id]? = none

/-- A program that a session can execute next. -/
structure Accepts (s : Session) (p : Program) (new : Resolution) (ids : IdSupply) : Prop where
  ids_le : s.ids.handed ≤ ids.handed
  nodup : p.uses.Nodup
  range : ∀ id ∈ p.uses, ¬ Handed s.ids id ∧ Handed ids id
  resolved : resolve p = .ok new

variable {s : Session} {p : Program} {new : Resolution} {ids : IdSupply}

namespace Accepts

theorem grows (h : s.Accepts p new ids) :
    s.side.Extends ⟨s.resolution.extend new, Handed ids⟩ where
  table id hid := by
    have hnew := resolve_getElem?_eq_none h.resolved fun hmem => (h.range id hmem).1 hid
    change (s.resolution.extend new)[id]? = s.resolution[id]?
    rw [Resolution.getElem?_extend, hnew, Option.none_or]
  known _ hid := Nat.lt_of_lt_of_le hid h.ids_le

theorem covers (h : s.Accepts p new ids) (hs : s.Fresh) :
    Side.Covers ⟨s.resolution.extend new, Handed ids⟩ .initial p where
  settled := by
    refine (settled_of_resolve h.nodup h.resolved).congr p fun id hid => ?_
    rw [Resolution.getElem?_extend, hs id (h.range id hid).1, Option.or_none]
  known id hid := (h.range id hid).2

theorem fresh (h : s.Accepts p new ids) (hs : s.Fresh) (id : UseId) (hid : ¬ Handed ids id) :
    (s.resolution.extend new)[id]? = none := by
  rw [Resolution.getElem?_extend, resolve_getElem?_eq_none h.resolved fun hmem => hid (h.range id hmem).2,
    hs id fun hid' => hid (Nat.lt_of_lt_of_le hid' h.ids_le), Option.none_or]

/-- What is compiled can be executed next, as long as there are ids. -/
theorem of_compile {source : String} (hc : compile source s.ids = (.ok p, ids))
    (hb : ids.handed ≤ UInt32.size) (hr : resolve p = .ok new) : s.Accepts p new ids := by
  obtain ⟨-, hids, huses⟩ := numbers_of_parse (scan source).tokens s.ids
  rw [← compile_ids source, hc] at hids huses
  obtain ⟨hnodup, hrange⟩ := huses hb p (compile_eq_ok hc)
  exact ⟨hids, hnodup, fun id hid => ⟨Nat.not_lt_of_le (hrange id hid).1, (hrange id hid).2⟩, hr⟩

variable {t : Session} {p' : Program} {new' : Resolution} {ids' : IdSupply}
variable {groupless : Prop} {token : Nat → Token → Token → Prop}

/-- Two sessions whose functions are twins run twins alike. On the left the run can be traced. -/
theorem runs_alike (hs : s.Accepts p new ids) (ht : t.Accepts p' new' ids') (hs' : s.Fresh)
    (ht' : t.Fresh) (h : LawfulTokens token) {origin : FunctionId → Nat}
    (hrel : (s.side.pairing t.side groupless token).Related ⟨s.state, origin, none⟩ t.state)
    (program : Nat) (htwin : Stmt.AllTwin ⟨groupless, token program, fun _ _ => True⟩ p p')
    (budget : Nat) (clock : Nat → Float) :
    let a : Side := ⟨s.resolution.extend new, Handed ids⟩
    let b : Side := ⟨t.resolution.extend new', Handed ids'⟩
    ∃ u, u.map Observed.state = Lox.runProgram ⟨a.table, clock⟩ budget p s.state ∧
      (a.pairing b groupless token).SameEnd (a.pairing b groupless token).Named u
        (Lox.runProgram ⟨b.table, clock⟩ budget p' t.state) :=
  ⟨_, Blame.observer.runProgram_erases _ budget p program _,
    agrees_of_covers h clock budget ⟨rfl, .nil⟩ (hs.covers hs') (ht.covers ht') htwin _ _
      (hrel.extend hs.grows ht.grows id fun _ _ _ h => h) rfl⟩

end Accepts

theorem fresh_initial (sink : Sink) : (initial sink).Fresh := fun _ _ => Std.TreeMap.getElem?_emptyc

theorem related_initial (B : Pairing) (sink : Sink) (origin : FunctionId → Nat) :
    B.Related ⟨(initial sink).state, origin, none⟩ (initial sink).state where
  environments := rfl
  count := rfl
  function f g hf := by
    refine ⟨g, hf, ?_⟩
    rcases f with _ | _ | f
    · cases hf
      exact .native "clock" 0 .clock
    · cases hf
      exact .native "sqrt" 1 .sqrt
    · cases hf
  sink := rfl
  ticks := rfl

end Session
end Lox
