import Lox.Proofs.Direct.Simulation
import Lox.Proofs.Requests
import Lox.Proofs.Textual.Session

/-! Sessions in which loops run as they are written.
The sources of a session are run one after another, with their loops as the parser rewrites them and
by a rule of its own for `for`. Both print the same and end in the same way, and corresponding
environments have equal bindings (`forLoops_run_as_written`). -/
namespace Lox

def Session.afterSources (budget : Nat) (clock : Nat → Float) (s : Session)
    (sources : List String) : Session :=
  sources.foldl (fun s source => (s.run budget clock source).2) s

namespace Direct

structure Session where
  ids : IdSupply
  state : State

namespace Session

def initial (sink : Sink) : Session :=
  ⟨.initial, ⟨⟨Lox.Session.initialStore, sink, 0⟩, fun _ => ⟨[], []⟩⟩⟩

variable (budget : Nat) (clock : Nat → Float)

def runProgram (s : Session) (q : Program) : Outcome × Session :=
  match resolve (lowerAll q) with
  | .error errors => (.refused errors, s)
  | .ok _ =>
    let result := Direct.runProgram clock budget q s.state
    (result.outcome, { s with state := result.state })

/-- Running a source text. If it is accepted, its `for` loops are executed by their own rule. -/
inductive Runs (s : Session) (source : String) : Outcome × Session → Prop
  | refused {errors : List SyntaxError} {ids : IdSupply}
    (compiled : compile source s.ids = (.error errors, ids)) :
    Runs s source (.refused errors, { s with ids })
  | read {q : Program} {ids : IdSupply} (reads : Reads source s.ids q ids) :
    Runs s source (runProgram budget clock { s with ids } q)

/-- How the sources end that are run one after another, the text received up to then, and the
session that they leave. -/
inductive Transcript : Session → List String → List (Outcome × String) → Session → Prop
  | nil (s : Session) : Transcript s [] [] s
  | cons {s t u : Session} {source : String} {sources : List String} {outcome : Outcome}
    {entries : List (Outcome × String)} (run : s.Runs budget clock source (outcome, t))
    (rest : Transcript t sources entries u) :
    Transcript s (source :: sources) ((outcome, t.state.run.sink.text) :: entries) u

variable {budget clock}

theorem exists_runs (s : Session) (source : String) :
    ∃ outcome t, s.Runs budget clock source (outcome, t) := by
  cases h : compile source s.ids with
  | mk result ids =>
    cases result with
    | error errors => exact ⟨_, _, .refused h⟩
    | ok p =>
      obtain ⟨q, -, hq⟩ := exists_reads h
      exact ⟨_, _, .read hq⟩

theorem exists_transcript : ∀ (sources : List String) (s : Session),
    ∃ entries t, s.Transcript budget clock sources entries t
  | [], s => ⟨_, _, .nil s⟩
  | source :: sources, s => by
    obtain ⟨_, t, hrun⟩ := s.exists_runs source
    obtain ⟨_, _, hrest⟩ := exists_transcript sources t
    exact ⟨_, _, .cons hrun hrest⟩

end Session

section

variable {a b : Side} {pairs : List EnvironmentId}

theorem SameFunction.extend {W : World} {c : Code} {g h : Function} (hab : a.Extends b) :
    SameFunction a.table a.known W c g h → SameFunction b.table b.known W c g h
  | .native name arity builtin => .native name arity builtin
  | .declared place settled uses =>
    .declared place (settled.congr _ fun id hid => hab.table id (uses id hid))
      fun id hid => hab.known id (uses id hid)

/-- A table may gain entries for uses that were not known. -/
theorem Related.extend {s : Lox.State} {t : State} (h : Related a.table a.known pairs s t)
    (hab : a.Extends b) : Related b.table b.known pairs s t :=
  { h with
    function := fun f g hf =>
      have ⟨g', hg', hsame⟩ := h.function f g hf
      ⟨g', hg', hsame.extend hab⟩ }

theorem sameEnd_of_covers {s : Lox.State} {t : State} (h : Related a.table a.known pairs s t)
    {q : Program} (hq : a.Covers .initial (lowerAll q)) (budget : Nat) (clock : Nat → Float) :
    SameEnd a.table a.known (world pairs s t) Same
      (Lox.runProgram ⟨a.table, clock⟩ budget (lowerAll q) s) (runProgram clock budget q t) :=
  runProgram_agrees (σ := ⟨a.table, clock⟩) (W := world pairs s t) budget q rfl h.root hq.settled
    hq.known pairs s t (.refl _) h

variable {r : Resolution} {known : UseId → Prop} {W : World}

theorem SameEnd.outcome_eq {u : Result Lox.State Unit} {v : Result State Unit}
    (h : SameEnd r known W Same u v) : u.outcome = v.outcome := by
  cases h <;> rfl

theorem SameEnd.exists_related {u : Result Lox.State Unit} {v : Result State Unit}
    (h : SameEnd r known W Same u v) : ∃ pairs, Related r known pairs u.state v.state := by
  cases h with
  | done _ related | failed _ _ related | unfinished _ related => exact ⟨_, related⟩

end

/-- Sessions that behave alike from here on: corresponding environments have equal bindings, and the
others of the first session have none. -/
structure Linked (s : Lox.Session) (t : Session) : Prop where
  ids : s.ids = t.ids
  related : ∃ pairs, Related s.resolution (Handed s.ids) pairs s.state t.state
  fresh : s.Fresh

theorem related_initial (r : Resolution) (known : UseId → Prop) (sink : Sink) :
    Related r known [globals] (Lox.Session.initial sink).state (Session.initial sink).state where
  sink := rfl
  ticks := rfl
  length := rfl
  nodup := List.nodup_singleton _
  bound _ he := List.mem_singleton.1 he ▸ Nat.one_pos
  root := rfl
  binding i e hi x := by
    obtain ⟨hlt, rfl⟩ := List.getElem?_eq_some_iff.1 hi
    obtain rfl : i = 0 := Nat.lt_one_iff.1 hlt
    rfl
  unpaired e he x := by
    refine Option.not_isSome_iff_eq_none.1 fun hx => he ?_
    have hlt : e < 1 := Store.lt_of_binding? hx
    exact List.mem_singleton.2 (Nat.lt_one_iff.1 hlt)
  count := rfl
  function f g hf := by
    refine ⟨g, hf, ?_⟩
    rcases f with _ | _ | f
    · cases hf
      exact .native "clock" 0 .clock
    · cases hf
      exact .native "sqrt" 1 .sqrt
    · cases hf

theorem linked_initial (sink : Sink) : Linked (.initial sink) (.initial sink) :=
  ⟨rfl, ⟨[globals], related_initial _ _ sink⟩, Lox.Session.fresh_initial sink⟩

namespace Linked

variable {s : Lox.Session} {t : Session}

/-- A source that is refused uses up ids at most. -/
theorem advance (h : Linked s t) {ids : IdSupply} (hids : s.ids.handed ≤ ids.handed) :
    Linked { s with ids, hadError := true } { t with ids } where
  ids := rfl
  related :=
    have ⟨pairs, hrel⟩ := h.related
    ⟨pairs, hrel.extend (a := s.side) (b := ⟨s.resolution, Handed ids⟩)
      ⟨fun _ _ => rfl, fun _ hid => Nat.lt_of_lt_of_le hid hids⟩⟩
  fresh id hid := h.fresh id fun hid' => hid (Nat.lt_of_lt_of_le hid' hids)

theorem ended (h : Linked s t) {q : Program} {new : Resolution} {ids : IdSupply}
    (hq : s.Accepts (lowerAll q) new ids) (budget : Nat) (clock : Nat → Float) :
    let u := Lox.runProgram ⟨s.resolution.extend new, clock⟩ budget (lowerAll q) s.state
    let v := runProgram clock budget q t.state
    (s.ended ids (s.resolution.extend new) u).1 = v.outcome ∧
      Linked (s.ended ids (s.resolution.extend new) u).2 ⟨ids, v.state⟩ := by
  obtain ⟨pairs, hrel⟩ := h.related
  have hrel' := hrel.extend (a := s.side) hq.grows
  have hend := sameEnd_of_covers hrel' (hq.covers h.fresh) budget clock
  exact ⟨hend.outcome_eq, rfl, hend.exists_related, hq.fresh h.fresh⟩

theorem run (h : Linked s t) {budget : Nat} {clock : Nat → Float} {source : String}
    (hb : s.ids.handed + demand (scan source).tokens < UInt32.size)
    {result : Outcome × Session} (hrun : t.Runs budget clock source result) :
    (s.run budget clock source).1 = result.1 ∧ Linked (s.run budget clock source).2 result.2 := by
  obtain ⟨hle, hids, -⟩ := numbers_of_parse (scan source).tokens s.ids
  rw [← compile_ids source] at hle hids
  cases hrun with
  | refused compiled =>
    rw [← h.ids] at compiled
    rw [Lox.Session.run_of_error (congrArg Prod.fst compiled)]
    rw [compiled] at hids ⊢
    exact ⟨rfl, h.advance hids⟩
  | @read q ids reads =>
    have compiled := reads.compiled
    rw [← h.ids] at compiled
    unfold Session.runProgram
    cases hr : resolve (lowerAll q) with
    | error errors =>
      rw [Lox.Session.run_of_unresolved (congrArg Prod.fst compiled) hr]
      rw [compiled] at hids ⊢
      exact ⟨rfl, h.advance hids⟩
    | ok new =>
      rw [Lox.Session.run_of_resolved (congrArg Prod.fst compiled) hr, compiled,
        Lox.Session.execute_eq]
      rw [compiled] at hle
      change ids.handed ≤ s.ids.handed + demand (scan source).tokens at hle
      exact h.ended (.of_compile compiled (by omega) hr) budget clock

theorem transcript {budget : Nat} {clock : Nat → Float} {sources : List String} {u : Session}
    {entries : List (Outcome × String)} (htranscript : t.Transcript budget clock sources entries u)
    (h : Linked s t)
    (hb : s.ids.handed + demand (sources.flatMap fun source => (scan source).tokens) <
      UInt32.size) :
    s.transcript budget clock sources = entries ∧
      Linked (s.afterSources budget clock sources) u := by
  induction htranscript generalizing s with
  | nil t => exact ⟨rfl, h⟩
  | @cons t t' u source sources outcome entries hrun _ ih =>
    rw [List.flatMap_cons, demand_append] at hb
    have hb' : s.ids.handed + demand (scan source).tokens < UInt32.size := by omega
    obtain ⟨houtcome, hlinked⟩ := h.run hb' hrun
    have hids := (numbers_of_parse (scan source).tokens s.ids).1
    obtain ⟨pairs, hrel⟩ := hlinked.related
    obtain ⟨hrest, hend⟩ := ih hlinked (by rw [Lox.Session.ids_run, compile_ids]; omega)
    refine ⟨?_, hend⟩
    simp only [Lox.Session.transcript, houtcome, hrel.sink, hrest]

end Linked

/-- The `for` loops of the sources of a session, rewritten by the parser, do what the loops do as
they are written. A loop that stands in corresponding environments of alike states ends alike on
both sides, in alike states, and the environment that is made for a round, if there is an increment,
has nothing bound in it. All sources can be run with their loops as they are written; then the
session tells and prints the same, and corresponding environments have equal bindings, as long as
there are ids for all uses of names. -/
theorem forLoops_run_as_written (budget : Nat) (clock : Nat → Float) (sink : Sink)
    (sources : List String)
    (hids : demand (sources.flatMap fun source => (scan source).tokens) < UInt32.size) :
    (∀ (σ : Setting) (known : UseId → Prop) (depth rounds : Nat) (W : World) (ρ : Scopes)
      (i e : EnvironmentId) (init : Option Init) (condition increment : Option Expr)
      (body : Statement), Stands σ.resolution known W ρ i e
        (.forLoop (init.map Init.lower) condition increment body.lower) →
      Agree σ.resolution known W
        (Lox.execute σ (Lox.call σ depth) rounds e
          (.forLoop (init.map Init.lower) condition increment body.lower))
        (execute (call σ.clock depth) rounds ρ i (.forLoop init condition increment body)) Same) ∧
    (∀ (σ : Setting) (known : UseId → Prop) (depth rounds : Nat) (pairs : List EnvironmentId)
      (s : Lox.State) (t : State) (ρ : Scopes) (i e : EnvironmentId) (increment : Expr)
      (body : Statement), Related σ.resolution known pairs s t →
      Stands σ.resolution known (world pairs s t) ρ i e
        (.block [body.lower, .expression increment]) →
      ∀ name, (Lox.execute σ (Lox.call σ depth) rounds e
        (.block [body.lower, .expression increment]) s).state.store.binding?
          s.store.nextEnvironment name = none) ∧
    (∃ entries t, (Session.initial sink).Transcript budget clock sources entries t) ∧
    ∀ entries t, (Session.initial sink).Transcript budget clock sources entries t →
      (Lox.Session.initial sink).transcript budget clock sources = entries ∧
        Linked ((Lox.Session.initial sink).afterSources budget clock sources) t := by
  refine ⟨fun σ known depth rounds W ρ i e init condition increment body h => ?_,
    fun σ known depth rounds pairs s t ρ i e increment body hrel h => h.unbound hrel depth rounds,
    Session.exists_transcript sources _, fun entries t ht => (linked_initial sink).transcript ht ?_⟩
  · obtain ⟨w, inFunction, place, hs, hknown⟩ := h
    exact execute_agrees (call_agrees depth) (.forLoop init condition increment body) place hs
      hknown
  · change 0 + _ < _
    rwa [Nat.zero_add]

/-- A loop whose variable is read by a closure that a round has made. -/
def loopSources : List String :=
  ["fun f() { var g; for (var i; i == nil; i = f) { fun show() { print i; } g = show; } g(); }",
    "f();"]

def loopVariable : Token := ⟨.identifier, "i", none, 1⟩

/-- `for (var i = true; i; i = nil) print i;` -/
def briefLoop : Statement :=
  .forLoop (some (.var loopVariable (some (.literal (.bool true))))) (some (.use 0 loopVariable))
    (some (.assign 1 loopVariable (.literal .nil))) (.print (.use 2 loopVariable))

/-- The condition is one scope nearer to the loop variable than body and increment. -/
def briefTable : Resolution := (∅ : Resolution).insert 0 0 |>.insert 1 1 |>.insert 2 1

theorem stands_briefLoop (W : World) :
    Stands briefTable (fun _ => True) W [] globals globals briefLoop.lower := by
  refine ⟨.initial, false, .top, ?_, fun _ _ => trivial⟩
  refine ⟨trivial, ⟨⟨?_, ?_⟩, ⟨⟨?_, ?_⟩, ⟨trivial, ?_⟩, trivial⟩⟩, trivial⟩
  all_goals decide

theorem stands_round (W : World) : Stands ∅ (fun _ => True) W [] globals globals
    (.block [.print (.use 2 loopVariable),
      .expression (.assign 1 loopVariable (.literal .nil))]) := by
  refine ⟨.initial, false, .top, ?_, fun _ _ => trivial⟩
  refine ⟨⟨?_, ?_⟩, ⟨trivial, ?_⟩, trivial⟩
  all_goals decide

set_option maxRecDepth 4000 in
theorem forLoops_run_as_written_capture :
    (∀ rounds, SameEnd briefTable (fun _ => True)
      (world [globals] (Lox.Session.initial .unlimited).state (Session.initial .unlimited).state)
      Same
      (Lox.execute ⟨briefTable, fun _ => 0⟩ (Lox.call ⟨briefTable, fun _ => 0⟩ 1) rounds globals
        briefLoop.lower (Lox.Session.initial .unlimited).state)
      (execute (call (fun _ => 0) 1) rounds [] globals briefLoop
        (Session.initial .unlimited).state)) ∧
    (∀ name, (Lox.execute ⟨∅, fun _ => 0⟩ (Lox.call ⟨∅, fun _ => 0⟩ 1) 1 globals
      (.block [.print (.use 2 loopVariable), .expression (.assign 1 loopVariable (.literal .nil))])
      (Lox.Session.initial .unlimited).state).state.store.binding? 1 name = none) ∧
    ∃ t, (Session.initial .unlimited).Transcript 100 (fun _ => 0) loopSources
        [(.ok, ""), (.ok, "<fn f>\n")] t ∧
      Linked ((Lox.Session.initial .unlimited).afterSources 100 (fun _ => 0) loopSources) t := by
  have hids : demand (loopSources.flatMap fun source => (scan source).tokens) = 14 := by cbv
  have hentries : (Lox.Session.initial .unlimited).transcript 100 (fun _ => 0) loopSources =
      [(.ok, ""), (.ok, "<fn f>\n")] := by cbv
  have hinitial (r : Resolution) := related_initial r (fun _ => True) .unlimited
  obtain ⟨hloop, hround, ⟨entries, t, ht⟩, hall⟩ :=
    forLoops_run_as_written 100 (fun _ => 0) .unlimited loopSources (by rw [hids]; decide)
  obtain ⟨rfl, hlinked⟩ := hall entries t ht
  refine ⟨fun rounds => ?_, ?_, t, hentries ▸ ht, hlinked⟩
  · exact hloop ⟨briefTable, fun _ => 0⟩ _ 1 rounds _ [] globals globals _ _ _ _
      (stands_briefLoop _) _ _ _ (.refl _) (hinitial briefTable)
  · exact hround ⟨∅, fun _ => 0⟩ _ 1 1 _ _ _ [] globals globals _ (.print (.use 2 loopVariable))
      (hinitial ∅) (stands_round _)

end Direct
end Lox
