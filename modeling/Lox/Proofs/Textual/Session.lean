import Mathlib
import Lox.Proofs.Compilation
import Lox.Proofs.Numbering
import Lox.Proofs.Plain
import Lox.Proofs.Textual.Simulation

/-! Sessions under textual scoping.
The sources of a session are run one after another, with the tables of the resolver and by what
their text shows. Both print the same and end in the same way (`transcript_textual`). -/
namespace Lox

/-- How the sources end that are run one after another, and the text received up to then. -/
def Session.transcript (budget : Nat) (clock : Nat → Float) (s : Session) :
    List String → List (Outcome × String)
  | [] => []
  | source :: sources =>
    let (outcome, s) := s.run budget clock source
    (outcome, s.state.sink.text) :: transcript budget clock s sources

def accepted (ids : IdSupply) : List String → List Program
  | [] => []
  | source :: sources =>
    match compile source ids with
    | (.ok p, ids) =>
      match resolve p with
      | .ok _ => p :: accepted ids sources
      | .error _ => accepted ids sources
    | (.error _, ids) => accepted ids sources

namespace Textual

structure Session where
  ids : IdSupply
  state : State

namespace Session

def initial (sink : Sink) : Session where
  ids := .initial
  state :=
    { cells := []
      globals := [("clock", .function 0), ("sqrt", .function 1)]
      functions := [.native "clock" 0 .clock, .native "sqrt" 1 .sqrt]
      sink
      ticks := 0 }

def run (budget : Nat) (clock : Nat → Float) (s : Session) (source : String) :
    Outcome × Session :=
  match compile source s.ids with
  | (.error errors, ids) => (.refused errors, { s with ids })
  | (.ok p, ids) =>
    match resolve p with
    | .error errors => (.refused errors, { s with ids })
    | .ok _ =>
      match runProgram clock budget p s.state with
      | .done _ state => (.ok, ⟨ids, state⟩)
      | .failed e state => (.failed e, ⟨ids, state⟩)
      | .unfinished state => (.unfinished, ⟨ids, state⟩)

def transcript (budget : Nat) (clock : Nat → Float) (s : Session) :
    List String → List (Outcome × String)
  | [] => []
  | source :: sources =>
    let (outcome, s) := s.run budget clock source
    (outcome, s.state.sink.text) :: transcript budget clock s sources

end Session

variable {r r' : Resolution} {known known' : UseId → Prop} {W : World}

theorem SameFunction.extend {s : Store} {g : Lox.Function} {h : Function}
    (hr : ∀ id, known id → r'[id]? = r[id]?) (hknown : ∀ id, known id → known' id) :
    SameFunction r known W s g h → SameFunction r' known' W s g h
  | .native name arity builtin => .native name arity builtin
  | .declared stands settled plain clean uses =>
    .declared stands (settled.congr _ fun id hid => hr id (uses id hid)) plain clean
      fun id hid => hknown id (uses id hid)

theorem Related.extend {s : Lox.State} {t : State} (h : Related r known W s t)
    (hr : ∀ id, known id → r'[id]? = r[id]?) (hknown : ∀ id, known id → known' id) :
    Related r' known' W s t :=
  { h with
    function := fun f g hf =>
      have ⟨g', hg', hsame⟩ := h.function f g hf
      ⟨g', hg', hsame.extend hr hknown⟩ }

/-- Sessions that behave alike from here on. -/
structure Linked (s : Lox.Session) (t : Session) : Prop where
  ids : s.ids = t.ids
  related : ∃ W, Related s.resolution (Handed s.ids) W s.state t.state
  fresh : ∀ id, ¬ Handed s.ids id → s.resolution[id]? = none

theorem related_empty (sink : Sink) :
    Related r known [] ⟨Store.empty.push none, sink, 0⟩ ⟨[], [], [], sink, 0⟩ where
  sink := rfl
  ticks := rfl
  rooted := Nat.one_pos
  root := rfl
  global _ := rfl
  length := rfl
  nodup := .nil
  cell _ _ _ h := nomatch h
  complete _ _ _ h := by
    rw [Store.binding?_push] at h
    cases h
  count := rfl
  function _ _ h := nomatch h

theorem linked_initial (sink : Sink) : Linked (.initial sink) (.initial sink) where
  ids := rfl
  related :=
    ⟨[], ((((related_empty sink).allocate (.native "clock" 0 .clock)).setGlobal "clock"
      (.function 0)).allocate (.native "sqrt" 1 .sqrt)).setGlobal "sqrt" (.function 1)⟩
  fresh id _ := by simp [Lox.Session.initial]

theorem Linked.advance {s : Lox.Session} {t : Session} (h : Linked s t) {ids : IdSupply}
    (hids : s.ids.handed ≤ ids.handed) {b c : Bool} :
    Linked { s with ids, hadError := b, hadRuntimeError := c } { t with ids } where
  ids := rfl
  related :=
    have ⟨W, hW⟩ := h.related
    ⟨W, hW.extend (fun _ _ => rfl) fun _ hid => Nat.lt_of_lt_of_le hid hids⟩
  fresh id hid := h.fresh id fun hid' => hid (Nat.lt_of_lt_of_le hid' hids)

theorem Linked.execute {s : Lox.Session} {t : Session} (h : Linked s t) {p : Program}
    {new : Resolution} {ids : IdSupply} (hids : s.ids.handed ≤ ids.handed)
    (hnodup : p.uses.Nodup) (hrange : ∀ id ∈ p.uses, ¬ Handed s.ids id ∧ Handed ids id)
    (hplain : Stmt.arePlain p) (hclean : Stmt.initializeCleanly false p)
    (hnew : resolve p = .ok new) (budget : Nat) (clock : Nat → Float) :
    ∃ W, SameEnd (s.resolution.extend new) (Handed ids) W (fun _ _ _ _ => True)
      (Lox.runProgram ⟨s.resolution.extend new, clock⟩ budget p s.state)
      (runProgram clock budget p t.state) := by
  obtain ⟨W, hW⟩ := h.related
  have hold : ∀ id, Handed s.ids id → (s.resolution.extend new)[id]? = s.resolution[id]? := by
    intro id hid
    rw [Resolution.getElem?_extend, resolve_getElem?_eq_none hnew fun hmem => (hrange id hmem).1 hid]
    rfl
  have hown : ∀ id ∈ p.uses, (s.resolution.extend new)[id]? = new[id]? := by
    intro id hid
    rw [Resolution.getElem?_extend, h.fresh id (hrange id hid).1, Option.or_none]
  have hsettled : Walk.initial.SettledStatements (s.resolution.extend new) false p :=
    (settled_of_resolve hnodup hnew).congr p hown
  have hrel := hW.extend hold fun _ hid => Nat.lt_of_lt_of_le hid hids
  have hagree := runProgram_agrees (σ := ⟨s.resolution.extend new, clock⟩) budget p rfl hsettled
    hplain hclean fun id hid => (hrange id hid).2
  exact ⟨W, hagree W s.state t.state hrel trivial⟩

theorem Linked.fresh_extend {s : Lox.Session} {t : Session} (h : Linked s t) {p : Program}
    {new : Resolution} {ids : IdSupply} (hids : s.ids.handed ≤ ids.handed)
    (hrange : ∀ id ∈ p.uses, Handed ids id) (hnew : resolve p = .ok new) (id : UseId)
    (hid : ¬ Handed ids id) : (s.resolution.extend new)[id]? = none := by
  rw [Resolution.getElem?_extend, resolve_getElem?_eq_none hnew fun hmem => hid (hrange id hmem),
    h.fresh id fun hid' => hid (Nat.lt_of_lt_of_le hid' hids)]
  rfl

theorem Linked.run {s : Lox.Session} {t : Session} (h : Linked s t) (budget : Nat)
    (clock : Nat → Float) {source : String}
    (hb : s.ids.handed + demand (scan source).tokens < UInt32.size)
    (hclean : ∀ p ids new, compile source s.ids = (.ok p, ids) → resolve p = .ok new →
      Stmt.initializeCleanly false p) :
    (s.run budget clock source).1 = (t.run budget clock source).1 ∧
      Linked (s.run budget clock source).2 (t.run budget clock source).2 := by
  obtain ⟨hle, hids, huses⟩ := numbers_of_parse (scan source).tokens s.ids
  have huses := huses (by omega)
  rw [← compile_ids source] at hids huses
  unfold Lox.Session.run Lox.Session.parse Session.run
  rw [← h.ids]
  cases hc : compile source s.ids with
  | mk result ids =>
  rw [hc] at hids huses
  cases result with
  | error errors => exact ⟨rfl, h.advance hids⟩
  | ok p =>
    dsimp only
    unfold Lox.Session.runProgram
    cases hr : resolve p with
    | error errors => exact ⟨rfl, h.advance hids⟩
    | ok new =>
      have hp := compile_eq_ok hc
      obtain ⟨hnodup, hrange⟩ := huses p hp
      have hrange : ∀ id ∈ p.uses, ¬ Handed s.ids id ∧ Handed ids id := fun id hid =>
        ⟨Nat.not_lt_of_le (hrange id hid).1, (hrange id hid).2⟩
      have hfresh := h.fresh_extend hids (fun id hid => (hrange id hid).2) hr
      obtain ⟨W, hend⟩ := h.execute hids hnodup hrange (arePlain_of_parse hp)
        (hclean p ids new hc hr) hr budget clock
      unfold Lox.Session.execute
      dsimp only
      generalize Lox.runProgram _ _ _ _ = u, runProgram _ _ _ _ = v at hend ⊢
      cases hend with
      | done hW hrel => exact ⟨rfl, rfl, ⟨_, hrel⟩, hfresh⟩
      | failed e hrel => exact ⟨rfl, rfl, ⟨_, hrel⟩, hfresh⟩
      | unfinished hrel => exact ⟨rfl, rfl, ⟨_, hrel⟩, hfresh⟩

theorem run_ids (s : Session) (budget : Nat) (clock : Nat → Float) (source : String) :
    (s.run budget clock source).2.ids = (compile source s.ids).2 := by
  unfold Session.run
  cases compile source s.ids with
  | mk result ids =>
    cases result with
    | error errors => rfl
    | ok p =>
      dsimp only
      cases resolve p with
      | error errors => rfl
      | ok new =>
        dsimp only
        cases runProgram clock budget p s.state <;> rfl

theorem Linked.transcript (budget : Nat) (clock : Nat → Float) : ∀ (sources : List String)
    {s : Lox.Session} {t : Session}, Linked s t →
    s.ids.handed + demand (sources.flatMap fun source => (scan source).tokens) < UInt32.size →
    (∀ p ∈ accepted s.ids sources, Stmt.initializeCleanly false p) →
    s.transcript budget clock sources = t.transcript budget clock sources
  | [], _, _, _, _, _ => rfl
  | source :: sources, s, t, h, hb, hclean => by
    rw [List.flatMap_cons, demand_append] at hb
    have hb' : s.ids.handed + demand (scan source).tokens < UInt32.size := by omega
    have hids := (numbers_of_parse (scan source).tokens s.ids).1
    rw [← compile_ids source] at hids
    have hhead : ∀ p ids new, compile source s.ids = (.ok p, ids) → resolve p = .ok new →
        Stmt.initializeCleanly false p := fun p ids new hc hr =>
      hclean p (by simp [accepted, hc, hr])
    have htail : ∀ p ∈ accepted (compile source s.ids).2 sources,
        Stmt.initializeCleanly false p := by
      refine fun p hp => hclean p ?_
      rw [accepted]
      split
      · next heq =>
        rw [heq] at hp
        split
        · exact List.mem_cons_of_mem _ hp
        · exact hp
      · next heq => rwa [heq] at hp
    obtain ⟨houtcome, hlinked⟩ := h.run budget clock hb' hhead
    have hnext : (s.run budget clock source).2.ids = (compile source s.ids).2 := by
      rw [hlinked.ids, run_ids, h.ids]
    obtain ⟨_, hrel⟩ := hlinked.related
    have ih := Linked.transcript budget clock sources hlinked (by rw [hnext]; omega)
      (by rwa [hnext])
    simp only [Lox.Session.transcript, Session.transcript, houtcome, hrel.sink, ih]

/-- The tables of the resolver and the chains of environments do what the text of the sources shows,
as long as there are ids for all uses of names and no initializer of a local variable assigns to the
variable itself. -/
theorem transcript_textual (budget : Nat) (clock : Nat → Float) (sink : Sink)
    (sources : List String)
    (hids : demand (sources.flatMap fun source => (scan source).tokens) < UInt32.size)
    (hclean : ∀ p ∈ accepted .initial sources, Stmt.initializeCleanly false p) :
    (Lox.Session.initial sink).transcript budget clock sources =
      (Session.initial sink).transcript budget clock sources := by
  refine (linked_initial sink).transcript budget clock sources ?_ hclean
  change 0 + _ < _
  rwa [Nat.zero_add]

/-- A function that assigns to the parameter of the function around it. -/
def captureSources : List String :=
  ["fun f(n) { fun g() { n = nil; } g(); return n; }", "{ var n = f; print f(n); }"]

set_option maxRecDepth 4000 in
theorem transcript_textual_capture :
    (Lox.Session.initial .unlimited).transcript 100 (fun _ => 0) captureSources =
      (Session.initial .unlimited).transcript 100 (fun _ => 0) captureSources := by
  have hids : demand (captureSources.flatMap fun source => (scan source).tokens) = 12 := by cbv
  have hclean : (accepted .initial captureSources).all (Stmt.initializeCleanly false) := by cbv
  exact transcript_textual 100 (fun _ => 0) .unlimited captureSources (by rw [hids]; decide)
    (List.all_eq_true.1 hclean)

end Textual
end Lox
