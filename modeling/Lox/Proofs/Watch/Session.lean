import Lox.Proofs.Plain
import Lox.Proofs.Watch.Safety

/-! Watched sessions.
Programs are run one after another on one store, with the tables of the resolver, and everything is
noted. Scopes and environments are in step at every visit, in the bodies of functions of earlier
programs and after runs that failed as well (`visits_inStep`). -/
namespace Lox

def Session.runPrograms (budget : Nat) (clock : Nat → Float) (s : Session) (programs : List Program) :
    Session :=
  programs.foldl (fun s p => (s.runProgram budget clock p).2) s

namespace Watch

structure Session where
  resolution : Resolution
  watched : Watched

namespace Session

def initial (sink : Sink) : Session :=
  ⟨∅, ⟨⟨Lox.Session.initialStore, sink, 0⟩, fun _ => .initial, []⟩⟩

def runProgram (budget : Nat) (clock : Nat → Float) (s : Session) (p : Program) : Session :=
  match resolve p with
  | .error _ => s
  | .ok new =>
    let resolution := s.resolution.extend new
    let result := Watch.runProgram ⟨resolution, clock⟩ budget .initial p s.watched
    { resolution, watched := result.state }

def runPrograms (budget : Nat) (clock : Nat → Float) (s : Session) (programs : List Program) :
    Session :=
  programs.foldl (runProgram budget clock) s

end Session

variable {plain : Prop} {r r' : Resolution} {known known' : UseId → Prop}

theorem Good.extend {s : Watched} (hs : Good plain r known s)
    (hr : ∀ id, known id → r'[id]? = r[id]?) (hknown : ∀ id, known id → known' id) :
    Good plain r' known' s :=
  { hs with
    function := fun f name params body closure hf =>
      have h := hs.function f name params body closure hf
      { h with
        settled := h.settled.congr body fun id hid => hr id (h.uses id hid)
        uses := fun id hid => hknown id (h.uses id hid) } }

/-- A watched session that does what a session does, and keeps the invariant. The names used so far
are those of these programs. -/
structure Follows (plain : Prop) (before : List Program) (s : Session) (t : Lox.Session) :
    Prop where
  resolution : s.resolution = t.resolution
  state : s.watched.state = t.state
  good : Good plain s.resolution (· ∈ before.flatMap Program.uses) s.watched
  fresh : ∀ id, id ∉ before.flatMap Program.uses → s.resolution[id]? = none

theorem follows_initial (sink : Sink) : Follows plain [] (.initial sink) (.initial sink) where
  resolution := rfl
  state := rfl
  good := by
    refine ⟨Nat.one_pos, rfl, fun f name params body closure hf => ?_,
      fun v hv => absurd hv List.not_mem_nil⟩
    -- The functions that there are at the start are built in.
    match f with
    | 0 | 1 => cases hf
    | f + 2 => cases hf
  fresh id _ := by simp [Session.initial]

theorem Follows.runProgram {before : List Program} {s : Session} {t : Lox.Session}
    (h : Follows plain before s t) (budget : Nat) (clock : Nat → Float) {p : Program}
    (hp : plain → Stmt.arePlain p) (hids : (before.flatMap Program.uses ++ p.uses).Nodup) :
    Follows plain (before ++ [p]) (s.runProgram budget clock p) (t.runProgram budget clock p).2 := by
  have hbefore : (before ++ [p]).flatMap Program.uses = before.flatMap Program.uses ++ p.uses := by
    simp
  obtain ⟨-, hnodup, hdisjoint⟩ := List.nodup_append.1 hids
  have hknown : ∀ id, id ∈ before.flatMap Program.uses →
      id ∈ (before ++ [p]).flatMap Program.uses := fun id hid => by
    rw [hbefore]
    exact List.mem_append_left _ hid
  unfold Session.runProgram Lox.Session.runProgram
  cases hnew : resolve p with
  | error errors =>
    exact ⟨h.resolution, h.state, h.good.extend (fun _ _ => rfl) hknown,
      fun id hid => h.fresh id fun hid' => hid (hknown id hid')⟩
  | ok new =>
    have hold : ∀ id, id ∈ before.flatMap Program.uses →
        (s.resolution.extend new)[id]? = s.resolution[id]? := fun id hid => by
      rw [Resolution.getElem?_extend,
        resolve_getElem?_eq_none hnew fun hid' => hdisjoint id hid id hid' rfl]
      rfl
    have hown : ∀ id ∈ p.uses, (s.resolution.extend new)[id]? = new[id]? := fun id hid => by
      rw [Resolution.getElem?_extend, h.fresh id fun hid' => hdisjoint id hid' id hid rfl,
        Option.or_none]
    have hsettled : Walk.initial.SettledStatements (s.resolution.extend new) false p :=
      (settled_of_resolve hnodup hnew).congr p hown
    have huses : ∀ id ∈ p.uses, id ∈ (before ++ [p]).flatMap Program.uses := fun id hid => by
      rw [hbefore]
      exact List.mem_append_right _ hid
    have hgood := (runProgram_safe ⟨s.resolution.extend new, clock⟩ budget p rfl hsettled hp huses
      s.watched (h.good.extend hold hknown) trivial).1
    have hstate := ((observer (s.resolution.extend new)).runProgram_erases
      ⟨s.resolution.extend new, clock⟩ budget p (false, .initial)).state_eq s.watched
    have hfresh : ∀ id, id ∉ (before ++ [p]).flatMap Program.uses →
        (s.resolution.extend new)[id]? = none := fun id hid => by
      rw [hbefore, List.mem_append, not_or] at hid
      rw [Resolution.getElem?_extend, resolve_getElem?_eq_none hnew hid.2, h.fresh id hid.1]
      rfl
    rw [h.state] at hstate
    unfold Lox.Session.execute
    dsimp only
    rw [← h.resolution]
    generalize Lox.runProgram _ _ _ _ = u at hstate
    cases u <;> exact ⟨rfl, hstate, hgood, hfresh⟩

theorem Follows.runPrograms (budget : Nat) (clock : Nat → Float) : ∀ (programs : List Program)
    {before : List Program} {s : Session} {t : Lox.Session}, Follows plain before s t →
    (plain → ∀ p ∈ programs, Stmt.arePlain p) → ((before ++ programs).flatMap Program.uses).Nodup →
    Follows plain (before ++ programs) (s.runPrograms budget clock programs)
      (t.runPrograms budget clock programs)
  | [], before, _, _, h, _, _ => by
    rw [List.append_nil]
    exact h
  | p :: programs, before, s, t, h, hp, hids => by
    have hp₁ : plain → Stmt.arePlain p := fun hp' => hp hp' p List.mem_cons_self
    have hids₁ : (before.flatMap Program.uses ++ p.uses).Nodup := by
      rw [List.flatMap_append, List.flatMap_cons, ← List.append_assoc] at hids
      exact (List.nodup_append.1 hids).1
    have happend : before ++ p :: programs = (before ++ [p]) ++ programs := by simp
    rw [happend] at hids ⊢
    exact (h.runProgram budget clock hp₁ hids₁).runPrograms budget clock programs
      (fun hp' q hq => hp hp' q (List.mem_cons_of_mem p hq)) hids

/-- Watching changes nothing, and at every visit the environments are in step with the scopes of the
resolver. If branches and loop bodies are no bare declarations, as in all programs that are parsed,
the names that are ready are bound, so that a local variable that is read has a value, and one that
is assigned exists unless this is done in its own initializer. -/
theorem visits_inStep (budget : Nat) (clock : Nat → Float) (sink : Sink) (programs : List Program)
    (hids : (programs.flatMap Program.uses).Nodup) :
    let watched := ((Session.initial sink).runPrograms budget clock programs).watched
    watched.state = ((Lox.Session.initial sink).runPrograms budget clock programs).state ∧
    (∀ v ∈ watched.visits, v.InStep ∧ ((∀ p ∈ programs, Stmt.arePlain p) → v.Bound)) ∧
    ∀ tokens ids p, (parse tokens ids).1 = .ok p → Stmt.arePlain p := by
  have hinitial : Follows (∀ p ∈ programs, Stmt.arePlain p) [] (.initial sink) (.initial sink) :=
    follows_initial sink
  have h := hinitial.runPrograms budget clock programs (fun hp => hp) hids
  exact ⟨h.state, h.good.visits, fun tokens ids p hp => arePlain_of_parse hp⟩

/-- A function that reads and assigns a variable of the block around it, and is called in a later
program. -/
def counterPrograms : List Program :=
  let identifier (name : String) : Token := ⟨.identifier, name, none, 1⟩
  let step : List Stmt :=
    [.expression (.assign 1 (identifier "n") (.use 0 (identifier "n"))), .ret (identifier "") none]
  [[.var (identifier "f") none,
    .block
      [.var (identifier "n") (some (.literal (.bool true))),
       .function (identifier "step") [] step,
       .expression (.assign 3 (identifier "f") (.use 2 (identifier "step")))]],
   [.expression (.call (.use 4 (identifier "f")) [] (identifier ")"))]]

theorem visits_inStep_counter : (counterPrograms.flatMap Program.uses).Nodup ∧
    ∀ v ∈ ((Session.initial .unlimited).runPrograms 10 (fun _ => 0) counterPrograms).watched.visits,
      v.InStep ∧ v.Bound := by
  have hids : (counterPrograms.flatMap Program.uses).Nodup := by decide
  have hplain : ∀ p ∈ counterPrograms, Stmt.arePlain p := by decide
  refine ⟨hids, fun v hv => ?_⟩
  have h := (visits_inStep 10 (fun _ => 0) .unlimited counterPrograms hids).2.1 v hv
  exact ⟨h.1, h.2 hplain⟩

end Watch
end Lox
