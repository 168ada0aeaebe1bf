import Mathlib
import Lox.Proofs.Renaming.Simulation
import Lox.Proofs.Twin.Session

/-! Renamed sources.
A source that is accepted can have a local variable renamed. The tree is accepted as before, and a fresh
session runs it as it runs the source (`run_renamed`). -/
namespace Lox

/-- Programs end in the same way, except for the name of a variable that is not defined. -/
inductive Outcome.SameBut (x y : String) : Outcome → Outcome → Prop
  | ok : SameBut x y .ok .ok
  | failed {e e' : RuntimeError} (same : e.SameBut x y e') : SameBut x y (.failed e) (.failed e')
  | unfinished : SameBut x y .unfinished .unfinished

namespace Renaming

theorem SameEnd.outcome {C : Change} {M : Marks} {s : Store} {u v : Result State Unit}
    (h : SameEnd C M s u v) : u.outcome.SameBut C.old C.new v.outcome := by
  cases h with
  | done => exact .ok
  | failed same => exact .failed same
  | unfinished => exact .unfinished

theorem SameEnd.sink_eq {α : Type} {C : Change} {M : Marks} {s : Store} {u v : Result State α}
    (h : SameEnd C M s u v) : u.state.sink = v.state.sink := by
  cases h with
  | done a later related => exact related.sink
  | failed same related => exact related.sink
  | unfinished related => exact related.sink

theorem related_initial (C : Change) (sink : Sink) :
    Related C [false] (Session.initial sink).state (Session.initial sink).state where
  sink := rfl
  ticks := rfl
  length := rfl
  next := rfl
  root := rfl
  enclosing _ := rfl
  binding e n n' hn := by
    cases hn with
    | renamed inside => rcases e with _ | e <;> cases inside
    | kept => rfl
  count := rfl
  function f g hf := by
    refine ⟨g, hf, ?_⟩
    rcases f with _ | _ | f
    · cases hf
      exact .native "clock" 0 .clock
    · cases hf
      exact .native "sqrt" 1 .sqrt
    · cases hf

theorem stands_initial : Stands [false] Session.initialStore globals none := by
  intro depth a ha
  cases depth with
  | zero =>
    cases ha
    simp [globals]
  | succ depth => cases ha

end Renaming

namespace Session

theorem runProgram_of_resolved {budget : Nat} {clock : Nat → Float} {s : Session} {p : Program}
    {r : Resolution} (h : resolve p = .ok r) :
    s.runProgram budget clock p = s.execute budget clock r p := by
  rw [runProgram, h]

/-- The name of a local variable does not matter. Take a source that is accepted, a scope in it (a block, or
the parameters and the body of a function) and a name `x` that is no function of the scope. If `x` becomes
`y`, which does not occur in the program, where the scope declares it and in the uses that are settled in the
scope, then the tree is accepted with the same table. A fresh session runs it as it runs the source, with any
budget. The same text is printed and the result is the same, but where `x` is reported as undefined it may
be `y`. -/
theorem run_renamed (budget : Nat) (clock : Nat → Float) (sink : Sink) {source : String}
    {p p' : Program} {r : Resolution} {x y : String} (hsource : (compile source .initial).1 = .ok p)
    (hr : resolve p = .ok r) (hp : Stmt.AllScopeRenamed r x y p p') (hy : y ∉ Stmt.allNames p) :
    let s := initial sink
    let a := s.run budget clock source
    let b := s.runProgram budget clock p'
    (∃ r', resolve p' = .ok r' ∧ ∀ id : UseId, r'[id]? = r[id]?) ∧
      a.1.SameBut x y b.1 ∧ b.2.printedSince s = a.2.printedSince s := by
  intro s a b
  have hrenames : Stmt.AllRenames (r.change x y) none p p' :=
    hp.renames fun n hn heq => hy (heq ▸ hn)
  obtain ⟨r', hr', htable⟩ := resolve_renamed hr hrenames
  refine ⟨⟨r', hr', htable⟩, ?_⟩
  have ha : a = s.ended (compile source s.ids).2 (s.resolution.extend r)
      (Lox.runProgram ⟨s.resolution.extend r, clock⟩ budget p s.state) :=
    (run_of_resolved hsource hr).trans execute_eq
  have hb : b = s.ended s.ids (s.resolution.extend r')
      (Lox.runProgram ⟨s.resolution.extend r', clock⟩ budget p' s.state) :=
    (runProgram_of_resolved hr').trans (@execute_eq budget clock s s.ids p' r')
  have hsettles : Renaming.Settles (r.change x y) ⟨s.resolution.extend r, clock⟩
      ⟨s.resolution.extend r', clock⟩ := by
    refine ⟨fun id => ?_, fun id => ?_, rfl⟩
    · rw [Resolution.getElem?_extend]
      exact Option.or_none
    · rw [Resolution.getElem?_extend, htable]
      exact Option.or_none
  have hend := Renaming.runProgram_renamed hsettles budget hrenames _ _ _
    (Renaming.related_initial _ sink) Renaming.stands_initial
  rw [ha, hb]
  exact ⟨hend.outcome, congrArg (Sink.since · s.state.sink) hend.sink_eq.symm⟩

/-- A function whose parameter is captured, beside a global variable of the same name. -/
def doubling : String :=
  "var x = \"g\"; fun f(x) \x7b fun g() \x7b return x = x + x; \x7d return g; \x7d print f(x)();"

def doublingTree (x : String) : Program :=
  let word (text : String) : Token := ⟨.identifier, text, none, 1⟩
  let keyword : Token := ⟨.returnWord, "return", none, 1⟩
  let paren : Token := ⟨.rightParen, ")", none, 1⟩
  let sum : Expr := .binary (.use 1 (word x)) ⟨.plus, "+", none, 1⟩ (.use 2 (word x))
  let inner : Stmt := .function (word "g") [] [.ret keyword (some (.assign 3 (word x) sum))]
  [.var (word "x") (some (.literal (.string "g"))),
    .function (word "f") [word x] [inner, .ret keyword (some (.use 4 (word "g")))],
    .print (.call (.call (.use 5 (word "f")) [.use 6 (word "x")] paren) [] paren)]

set_option maxRecDepth 8000 in
theorem run_renamed_doubling :
    let r := (Walk.initial.statements false (doublingTree "x")).depths
    let s := initial .unlimited
    let a := s.run 100 (fun _ => 0) doubling
    let b := s.runProgram 100 (fun _ => 0) (doublingTree "y")
    (∃ r', resolve (doublingTree "y") = .ok r' ∧ ∀ id : UseId, r'[id]? = r[id]?) ∧
      a.1.SameBut "x" "y" b.1 ∧ b.2.printedSince s = a.2.printedSince s := by
  intro r
  -- The parameter, and the body of `f`.
  have hp : Stmt.AllScopeRenamed r "x" "y" (doublingTree "x") (doublingTree "y") :=
    .tail (.head (.hereBody (by decide)))
  exact run_renamed 100 (fun _ => 0) .unlimited (by cbv) (by cbv) hp (by decide)

end Session
end Lox
