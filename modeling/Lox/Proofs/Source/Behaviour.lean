import Lox.Proofs.Source.RoundTrip
import Lox.Proofs.Twin.Session
import Lox.Proofs.Twin.Stripped

/-! The behaviour of printed programs.
A program that is printed and parsed again has other groups, lines and ids. It still has the same
resolution errors, prints the same and ends in the same way, lines aside (`run_source`). -/
namespace Lox

open Blame (Traced Culprit)

def SyntaxError.lineless (e : SyntaxError) : SyntaxError := { e with line := 0 }

def RuntimeError.lineless : RuntimeError → RuntimeError
  | fault _ cause => fault 0 cause
  | @output words => @output words

def Outcome.lineless : Outcome → Outcome
  | ok => ok
  | refused errors => refused (errors.map SyntaxError.lineless)
  | failed e => failed e.lineless
  | unfinished => unfinished

theorem lawfulTokens_stripped : LawfulTokens fun _ => strippedLikeness.token where
  kind _ _ _ h := (congrArg Token.kind h).symm
  lexeme _ _ _ h := (congrArg Token.lexeme h).symm

theorem map_lineless_eq {es es' : List SyntaxError}
    (h : List.Forall₂ (SyntaxError.Alike strippedLikeness.token) es es') :
    es.map SyntaxError.lineless = es'.map SyntaxError.lineless := by
  induction h with
  | nil => rfl
  | cons he _ ih =>
    cases he with
    | @atToken t t' fault alike =>
      obtain ⟨hkind, hlexeme⟩ := Token.eq_of_stripped alike
      rw [List.map_cons, List.map_cons, ih, SyntaxError.lineless, SyntaxError.lineless,
        SyntaxError.atToken, SyntaxError.atToken, hkind, hlexeme]

theorem demand_scan {source : String} {ids : IdSupply} {p : Program}
    (h : (compile source ids).1 = .ok p) : demand (scan source).tokens = p.anonymous.demand := by
  obtain ⟨d, htokens, htree⟩ := Concrete.exists_of_parse (compile_eq_ok_iff.1 h).2
  have hend : demand [.atEnd (lastLine 1 (pieces source.toList))] = 0 := rfl
  rw [← htree, ← d.demand_tokens, htokens, beforeEnd_scan, scan_tokens, demand_append, hend, Nat.add_zero]

/-- Sources that differ in groups and layout only demand equally many ids. -/
theorem demand_scan_eq {source source' : String} {ids ids' : IdSupply} {p q : Program}
    (h : (compile source ids).1 = .ok p) (h' : (compile source' ids').1 = .ok q)
    (hstripped : q.stripped = p.stripped) :
    demand (scan source').tokens = demand (scan source).tokens := by
  rw [demand_scan h, demand_scan h']
  refine (Stmt.allTwin_of_stripped _ _ ?_).demand_eq
  exact (q.stripped_anonymous.trans hstripped).trans p.stripped_anonymous.symm

theorem Pairing.SameEnd.outcome_lineless {B : Pairing} {E : Option Culprit → UInt32 → UInt32 → Prop}
    {r : Result Traced Unit} {r' : Result State Unit} (h : B.SameEnd E r r') :
    r.outcome.lineless = r'.outcome.lineless := by
  cases h <;> rfl

theorem Session.Accepts.execute_lineless {s t : Session} {p q : Program} {new new' : Resolution}
    {ids ids' : IdSupply} (hs : s.Accepts p new ids) (ht : t.Accepts q new' ids') (hs' : s.Fresh)
    (ht' : t.Fresh) {origin : FunctionId → Nat}
    (hrel : (s.side.pairing t.side True fun _ => strippedLikeness.token).Related
      ⟨s.state, origin, none⟩ t.state)
    (htwin : Stmt.AllTwin strippedLikeness p q) (budget : Nat) (clock : Nat → Float) :
    let x := { s with ids }.execute budget clock new p
    let y := { t with ids := ids' }.execute budget clock new' q
    x.1.lineless = y.1.lineless ∧ x.2.state.sink = y.2.state.sink := by
  obtain ⟨u, herase, hend⟩ := hs.runs_alike ht hs' ht' lawfulTokens_stripped hrel 0 htwin budget clock
  intro x y
  have hx : x = s.ended ids (s.resolution.extend new) (u.map Observed.state) := by
    rw [herase]
    exact execute_eq
  rw [hx, show y = _ from execute_eq, ended, Result.outcome_map, Result.state_map]
  exact ⟨hend.outcome_lineless, hend.related_state.sink⟩

theorem Session.run_lineless {s : Session} {source source' : String} {p q : Program} (hs : s.Fresh)
    {origin : FunctionId → Nat}
    (hrel : (s.side.pairing s.side True fun _ => strippedLikeness.token).Related
      ⟨s.state, origin, none⟩ s.state)
    (hp : (compile source s.ids).1 = .ok p) (hq : (compile source' s.ids).1 = .ok q)
    (hstripped : q.stripped = p.stripped)
    (hb : s.ids.handed + demand (scan source).tokens < UInt32.size)
    (budget : Nat) (clock : Nat → Float) :
    (s.run budget clock source).1.lineless = (s.run budget clock source').1.lineless ∧
      (s.run budget clock source).2.state.sink = (s.run budget clock source').2.state.sink := by
  have htwin : Stmt.AllTwin strippedLikeness p q := Stmt.allTwin_of_stripped p q hstripped.symm
  have hresolve := resolve_alike (lawfulTokens_stripped.likeness 0) htwin
  generalize hr : resolve p = x, hr' : resolve q = x' at hresolve
  cases hresolve with
  | ok new new' =>
    rw [run_of_resolved hp hr, run_of_resolved hq hr']
    have hb' : s.ids.handed + demand (scan source').tokens < UInt32.size := by
      rwa [demand_scan_eq hp hq hstripped]
    have hle := (numbers_of_parse (scan source).tokens s.ids).1
    have hle' := (numbers_of_parse (scan source').tokens s.ids).1
    rw [← compile_ids] at hle hle'
    have hroom : (compile source s.ids).2.handed ≤ UInt32.size := by omega
    have hroom' : (compile source' s.ids).2.handed ≤ UInt32.size := by omega
    have haccepts := Accepts.of_compile (Prod.ext hp rfl) hroom hr
    have haccepts' := Accepts.of_compile (Prod.ext hq rfl) hroom' hr'
    exact haccepts.execute_lineless haccepts' hs hs hrel htwin budget clock
  | error alike =>
    rw [run_of_unresolved hp hr, run_of_unresolved hq hr']
    exact ⟨congrArg Outcome.refused (map_lineless_eq alike), rfl⟩

/-- The printed text of a program that is compiled from any source behaves as the source does, as long as
there are ids for all uses of names: the resolver finds the same errors, lines aside, and nothing is
printed; or the same text is printed and the run ends in the same way, lines aside. -/
theorem run_source {source : String} {ids : IdSupply} {p : Program}
    (hc : (compile source ids).1 = .ok p) (hids : demand (scan source).tokens < UInt32.size)
    (budget : Nat) (clock : Nat → Float) (sink : Sink) :
    let s := Session.initial sink
    let x := s.run budget clock source
    let y := s.run budget clock p.source
    x.1.lineless = y.1.lineless ∧ x.2.printedSince s = y.2.printedSince s ∧
      ∀ errors, x.1 = .refused errors → x.2.printedSince s = "" := by
  obtain ⟨p₀, hp₀⟩ : ∃ p₀, (compile source .initial).1 = .ok p₀ := by
    rcases compile_alike source ids .initial with ⟨errors, he, -⟩ | ⟨_, p₀, -, hp₀, -⟩
    · rw [hc] at he
      cases he
    · exact ⟨p₀, hp₀⟩
  obtain ⟨q, hq, hstripped, -⟩ := compile_source hp₀ .initial
  have hsource : p₀.source = p.source := by
    rw [← p.source_anonymous, anonymous_eq_of_compile hc hp₀, p₀.source_anonymous]
  rw [hsource] at hq
  have hb : IdSupply.initial.handed + demand (scan source).tokens < UInt32.size := by
    show 0 + _ < _
    rwa [Nat.zero_add]
  obtain ⟨houtcome, hsink⟩ := Session.run_lineless (Session.fresh_initial sink)
    (Session.related_initial _ sink fun _ => 0) hp₀ hq hstripped hb budget clock
  refine ⟨houtcome, congrArg (Sink.since · sink) hsink, fun errors h => ?_⟩
  rw [Session.state_of_refused h]
  exact Session.since_self sink

/-- A loop in a function that fails on another line than in its printed text. -/
def failingSource : String := "fun f() \x7b for (;; f = (f)) print (-f); \x7d\n\nf();"

set_option maxRecDepth 8000 in
theorem run_source_failing : ∃ p, (compile failingSource .initial).1 = .ok p ∧
    let s := Session.initial .unlimited
    let x := s.run 100 (fun _ => 0) failingSource
    let y := s.run 100 (fun _ => 0) p.source
    x.1.lineless = y.1.lineless ∧ x.2.printedSince s = y.2.printedSince s ∧
      ∀ errors, x.1 = .refused errors → x.2.printedSince s = "" := by
  have hok : (compile failingSource .initial).1.toBool = true := by cbv
  have hids : demand (scan failingSource).tokens < UInt32.size := by decide +kernel
  cases hp : (compile failingSource .initial).1 with
  | error errors =>
    rw [hp] at hok
    cases hok
  | ok p => exact ⟨p, rfl, run_source hp hids 100 (fun _ => 0) .unlimited⟩

end Lox
