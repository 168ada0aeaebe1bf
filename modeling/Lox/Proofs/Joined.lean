import Lox.Proofs.Output
import Lox.Proofs.Requests
import Lox.Proofs.Source.Joined

/-! Sources that are run at once.
Two sources on lines of their own are run as one source in the same way as one after the other
(`run_joined`). -/
namespace Lox

open Blame (Traced Culprit)

theorem runProgram_append (σ : Setting) (budget : Nat) (p q : Program) :
    runProgram σ budget (p ++ q) = runProgram σ budget p >>= fun _ => runProgram σ budget q := by
  induction p with
  | nil => rfl
  | cons s p ih => rw [List.cons_append, runProgram, ih, runProgram, bind_assoc]

/-! ### Resolution -/

theorem usesAll_append (ss us : List Stmt) :
    Stmt.usesAll (ss ++ us) = Stmt.usesAll ss ++ Stmt.usesAll us := by
  induction ss with
  | nil => rfl
  | cons s ss ih => rw [List.cons_append, Stmt.usesAll, ih, Stmt.usesAll, List.append_assoc]

namespace Walk

theorem statements_append (inFunction : Bool) (w : Walk) (ss us : List Stmt) :
    w.statements inFunction (ss ++ us) = (w.statements inFunction ss).statements inFunction us := by
  induction ss generalizing w with
  | nil => rfl
  | cons s ss ih => exact ih (w.statement inFunction s)

theorem settledStatements_append {r : Resolution} {inFunction : Bool} {w : Walk} {ss us : List Stmt}
    (h : w.SettledStatements r inFunction (ss ++ us)) :
    w.SettledStatements r inFunction ss ∧
      (w.statements inFunction ss).SettledStatements r inFunction us := by
  induction ss generalizing w with
  | nil => exact ⟨trivial, h⟩
  | cons s ss ih =>
    obtain ⟨hhead, htail⟩ := h
    obtain ⟨hss, hus⟩ := ih htail
    exact ⟨⟨hhead, hss⟩, hus⟩

theorem scopes_program (p : Program) : (initial.statements false p).scopes = [] :=
  List.length_eq_zero_iff.1 (tail_scopes_statements false initial p).2

end Walk

theorem Side.Covers.append {a : Side} {w : Walk} {p q : Program} (h : a.Covers w (p ++ q)) :
    a.Covers w p ∧ a.Covers (w.statements false p) q := by
  obtain ⟨hp, hq⟩ := Walk.settledStatements_append h.settled
  have hknown := h.known
  rw [Program.uses, usesAll_append] at hknown
  exact ⟨⟨hp, fun id hid => hknown id (List.mem_append_left _ hid)⟩,
    ⟨hq, fun id hid => hknown id (List.mem_append_right _ hid)⟩⟩

theorem resolve_eq_ok {p : Program} :
    (∃ new, resolve p = .ok new) ↔ (Walk.initial.statements false p).errors = [] := by
  unfold resolve
  dsimp only
  cases (Walk.initial.statements false p).errors with
  | nil => simp
  | cons e es => simp

theorem errors_eq_nil_of_twin {L : Likeness} (hL : L.Lawful) {w : Walk} {p p' : Program}
    (hscopes : w.scopes = []) (herrors : w.errors = []) (hp : ∃ new, resolve p = .ok new)
    (h : Stmt.AllTwin L p p') : (w.statements false p').errors = [] := by
  have hwalk : Walk.Alike L.token .initial w := ⟨hscopes, herrors ▸ .nil⟩
  have hsame : List.Forall₂ (SyntaxError.Alike L.token) (Walk.initial.statements false p).errors
      (w.statements false p').errors := (h.walk hL hwalk).errors
  rw [resolve_eq_ok.1 hp] at hsame
  exact List.forall₂_nil_left_iff.1 hsame

/-! ### Sources that compile -/

def compiles (source : String) : Bool :=
  match (compile source .initial).1 with
  | .error _ => false
  | .ok p => (resolve p).isOk

theorem compiles_iff {source : String} :
    compiles source ↔ ∃ p new, (compile source .initial).1 = .ok p ∧ resolve p = .ok new := by
  unfold compiles
  cases (compile source .initial).1 with
  | error errors => simp
  | ok p => cases h : resolve p <;> simp [h, Except.isOk, Except.toBool]

/-- Whether a source compiles does not depend on the ids that are free. -/
theorem resolves_of_resolves {source : String} {ids : IdSupply}
    (h : ∃ p new, (compile source ids).1 = .ok p ∧ resolve p = .ok new) (ids' : IdSupply) :
    ∃ p new, (compile source ids').1 = .ok p ∧ resolve p = .ok new := by
  obtain ⟨p, new, hp, hnew⟩ := h
  rcases compile_alike source ids ids' with ⟨errors, hc, -⟩ | ⟨p, p', hc, hc', htwin⟩
  · rw [hp] at hc
    cases hc
  · rw [hp] at hc
    cases hc
    have herrors := errors_eq_nil_of_twin (w := .initial) (Session.lawfulTokens_eq.likeness 0) rfl rfl
      ⟨new, hnew⟩ htwin
    obtain ⟨new', hnew'⟩ := resolve_eq_ok.2 herrors
    exact ⟨p', new', hc', hnew'⟩

/-- Two sources that compile do so at once: their programs are one after the other, and the second is
moved down. -/
theorem resolves_joined {a b : String} {ids ids' : IdSupply} {p q : Program}
    (hp : (compile a ids).1 = .ok p) (hq : (compile b ids').1 = .ok q)
    (hnew : ∃ new, resolve p = .ok new) (hnew' : ∃ new, resolve q = .ok new) (ids'' : IdSupply) :
    ∃ p' q' both, (compile (a ++ "\n" ++ b) ids'').1 = .ok (p' ++ q') ∧ resolve (p' ++ q') = .ok both ∧
      (Walk.initial.statements false p').errors = [] ∧
      Stmt.AllTwin ⟨False, Eq, fun _ _ => True⟩ p p' ∧
      Stmt.AllTwin ⟨False, fun t t' => t' = t.below (.ofNat (newlines a + 1)), fun _ _ => True⟩ q q' := by
  obtain ⟨p', q', hboth, htwin, htwin'⟩ := compile_joined hp hq ids''
  have herrors := errors_eq_nil_of_twin (w := .initial) (Session.lawfulTokens_eq.likeness 0) rfl rfl
    hnew htwin
  have hL : Likeness.Lawful
      ⟨False, fun t t' => t' = t.below (.ofNat (newlines a + 1)), fun _ _ => True⟩ :=
    ⟨fun _ _ h => h ▸ rfl, fun _ _ h => h ▸ rfl⟩
  have herrors' := errors_eq_nil_of_twin hL (Walk.scopes_program p') herrors hnew' htwin'
  rw [← Walk.statements_append] at herrors'
  obtain ⟨both, hresolve⟩ := resolve_eq_ok.2 herrors'
  exact ⟨p', q', both, hboth, hresolve, herrors, htwin, htwin'⟩

/-! ### Runs -/

/-- Tokens of program 1 are so many lines further down, and others stay in place. -/
def Lowered (k : UInt32) (program : Nat) (t t' : Token) : Prop :=
  t' = if program = 1 then t.below k else t

theorem lawfulTokens_lowered (k : UInt32) : LawfulTokens (Lowered k) where
  kind program t t' h := by
    rw [h]
    split <;> rfl
  lexeme program t t' h := by
    rw [h]
    split <;> rfl

def RuntimeError.below (k : UInt32) : RuntimeError → RuntimeError
  | fault line cause => fault (line + k) cause
  | @output words => @output words

def Outcome.below (k : UInt32) : Outcome → Outcome
  | ok => ok
  | refused errors => refused (errors.map (SyntaxError.below k))
  | failed e => failed (e.below k)
  | unfinished => unfinished

namespace Pairing

variable {B : Pairing} {r : Result Traced Unit} {r' : Result State Unit}

theorem SameEnd.named (h : B.SameEnd B.Named r r') {line : UInt32} {cause : RuntimeFault}
    (hr : r.outcome = .failed (.fault line cause)) :
    ∃ c token, r.state.culprit = some c ∧ c.expr.mark? = some token ∧ token.line = line := by
  cases h with
  | @fault _ _ _ s _ _ hnamed =>
    cases hr
    change ∃ c token, s.culprit = some c ∧ _
    generalize s.culprit = culprit at hnamed ⊢
    cases hnamed with
    | culprit c mark alike => exact ⟨c, _, rfl, mark, rfl⟩
  | done => cases hr
  | output => cases hr
  | unfinished => cases hr

/-- The line of a fault is moved down if the culprit stands in program 1. -/
theorem SameEnd.outcome_lowered {k : UInt32} (htoken : B.token = Lowered k)
    (h : B.SameEnd B.Named r r') : r'.outcome =
      if r.state.culprit.map Culprit.program = some 1 then r.outcome.below k else r.outcome := by
  cases h with
  | @fault cause _ _ s _ _ hnamed =>
    change _ = if s.culprit.map Culprit.program = some 1 then _ else _
    generalize s.culprit = culprit at hnamed ⊢
    cases hnamed with
    | @culprit c token token' mark alike =>
      rw [htoken] at alike
      rw [alike, Option.map_some]
      by_cases hprogram : c.program = 1
      · rw [if_pos hprogram, if_pos (congrArg some hprogram)]
        rfl
      · rw [if_neg hprogram, if_neg (hprogram ∘ Option.some.inj)]
        rfl
  | done | output | unfinished => exact (ite_self _).symm

end Pairing

namespace Session

/-- Sessions that differ at most in ids, in tables and in the bodies of their functions. -/
structure Same (s t : Session) : Prop where
  environments : s.state.store.environments = t.state.store.environments
  functions : s.state.store.functions.size = t.state.store.functions.size
  sink : s.state.sink = t.state.sink
  ticks : s.state.ticks = t.state.ticks
  hadError : s.hadError = t.hadError
  hadRuntimeError : s.hadRuntimeError = t.hadRuntimeError

/-- A program run as program 1 in a session. Functions declared earlier belong to program 0. -/
def trace (budget : Nat) (clock : Nat → Float) (s : Session) (new : Resolution) (p : Program) :
    Result Traced Unit :=
  Blame.runProgram ⟨s.resolution.extend new, clock⟩ budget 1 p ⟨s.state, fun _ => 0, none⟩

/-- What is to blame if a source fails in a session. The source is program 1, and functions declared
earlier belong to program 0. -/
def culprit (budget : Nat) (clock : Nat → Float) (s : Session) (source : String) : Option Culprit :=
  match (compile source s.ids).1 with
  | .error _ => none
  | .ok p =>
    match resolve p with
    | .error _ => none
    | .ok new => (s.trace budget clock new p).state.culprit

/-- How sources are run at once (`z`), from a run of the first (`x`) and then of the second (`y`), which is
to be moved down so many lines. -/
inductive Joins (k : UInt32) (culprit : Option Culprit) (s : Session) (x y z : Outcome × Session) : Prop
  /-- If the first fails, nothing of the second is executed. -/
  | failed (e : RuntimeError) (first : x.1 = .failed e) (outcome : z.1 = .failed e)
    (same : x.2.Same z.2) (text : z.2.printedSince s = x.2.printedSince s)
  | unfinished (first : x.1 = .unfinished) (outcome : z.1 = .unfinished)
  /-- The line of an error is moved down if the failing token belongs to the second. -/
  | ok (first : x.1 = .ok)
    (outcome : z.1 = if culprit.map Culprit.program = some 1 then y.1.below k else y.1)
    (named : ∀ line cause, y.1 = .failed (.fault line cause) →
      ∃ c token, culprit = some c ∧ c.expr.mark? = some token ∧ token.line = line)
    (same : y.2.Same z.2) (text : z.2.printedSince s = x.2.printedSince s ++ y.2.printedSince x.2)

variable {budget : Nat} {clock : Nat → Float} {s : Session} {k : UInt32}
variable {p q p' q' : Program} {new new' both : Resolution} {ids ids' ids'' : IdSupply}

/-- The first program is run as it is run alone. -/
theorem Linked.agrees_first (h : Linked s s) (hs : s.Accepts p new ids)
    (hboth : s.Accepts (p' ++ q') both ids'')
    (htwin : Stmt.AllTwin ⟨False, Eq, fun _ _ => True⟩ p p') (budget : Nat) (clock : Nat → Float) :
    let a : Side := ⟨s.resolution.extend new, Handed ids⟩
    let b : Side := ⟨s.resolution.extend both, Handed ids''⟩
    ∃ u, u.map Observed.state = Lox.runProgram ⟨a.table, clock⟩ budget p s.state ∧
      (a.pairing b False fun _ => Eq).SameEnd (a.pairing b False fun _ => Eq).Named u
        (Lox.runProgram ⟨b.table, clock⟩ budget p' s.state) := by
  obtain ⟨origin, hrel⟩ := h.related
  intro a b
  have hcovers : b.Covers .initial p' := (hboth.covers h.left).append.1
  have hrel' : (a.pairing b False fun _ => Eq).Related ⟨s.state, origin, none⟩ s.state :=
    hrel.extend hs.grows hboth.grows id fun _ _ _ h => h
  exact ⟨Blame.runProgram ⟨a.table, clock⟩ budget 0 p ⟨s.state, origin, none⟩,
    Blame.observer.runProgram_erases _ budget p 0 _,
    agrees_of_covers lawfulTokens_eq clock budget ⟨rfl, .nil⟩ (hs.covers h.left) hcovers htwin _ _
      hrel' rfl⟩

/-- The second program is run as it is run alone, but moved down. -/
theorem Accepts.agrees_second (budget : Nat) (clock : Nat → Float) {b : Side} {w : Walk}
    {origin : FunctionId → Nat} {t : State} (hs : s.Accepts q new ids) (hfresh : s.Fresh)
    (hrel : (s.side.pairing b False fun _ => Eq).Related ⟨s.state, origin, none⟩ t)
    (hb : b.Covers w q') (hscopes : w.scopes = []) (herrors : w.errors = [])
    (htwin : Stmt.AllTwin ⟨False, fun t t' => t' = t.below k, fun _ _ => True⟩ q q') :
    let a : Side := ⟨s.resolution.extend new, Handed ids⟩
    (a.pairing b False (Lowered k)).SameEnd (a.pairing b False (Lowered k)).Named
      (s.trace budget clock new q) (Lox.runProgram ⟨b.table, clock⟩ budget q' t) := by
  intro a
  have hwalk : Walk.Alike (Lowered k 1) .initial w := ⟨hscopes, herrors ▸ .nil⟩
  have hlowered : Stmt.AllTwin ⟨False, Lowered k 1, fun _ _ => True⟩ q q' :=
    htwin.mono ⟨id, fun _ _ h => h, fun _ _ h => h⟩
  have hrel' : (a.pairing b False (Lowered k)).Related ⟨s.state, fun _ => 0, none⟩ t :=
    hrel.extend hs.grows (.refl b) id fun _ _ _ h => h.symm
  exact agrees_of_covers (lawfulTokens_lowered k) clock budget hwalk (hs.covers hfresh) hb hlowered
    _ _ hrel' rfl

theorem execute_eq_trace : { s with ids }.execute budget clock new p =
    s.ended ids (s.resolution.extend new) ((s.trace budget clock new p).map Observed.state) := by
  rw [execute_eq, trace, Blame.observer.runProgram_erases _ budget p 1]

theorem extends_execute (budget : Nat) (clock : Nat → Float) (ids : IdSupply) (new : Resolution)
    (p : Program) :
    s.state.sink.Extends ({ s with ids }.execute budget clock new p).2.state.sink := by
  rw [execute_eq]
  exact runProgram_appends _ budget p s.state

/-- Runs that end alike leave sessions that show no difference. -/
theorem same_ended {B : Pairing} {E : Option Culprit → UInt32 → UInt32 → Prop} {t : Session}
    {r : Result Traced Unit} {r' : Result State Unit} {table table' : Resolution}
    (h : B.SameEnd E r r') (herror : s.hadError = t.hadError)
    (hruntime : s.hadRuntimeError = t.hadRuntimeError) :
    (s.ended ids table (r.map Observed.state)).2.Same (t.ended ids' table' r').2 := by
  have hrel := h.related_state
  unfold ended
  rw [Result.state_map, Result.fails_map, h.fails_eq, hruntime]
  exact ⟨hrel.environments, hrel.count, hrel.sink, hrel.ticks, herror, rfl⟩

/-- If a program fails as it fails alone, nothing of the next one is executed. -/
theorem Joins.of_failed {B : Pairing} {culprit : Option Culprit} {x y z : Outcome × Session}
    {e : RuntimeError} {u : Traced} {t : State} {table table' : Resolution}
    (h : B.SameEnd B.Named (.failed e u : Result Traced Unit) (.failed e t))
    (hx : s.ended ids table (.failed e u.state) = x) (hz : s.ended ids'' table' (.failed e t) = z) :
    Joins k culprit s x y z := by
  have hsame : x.2.Same z.2 := by
    rw [← hx, ← hz]
    exact same_ended h rfl rfl
  apply Joins.failed e _ _ hsame
  · rw [printedSince, printedSince, hsame.sink]
  · rw [← hx]
    rfl
  · rw [← hz]
    rfl

/-- Programs that are run at once are run one after the other. -/
theorem Linked.execute_joined (h : Linked s s) (hs : s.Accepts p new ids)
    (hboth : s.Accepts (p' ++ q') both ids'')
    (herrors : (Walk.initial.statements false p').errors = [])
    (htwin : Stmt.AllTwin ⟨False, Eq, fun _ _ => True⟩ p p')
    (htwin' : Stmt.AllTwin ⟨False, fun t t' => t' = t.below k, fun _ _ => True⟩ q q')
    {x y z : Outcome × Session} (hx : { s with ids }.execute budget clock new p = x)
    (hnext : x.2.Accepts q new' ids')
    (hy : { x.2 with ids := ids' }.execute budget clock new' q = y)
    (hz : { s with ids := ids'' }.execute budget clock both (p' ++ q') = z) :
    Joins k (x.2.trace budget clock new' q).state.culprit s x y z := by
  have hsx : s.state.sink.Extends x.2.state.sink := hx ▸ extends_execute budget clock ids new p
  have hxy : x.2.state.sink.Extends y.2.state.sink := hy ▸ extends_execute budget clock ids' new' q
  obtain ⟨u, herase, hend⟩ := h.agrees_first hs hboth htwin budget clock
  dsimp only at herase hend
  rw [execute_eq, ← herase] at hx
  rw [execute_eq_trace] at hy
  rw [execute_eq, runProgram_append] at hz
  generalize hv : Lox.runProgram ⟨s.resolution.extend both, clock⟩ budget p' s.state = v at hend
  cases hend with
  | @done _ s' t hrel _ =>
    rw [Computation.bind_done hv] at hz
    have hfresh : x.2.Fresh := by
      rw [← hx]
      exact hs.fresh h.left
    obtain ⟨hside, hstate⟩ :
        x.2.side = ⟨s.resolution.extend new, Handed ids⟩ ∧ x.2.state = s'.state := by
      rw [← hx]
      exact ⟨rfl, rfl⟩
    have hend := hnext.agrees_second budget clock hfresh (hside ▸ hstate ▸ hrel.innocent)
      (hboth.covers h.left).append.2 (Walk.scopes_program p') herrors htwin'
    dsimp only at hend
    have hsame : y.2.Same z.2 := by
      rw [← hy, ← hz]
      apply same_ended hend
      · rw [← hx]
        rfl
      · rw [← hx]
        rfl
    have htext : z.2.printedSince s = x.2.printedSince s ++ y.2.printedSince x.2 := by
      unfold printedSince
      rw [← hsame.sink, hsx.since_append hxy]
    apply Joins.ok (by rw [← hx]; rfl) _ _ hsame htext
    · rw [← hy, ← hz, ended, ended, Result.outcome_map]
      exact hend.outcome_lowered rfl
    · intro line cause hfault
      rw [← hy] at hfault
      exact hend.named ((Result.outcome_map ..).symm.trans hfault)
  | @fault cause line line' s' t hrel hnamed =>
    obtain rfl : line = line' := hnamed.line_eq rfl
    rw [Computation.bind_failed hv] at hz
    exact .of_failed (.fault cause hrel hnamed) hx hz
  | output hrel =>
    rw [Computation.bind_failed hv] at hz
    exact .of_failed (.output hrel) hx hz
  | unfinished hrel =>
    rw [Computation.bind_unfinished hv] at hz
    exact .unfinished (hx ▸ rfl) (hz ▸ rfl)

/-- As long as there are ids, a session stays linked to itself. -/
theorem Linked.after (budget : Nat) (clock : Nat → Float) (requests : List Request) (h : Linked s s)
    (hids : s.ids.handed + demand (requests.flatMap Request.tokens) < UInt32.size) :
    Linked (s.after budget clock requests) (s.after budget clock requests) ∧
      (s.after budget clock requests).ids.handed ≤
        s.ids.handed + demand (requests.flatMap Request.tokens) := by
  induction requests generalizing s with
  | nil => exact ⟨h, Nat.le_refl _⟩
  | cons request requests ih =>
    rw [List.flatMap_cons, demand_append] at hids ⊢
    have hle := (handed_answer budget clock s request).2
    have hroom : (s.answer budget clock request).2.ids.handed ≤ UInt32.size := by omega
    obtain ⟨hlinked, hbound⟩ := ih (h.answer budget clock hroom hroom).2 (by omega)
    exact ⟨hlinked, Nat.le_trans hbound (by omega)⟩

theorem culprit_eq {source : String} (hp : (compile source s.ids).1 = .ok p)
    (hnew : resolve p = .ok new) :
    s.culprit budget clock source = (s.trace budget clock new p).state.culprit := by
  rw [culprit, hp]
  dsimp only
  rw [hnew]

theorem Linked.joins (h : Linked s s) (budget : Nat) (clock : Nat → Float) {a b : String}
    (ha : compiles a) (hb : compiles b)
    (hids : s.ids.handed + demand (scan a).tokens + demand (scan b).tokens < UInt32.size) :
    let x := s.run budget clock a
    compiles (a ++ "\n" ++ b) ∧
      Joins (.ofNat (newlines a + 1)) (x.2.culprit budget clock b) s x (x.2.run budget clock b)
        (s.run budget clock (a ++ "\n" ++ b)) := by
  intro x
  have hcompile (source : String) (ids : IdSupply) :
      (compile source ids).2.handed ≤ ids.handed + demand (scan source).tokens :=
    (numbers_of_parse (scan source).tokens ids).1
  have hle : x.2.ids.handed ≤ s.ids.handed + demand (scan a).tokens :=
    (handed_answer budget clock s (.run a)).2
  obtain ⟨p, new, hp, hnew⟩ := resolves_of_resolves (compiles_iff.1 ha) s.ids
  obtain ⟨q, new', hq, hnew'⟩ := resolves_of_resolves (compiles_iff.1 hb) x.2.ids
  obtain ⟨p', q', both, hpq, hboth, herrors, htwin, htwin'⟩ :=
    resolves_joined hp hq ⟨new, hnew⟩ ⟨new', hnew'⟩ s.ids
  have hs : s.Accepts p new (compile a s.ids).2 := 
    .of_compile (Prod.ext hp rfl) (Nat.le_trans (hcompile a _) (by omega)) hnew
  have hx : x.2.Accepts q new' (compile b x.2.ids).2 :=
    .of_compile (Prod.ext hq rfl) (Nat.le_trans (hcompile b _) (by omega)) hnew'
  have hs' : s.Accepts (p' ++ q') both (compile (a ++ "\n" ++ b) s.ids).2 := by
    refine .of_compile (Prod.ext hpq rfl) (Nat.le_trans (hcompile _ _) ?_) hboth
    rw [demand_joined hp]
    omega
  constructor
  · exact compiles_iff.2 (resolves_of_resolves ⟨p' ++ q', both, hpq, hboth⟩ .initial)
  · rw [culprit_eq hq hnew']
    exact h.execute_joined hs hs' herrors htwin htwin' (run_of_resolved hp hnew).symm hx
      (run_of_resolved hq hnew').symm (run_of_resolved hpq hboth).symm

/-- Splitting a source over runs does not change what it does. In any session, as long as there are ids
for all uses of names, two sources that compile do so on lines of their own in one source. It is run as
the first source and then, if that ends well, the second: the same text is printed, and it ends in the
same way, except that a failing token of the second source stands further down. -/
theorem run_joined (budget : Nat) (clock : Nat → Float) (sink : Sink) (requests : List Request)
    {a b : String} (ha : compiles a) (hb : compiles b)
    (hids : demand (requests.flatMap Request.tokens) + demand (scan a).tokens +
      demand (scan b).tokens < UInt32.size) :
    let s := (initial sink).after budget clock requests
    let x := s.run budget clock a
    let y := x.2.run budget clock b
    let z := s.run budget clock (a ++ "\n" ++ b)
    compiles (a ++ "\n" ++ b) ∧
      Joins (.ofNat (newlines a + 1)) (x.2.culprit budget clock b) s x y z := by
  have hzero : (initial sink).ids.handed = 0 := rfl
  obtain ⟨hlinked, hbound⟩ := (linked_initial sink).after budget clock requests (by omega)
  exact hlinked.joins budget clock ha hb (by omega)

/-- A function that prints and then negates, with a comment at the end. -/
def negating : String := "fun f(x) \x7b print x;\nprint -x; \x7d // f"

/-- A call that fails in the function, whose line is kept. -/
def negated : String := "\nf(nil);"

set_option maxRecDepth 8000 in
theorem run_joined_negated :
    let s := (initial .unlimited).after 100 (fun _ => 0) [.run "var x;", .tree "x", .reset]
    let x := s.run 100 (fun _ => 0) negating
    let y := x.2.run 100 (fun _ => 0) negated
    let z := s.run 100 (fun _ => 0) (negating ++ "\n" ++ negated)
    compiles (negating ++ "\n" ++ negated) ∧
      Joins (.ofNat (newlines negating + 1)) (x.2.culprit 100 (fun _ => 0) negated) s x y z :=
  run_joined 100 (fun _ => 0) .unlimited [.run "var x;", .tree "x", .reset] (by cbv) (by cbv)
    (by decide +kernel)

end Session
end Lox
