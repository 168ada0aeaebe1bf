import Lox.Proofs.Joined

/-! Layout.
Sources whose tokens differ in their lines only are refused for the same reasons, or run alike. Errors are
reported at the same tokens, each on its own line (`run_layout`). -/
namespace Lox

open Blame (Traced Culprit)

def SamePosition (ts ts' : List Token) (t t' : Token) : Prop :=
  ∃ i : Nat, ts[i]? = some t ∧ ts'[i]? = some t'

/-! ### Alike token lists -/

section

variable {R : Token → Token → Prop} (hkind : ∀ t t', R t t' → t'.kind = t.kind) {ts ts' : List Token}
include hkind

theorem forall₂_beforeEnd (h : List.Forall₂ R ts ts') :
    List.Forall₂ R (ts.takeWhile (·.kind ≠ .eof)) (ts'.takeWhile (·.kind ≠ .eof)) := by
  induction h with
  | nil => exact .nil
  | @cons t t' ts ts' ht _ ih =>
    rw [List.takeWhile_cons, List.takeWhile_cons, hkind t t' ht]
    split
    · exact .cons ht ih
    · exact .nil

theorem alike_endOf (h : List.Forall₂ R ts ts') (hend : ∃ t ∈ ts, t.kind = .eof) :
    R (endOf ts) (endOf ts') := by
  have hfind : Option.Rel R (ts.find? (·.kind = .eof)) (ts'.find? (·.kind = .eof)) := by
    clear hend
    induction h with
    | nil => exact .none
    | @cons t t' ts ts' ht _ ih =>
      rw [List.find?_cons, List.find?_cons, hkind t t' ht]
      split
      · exact .some ht
      · exact ih
  obtain ⟨t, ht, hkind⟩ := hend
  have hsome : (ts.find? (·.kind = .eof)).isSome := List.find?_isSome.2 ⟨t, ht, decide_eq_true hkind⟩
  obtain ⟨u, hu⟩ := Option.isSome_iff_exists.1 hsome
  unfold endOf
  rw [hu] at hfind ⊢
  generalize ts'.find? _ = v at hfind ⊢
  cases hfind with
  | some halike => exact halike

end

theorem forall₂_samePosition {ts ts' : List Token} (h : ts.length = ts'.length) :
    List.Forall₂ (SamePosition ts ts') ts ts' :=
  List.forall₂_iff_get.2 ⟨h, fun i hi hi' => ⟨i, List.getElem?_eq_getElem hi,
    List.getElem?_eq_getElem hi'⟩⟩

theorem SamePosition.stripped_eq {ts ts' : List Token}
    (h : ts.map Token.stripped = ts'.map Token.stripped) {t t' : Token}
    (ht : SamePosition ts ts' t t') : t'.stripped = t.stripped := by
  obtain ⟨i, hi, hi'⟩ := ht
  have heq : (ts.map Token.stripped)[i]? = (ts'.map Token.stripped)[i]? := congrArg (·[i]?) h
  rw [List.getElem?_map, List.getElem?_map, hi, hi'] at heq
  exact (Option.some.inj heq).symm

/-! ### Compilation -/

section

variable {ts ts' : List Token} (hstripped : ts.map Token.stripped = ts'.map Token.stripped)
include hstripped

theorem SamePosition.kind_eq {t t' : Token} (h : SamePosition ts ts' t t') : t'.kind = t.kind :=
  (congrArg Token.kind (h.stripped_eq hstripped) :)

theorem SamePosition.lexeme_eq {t t' : Token} (h : SamePosition ts ts' t t') : t'.lexeme = t.lexeme :=
  (congrArg Token.lexeme (h.stripped_eq hstripped) :)

theorem SamePosition.literal_eq {t t' : Token} (h : SamePosition ts ts' t t') :
    t'.literal = t.literal :=
  (congrArg Token.literal (h.stripped_eq hstripped) :)

/-- Tokens that differ in their lines only are parsed alike, with the same ids. -/
theorem parse_samePosition (hend : ∃ t ∈ ts, t.kind = .eof) (ids : IdSupply) :
    SameParse ⟨False, SamePosition ts ts', Eq⟩ (parse ts ids).1 (parse ts' ids).1 := by
  have hkind (t t' : Token) (h : SamePosition ts ts' t t') : t'.kind = t.kind := h.kind_eq hstripped
  have halike : List.Forall₂ (SamePosition ts ts') ts ts' :=
    forall₂_samePosition (by simpa using congrArg List.length hstripped)
  exact (parse_alike Eq (fun _ _ h => h ▸ rfl) hkind (fun _ _ h => h.literal_eq hstripped)
    (fun _ _ h => h ▸ rfl) (forall₂_beforeEnd hkind halike) (alike_endOf hkind halike hend) rfl).1

end

section

variable {a b : String} (ha : (scan a).errors = []) (hb : (scan b).errors = [])
variable (hsame : (scan a).tokens.map Token.stripped = (scan b).tokens.map Token.stripped)
include ha hb hsame

theorem compile_layout (ids : IdSupply) :
    SameParse ⟨False, SamePosition (scan a).tokens (scan b).tokens, Eq⟩ (compile a ids).1
      (compile b ids).1 := by
  have hend : (Token.atEnd (lastLine 1 (pieces a.toList))) ∈ (scan a).tokens := by
    rw [scan_tokens]
    exact List.mem_append_right _ List.mem_cons_self
  have hparse := parse_samePosition hsame ⟨_, hend, rfl⟩ ids
  unfold compile
  dsimp only
  rw [ha, hb]
  generalize (parse (scan a).tokens ids).1 = x, (parse (scan b).tokens ids).1 = y at hparse ⊢
  cases hparse with
  | ok twin => exact .ok twin
  | error alike => exact .error alike

end

/-! ### Runs -/

/-- Tokens of program 1 stand at the same position, and others are the same. -/
def Laid (ts ts' : List Token) (program : Nat) (t t' : Token) : Prop :=
  if program = 1 then SamePosition ts ts' t t' else t = t'

theorem lawfulTokens_laid {ts ts' : List Token}
    (h : ts.map Token.stripped = ts'.map Token.stripped) : LawfulTokens (Laid ts ts') where
  kind program t t' ht := by
    unfold Laid at ht
    split at ht
    · exact ht.kind_eq h
    · exact congrArg Token.kind ht.symm
  lexeme program t t' ht := by
    unfold Laid at ht
    split at ht
    · exact ht.lexeme_eq h
    · exact congrArg Token.lexeme ht.symm

namespace Session

/-- How a run of a source with these tokens ends, and how a run of the other source does. -/
inductive SameRun (ts ts' : List Token) (culprit : Option Culprit) : Outcome → Outcome → Prop
  | ok : SameRun ts ts' culprit .ok .ok
  /-- The same errors are reported, each at tokens of the same position. -/
  | refused {es es' : List SyntaxError}
    (alike : List.Forall₂ (SyntaxError.Alike (SamePosition ts ts')) es es') :
    SameRun ts ts' culprit (.refused es) (.refused es')
  /-- The same fault, at tokens of the same position if they belong to the sources, and else in place. -/
  | fault (cause : RuntimeFault) {c : Culprit} {token token' : Token} (named : culprit = some c)
    (mark : c.expr.mark? = some token) (alike : Laid ts ts' c.program token token') :
    SameRun ts ts' culprit (.failed (.fault token.line cause)) (.failed (.fault token'.line cause))
  | output {words : String} :
    SameRun ts ts' culprit (.failed (@RuntimeError.output words)) (.failed (@RuntimeError.output words))
  | unfinished : SameRun ts ts' culprit .unfinished .unfinished

theorem sameRun_refused {ts ts' : List Token} {es es' : List SyntaxError}
    (h : List.Forall₂ (SyntaxError.Alike (SamePosition ts ts')) es es') (s : Session)
    (ids ids' : IdSupply) (culprit : Option Culprit) :
    let x : Outcome × Session := (.refused es, { s with ids, hadError := true })
    let y : Outcome × Session := (.refused es', { s with ids := ids', hadError := true })
    SameRun ts ts' culprit x.1 y.1 ∧ x.2.Same y.2 :=
  ⟨.refused h, rfl, rfl, rfl, rfl, rfl, rfl⟩

theorem sameRun_of_sameEnd {B : Pairing} {ts ts' : List Token} {r : Result Traced Unit}
    {r' : Result State Unit} (h : B.SameEnd B.Named r r') (htoken : B.token = Laid ts ts') :
    SameRun ts ts' r.state.culprit r.outcome r'.outcome := by
  cases h with
  | @fault cause _ _ s _ _ hnamed =>
    change SameRun ts ts' s.culprit _ _
    generalize s.culprit = culprit at hnamed ⊢
    cases hnamed with
    | culprit c mark alike => exact .fault cause rfl mark (htoken ▸ alike)
  | done => exact .ok
  | output => exact .output
  | unfinished => exact .unfinished

theorem related_laid (ts ts' : List Token) (r : Resolution) (t : State) :
    Pairing.Related ⟨False, Laid ts ts', Eq, r, r⟩ ⟨t, fun _ => 0, none⟩ t where
  environments := rfl
  count := rfl
  function _ g hg := ⟨g, hg, .refl (fun _ => rfl) (fun _ => rfl) g⟩
  sink := rfl
  ticks := rfl

theorem execute_layout {ts ts' : List Token} (hstripped : ts.map Token.stripped = ts'.map Token.stripped)
    (budget : Nat) (clock : Nat → Float) (s : Session) {p p' : Program}
    (htwin : Stmt.AllTwin ⟨False, SamePosition ts ts', Eq⟩ p p') (new : Resolution)
    (ids ids' : IdSupply) :
    let x := { s with ids }.execute budget clock new p
    let y := { s with ids := ids' }.execute budget clock new p'
    SameRun ts ts' (s.trace budget clock new p).state.culprit x.1 y.1 ∧ x.2.Same y.2 := by
  intro x y
  let table := s.resolution.extend new
  let B : Pairing := ⟨False, Laid ts ts', Eq, table, table⟩
  have hB : B.Lawful :=
    ⟨fun program => (lawfulTokens_laid hstripped).likeness program, fun _ _ h => congrArg (table[·]?) h⟩
  -- The program at hand is program 1, and functions that were declared earlier are program 0.
  have hlaid : Stmt.AllTwin (B.likeness 1) p p' := htwin.mono ⟨id, fun _ _ h => h, fun _ _ h => h⟩
  have hend : B.SameEnd B.Named (s.trace budget clock new p)
      (Lox.runProgram ⟨table, clock⟩ budget p' s.state) :=
    Pairing.runProgram_agrees hB clock budget 1 hlaid _ _ (related_laid ts ts' table s.state) rfl
  have hx : x = s.ended ids table ((s.trace budget clock new p).map Observed.state) := execute_eq_trace
  have hy : y = s.ended ids' table (Lox.runProgram ⟨table, clock⟩ budget p' s.state) := execute_eq
  rw [hx, hy]
  constructor
  · rw [ended, ended, Result.outcome_map]
    exact sameRun_of_sameEnd hend rfl
  · exact same_ended hend rfl rfl

/-- Layout cannot influence what a source does. Two sources whose tokens are the same but for their lines
run alike from any session, with any budget. Either both are refused, for the same errors in the same
order, or both print the same text and end in the same way. An error has in each source the line of the
token at the same position, unless the token comes from an earlier source. -/
theorem run_layout (budget : Nat) (clock : Nat → Float) (s : Session) {a b : String}
    (ha : (scan a).errors = []) (hb : (scan b).errors = [])
    (hsame : (scan a).tokens.map Token.stripped = (scan b).tokens.map Token.stripped) :
    let x := s.run budget clock a
    let y := s.run budget clock b
    SameRun (scan a).tokens (scan b).tokens (s.culprit budget clock a) x.1 y.1 ∧
      y.2.printedSince s = x.2.printedSince s ∧ x.2.Same y.2 := by
  intro x y
  suffices h : SameRun (scan a).tokens (scan b).tokens (s.culprit budget clock a) x.1 y.1 ∧
      x.2.Same y.2 by
    obtain ⟨hrun, hsame⟩ := h
    exact ⟨hrun, by rw [printedSince, printedSince, hsame.sink], hsame⟩
  have hcompile := compile_layout ha hb hsame s.ids
  generalize hca : (compile a s.ids).1 = c, hcb : (compile b s.ids).1 = c' at hcompile
  cases hcompile with
  | error alike =>
    rw [show x = _ from run_of_error hca, show y = _ from run_of_error hcb]
    exact sameRun_refused alike s _ _ _
  | @ok p p' twin =>
    have hlikeness : Likeness.Lawful ⟨False, SamePosition (scan a).tokens (scan b).tokens, Eq⟩ :=
      ⟨fun _ _ h => h.kind_eq hsame, fun _ _ h => h.lexeme_eq hsame⟩
    have hresolve := resolve_alike hlikeness twin
    generalize hra : resolve p = r, hrb : resolve p' = r' at hresolve
    cases hresolve with
    | error alike =>
      rw [show x = _ from run_of_unresolved hca hra, show y = _ from run_of_unresolved hcb hrb]
      exact sameRun_refused alike s _ _ _
    | ok new new' =>
      obtain rfl := resolve_eq_of_alike hlikeness (fun _ _ h => h.symm) twin hra hrb
      rw [show x = _ from run_of_resolved hca hra, show y = _ from run_of_resolved hcb hrb,
        culprit_eq hca hra]
      exact execute_layout hsame budget clock s twin _ _ _

/-- A function that negates, and a call that fails in it. -/
def crowded : String := "fun f(x) { return -x; } f(nil);"

/-- The same with a comment, on lines of their own. -/
def spread : String := "fun f(x) // minus
{
  return -x;
}
f(nil);
"

set_option maxRecDepth 8000 in
theorem run_layout_spread :
    let s := ((initial .unlimited).run 100 (fun _ => 0) "fun g(x) { return x; }").2
    let x := s.run 100 (fun _ => 0) crowded
    let y := s.run 100 (fun _ => 0) spread
    SameRun (scan crowded).tokens (scan spread).tokens (s.culprit 100 (fun _ => 0) crowded) x.1 y.1 ∧
      y.2.printedSince s = x.2.printedSince s ∧ x.2.Same y.2 :=
  run_layout 100 (fun _ => 0) _ (by cbv) (by cbv) (by cbv)

end Session
end Lox
