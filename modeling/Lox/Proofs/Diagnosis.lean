import Lox.Proofs.Segments
import Lox.Proofs.Twin.Session

/-! What a source is refused for.
All that scanning and parsing find is reported, and what resolution finds only where they find nothing
(`run_eq_refused_iff`). -/
namespace Lox

def resolveErrors (p : Program) : List SyntaxError :=
  match resolve p with
  | .ok _ => []
  | .error errors => errors

def compileErrors (source : String) (ids : IdSupply) : List SyntaxError :=
  (scan source).errors ++ syntaxErrors (scan source).tokens ids

/-- What a source is refused for. Only what compiles is resolved. -/
def refusals (source : String) (ids : IdSupply) : List SyntaxError :=
  compileErrors source ids ++
    match (compile source ids).1 with
    | .ok p => resolveErrors p
    | .error _ => []

theorem resolveErrors_eq_nil {p : Program} : resolveErrors p = [] ↔ ∃ r, resolve p = .ok r := by
  unfold resolveErrors
  split
  · next r hr => exact iff_of_true rfl ⟨r, hr⟩
  · next errors hr =>
    refine iff_of_false ?_ (by simp [hr])
    rintro rfl
    unfold resolve at hr
    dsimp only at hr
    split at hr
    · cases hr
    · next hne =>
      injection hr with hnil
      exact hne (by rw [hnil]; rfl)

variable {source : String} {ids : IdSupply} {es : List SyntaxError}

theorem compileErrors_eq_nil :
    compileErrors source ids = [] ↔ ∃ p, (compile source ids).1 = .ok p := by
  rw [compileErrors, List.append_eq_nil_iff, syntaxErrors_eq_nil]
  simp only [compile_eq_ok_iff, exists_and_left]

theorem compileErrors_of_compile (h : (compile source ids).1 = .error es) :
    compileErrors source ids = es := by
  unfold compileErrors syntaxErrors
  unfold compile at h
  dsimp only at h
  cases hp : (parse (scan source).tokens ids).1 with
  | error later =>
    rw [hp] at h
    cases h
    rfl
  | ok p =>
    rw [hp] at h
    rw [List.append_nil]
    cases hs : (scan source).errors with
    | nil =>
      rw [hs] at h
      cases h
    | cons e errors =>
      rw [hs] at h
      exact Except.error.inj h

theorem compile_eq_error_iff :
    (compile source ids).1 = .error es ↔ compileErrors source ids = es ∧ es ≠ [] := by
  refine ⟨fun h => ⟨compileErrors_of_compile h, ?_⟩, fun ⟨h, hne⟩ => ?_⟩
  · rintro rfl
    obtain ⟨p, hp⟩ := compileErrors_eq_nil.1 (compileErrors_of_compile h)
    cases h.symm.trans hp
  · cases hc : (compile source ids).1 with
    | ok p => exact absurd (h.symm.trans (compileErrors_eq_nil.2 ⟨p, hc⟩)) hne
    | error errors => rw [← h, compileErrors_of_compile hc]

namespace Session

variable {budget : Nat} {clock : Nat → Float} {s : Session}

/-- A run is refused if there is anything to report, and reports all of it. -/
theorem run_eq_refused_iff :
    (s.run budget clock source).1 = .refused es ↔ refusals source s.ids = es ∧ es ≠ [] := by
  cases hc : (compile source s.ids).1 with
  | error errors =>
    obtain ⟨herrors, hne⟩ := compile_eq_error_iff.1 hc
    have hrefusals : refusals source s.ids = errors := by
      rw [refusals, hc, herrors, List.append_nil]
    rw [run_of_error hc, hrefusals, Outcome.refused.injEq, iff_self_and]
    rintro rfl
    exact hne
  | ok p =>
    have hrefusals : refusals source s.ids = resolveErrors p := by
      rw [refusals, hc, compileErrors_eq_nil.2 ⟨p, hc⟩, List.nil_append]
    rw [hrefusals]
    cases hr : resolve p with
    | error errors =>
      have hne : resolveErrors p ≠ [] := by simp [resolveErrors_eq_nil, hr]
      rw [resolveErrors, hr] at hne ⊢
      rw [run_of_unresolved hc hr, Outcome.refused.injEq, iff_self_and]
      rintro rfl
      exact hne
    | ok new =>
      have hnil : resolveErrors p = [] := resolveErrors_eq_nil.2 ⟨new, hr⟩
      rw [run_of_resolved hc hr, hnil]
      refine iff_of_false ?_ fun h => h.2 h.1.symm
      unfold execute
      dsimp only
      cases Lox.runProgram _ _ _ _ <;> nofun

end Session
end Lox
