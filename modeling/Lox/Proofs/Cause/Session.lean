import Lox.Proofs.Cause.Evaluation
import Lox.Proofs.Joined

/-! Faults in sessions.
In a session functions of earlier programs go on to be called. Whatever fault a run ends with, it has a
culprit in the program that is run or in an earlier one, which explains it (`run_cause`). -/
namespace Lox

open Blame (Traced Clean Ends)

namespace Session

variable (budget : Nat) (clock : Nat → Float)

def accepted? (s : Session) : Request → Option Program
  | .run source =>
    match (compile source s.ids).1 with
    | .error _ => none
    | .ok p => if (resolve p).isOk then some p else none
  | _ => none

def programs (s : Session) : List Request → List Program
  | [] => []
  | request :: requests =>
    (s.accepted? request).toList ++ programs (s.answer budget clock request).2 requests

/-- The expression is one of the program that is run, which has number 1, or of an earlier program. -/
def StandsIn (earlier : List Program) (p : Program) (program : Nat) (n : Expr) : Prop :=
  if program = 1 then n ∈ p.nodes else ∃ q ∈ earlier, n ∈ q.nodes

/-- The functions of the session come from earlier programs, which have operations for their operators. -/
structure Accountable (s : Session) (earlier : List Program) : Prop where
  clean : Clean (fun _ n => ∃ q ∈ earlier, n ∈ q.nodes) ⟨s.state, fun _ => 0, none⟩
  operates : ∀ q ∈ earlier, ∀ n ∈ q.nodes, n.Operates

variable {budget clock} {s t : Session} {earlier : List Program} {p : Program}
  {new : Resolution} {source : String}

theorem accountable_initial (sink : Sink) : (initial sink).Accountable [] := by
  have hbuiltin {t : Store} (ht : t.Sound) (g : Function) (name : String) :
      ((t.allocate g).2.define globals name (.function (t.allocate g).1)).Sound := by
    refine (ht.allocate g).define globals name ?_
    rintro _ ⟨⟩
    change ((t.allocate g).2.function? t.functions.size).isSome
    rw [Store.function?_allocate, if_pos rfl]
    rfl
  have hempty : Store.empty.Sound := by
    rintro e name v hv
    cases hv
  refine ⟨⟨⟨hbuiltin (hbuiltin (hempty.push none) _ _) _ _, ?_, ?_⟩, rfl⟩, nofun⟩
  · intro f name arity hf
    rcases f with _ | _ | f
    · cases hf
    · cases hf
      exact ⟨rfl, rfl⟩
    · cases hf
  · intro f name params body closure hf
    rcases f with _ | _ | f <;> cases hf

/-- A run starts from a session and ends in one for which it can be accounted. -/
theorem Accountable.trace_ends (h : s.Accountable earlier) (budget : Nat) (clock : Nat → Float)
    (hp : (compile source s.ids).1 = .ok p) (new : Resolution) :
    Ends (StandsIn earlier p) (fun _ _ _ => False) (fun _ _ => True) ⟨s.state, fun _ => 0, none⟩
      (s.trace budget clock new p) := by
  have hop : ∀ program n, StandsIn earlier p program n → n.Operates := by
    intro program n hn
    unfold StandsIn at hn
    split at hn
    · exact operates_of_compile hp n hn
    · obtain ⟨q, hq, hn⟩ := hn
      exact h.operates q hq n hn
  have hstart : Clean (StandsIn earlier p) ⟨s.state, fun _ => 0, none⟩ :=
    ⟨⟨h.clean.sound, h.clean.root, h.clean.declared⟩, rfl⟩
  exact Blame.runProgram_ends hop _ budget 1 p (fun n hn => hn) hstart

theorem Accountable.execute (h : s.Accountable earlier) (hp : (compile source s.ids).1 = .ok p)
    (hnew : resolve p = .ok new) : (s.run budget clock source).2.Accountable (earlier ++ [p]) := by
  rw [run_of_resolved hp hnew, execute_eq_trace]
  have hend := (h.trace_ends budget clock hp new).accounted
  have himp : ∀ program n, StandsIn earlier p program n →
      ∀ _ : Nat, ∃ q ∈ earlier ++ [p], n ∈ q.nodes := by
    intro program n hn _
    unfold StandsIn at hn
    split at hn
    · exact ⟨p, List.mem_append_right _ List.mem_cons_self, hn⟩
    · obtain ⟨q, hq, hn⟩ := hn
      exact ⟨q, List.mem_append_left _ hq, hn⟩
  refine ⟨?_, List.forall_mem_append.2 ⟨h.operates, ?_⟩⟩
  · rw [ended, Result.state_map]
    exact hend.restart himp _
  · intro q hq
    rw [List.mem_singleton.1 hq]
    exact operates_of_compile hp

theorem Accountable.congr (h : s.Accountable earlier) (hstate : t.state = s.state) :
    t.Accountable earlier := ⟨hstate ▸ h.clean, h.operates⟩

/-- Answering keeps account, of one more program if one is executed. -/
theorem Accountable.answer (h : s.Accountable earlier) (budget : Nat) (clock : Nat → Float)
    (request : Request) :
    (s.answer budget clock request).2.Accountable (earlier ++ (s.accepted? request).toList) := by
  cases request with
  | run source =>
    rw [answer_run]
    unfold accepted?
    dsimp only
    cases hp : (compile source s.ids).1 with
    | error errors =>
      rw [run_of_error hp, Option.toList_none, List.append_nil]
      exact h.congr rfl
    | ok p =>
      dsimp only
      cases hnew : resolve p with
      | error errors =>
        have hrefused : ¬ (Except.error errors : Except (List SyntaxError) Resolution).isOk :=
          Bool.false_ne_true
        rw [run_of_unresolved hp hnew, if_neg hrefused, Option.toList_none, List.append_nil]
        exact h.congr rfl
      | ok new => exact h.execute hp hnew
  | print source | tree source | reset =>
    show Accountable _ (earlier ++ [])
    rw [List.append_nil]
    exact h.congr rfl

theorem Accountable.after (h : s.Accountable earlier) (budget : Nat) (clock : Nat → Float)
    (requests : List Request) : (s.after budget clock requests).Accountable
      (earlier ++ s.programs budget clock requests) := by
  induction requests generalizing s earlier with
  | nil =>
    rw [programs, List.append_nil]
    exact h
  | cons request requests ih =>
    rw [programs, ← List.append_assoc]
    exact ih (h.answer budget clock request)

/-- Every fault has its cause. If a run in a session ends with a fault, tracing it names a culprit: an
expression of the program that is run, or of one that was executed earlier. The line is the one of its
token, and its operands cause the fault. -/
theorem run_cause (budget : Nat) (clock : Nat → Float) (sink : Sink) (requests : List Request)
    {source : String} {line : UInt32} {cause : RuntimeFault}
    (h : (((initial sink).after budget clock requests).run budget clock source).1 =
      .failed (.fault line cause)) :
    let s := (initial sink).after budget clock requests
    ∃ p new t c, (compile source s.ids).1 = .ok p ∧ resolve p = .ok new ∧
      s.trace budget clock new p = .failed (.fault line cause) t ∧
      (s.run budget clock source).2.state = t.state ∧ t.culprit = some c ∧
      StandsIn ((initial sink).programs budget clock requests) p c.program c.expr ∧
      c.Explains t.state.store line cause := by
  intro s
  have hs : s.Accountable ((initial sink).programs budget clock requests) :=
    (accountable_initial sink).after budget clock requests
  change (s.run budget clock source).1 = _ at h
  cases hp : (compile source s.ids).1 with
  | error errors =>
    rw [run_of_error hp] at h
    cases h
  | ok p =>
    cases hnew : resolve p with
    | error errors =>
      rw [run_of_unresolved hp hnew] at h
      cases h
    | ok new =>
      have hend := hs.trace_ends budget clock hp new
      rw [run_of_resolved hp hnew, execute_eq_trace] at h ⊢
      refine ⟨p, new, ?_⟩
      generalize s.trace budget clock new p = r at h hend ⊢
      cases hend with
      | done => cases h
      | @told line' cause' t c accounted named stands explains =>
        cases h
        exact ⟨t, c, rfl, hnew, rfl, rfl, named, stands, explains⟩
      | due _ due => exact due.elim
      | output => cases h
      | unfinished => cases h

set_option maxRecDepth 8000 in
theorem run_cause_negated :
    let s := (initial .unlimited).after 100 (fun _ => 0) [.run negating]
    (s.run 100 (fun _ => 0) negated).1 = .failed (.fault 2 .numberOperand) ∧
    ∃ p new t c, (compile negated s.ids).1 = .ok p ∧ resolve p = .ok new ∧
      s.trace 100 (fun _ => 0) new p = .failed (.fault 2 .numberOperand) t ∧
      (s.run 100 (fun _ => 0) negated).2.state = t.state ∧ t.culprit = some c ∧
      StandsIn ((initial .unlimited).programs 100 (fun _ => 0) [.run negating]) p c.program c.expr ∧
      c.Explains t.state.store 2 .numberOperand := by
  have h : (((initial .unlimited).after 100 (fun _ => 0) [.run negating]).run 100 (fun _ => 0)
      negated).1 = .failed (.fault 2 .numberOperand) := by
    cbv
  exact ⟨h, run_cause 100 (fun _ => 0) .unlimited [.run negating] h⟩

end Session
end Lox
