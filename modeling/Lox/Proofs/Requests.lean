import Mathlib.Data.List.Flatten
import Lox.Proofs.Source.RoundTrip
import Lox.Proofs.Twin.Session

/-! Requests to a session.
A session is asked to run sources, to print or parse them without running them, and to forget its
errors. Requests that execute nothing leave no trace: without them, the others are answered in the same
way (`answers_kept`). -/
namespace Lox

open Blame (Traced)

namespace Session

inductive Request
  | run (source : String)
  | print (source : String)
  | tree (source : String)
  | reset

inductive Answer
  | ran (outcome : Outcome) (text : String)
  | printed (result : Except (List SyntaxError) String)
  | tree (result : Except (List SyntaxError) Program)
  | reset

def Request.tokens : Request → List Token
  | run source | print source | tree source => (scan source).tokens
  | reset => []

namespace Answer

def executed : Answer → Bool
  | ran (.refused _) _ => false
  | ran _ _ => true
  | _ => false

def refused : Answer → Bool
  | ran (.refused _) _ => true
  | _ => false

def failed : Answer → Bool
  | ran (.failed _) _ => true
  | _ => false

def isReset : Answer → Bool
  | reset => true
  | _ => false

/-- The answer up to the ids in a tree. -/
def anonymous : Answer → Answer
  | tree result => tree (result.map Program.anonymous)
  | a => a

end Answer

variable (budget : Nat) (clock : Nat → Float)

def answer (s : Session) : Request → Answer × Session
  | .run source =>
    let (outcome, t) := s.run budget clock source
    (.ran outcome (t.printedSince s), t)
  | .print source =>
    let (parsed, t) := s.parse source
    (.printed (parsed.map Program.source), t)
  | .tree source =>
    let (parsed, t) := s.parse source
    (.tree parsed, t)
  | .reset => (.reset, s.resetErrors)

def answers (s : Session) : List Request → List Answer
  | [] => []
  | request :: requests =>
    let (a, s) := s.answer budget clock request
    a :: answers s requests

def after (s : Session) (requests : List Request) : Session :=
  requests.foldl (fun s request => (s.answer budget clock request).2) s

/-- The answers after the last reset, latest first. -/
def sinceReset (as : List Answer) : List Answer := as.reverse.takeWhile fun a => !a.isReset

def kept {α : Type} (marked : List (α × Bool)) : List α := (marked.filter Prod.snd).map Prod.fst

variable {budget clock} {s t : Session}

theorem answer_run {source : String} : s.answer budget clock (.run source) =
    (.ran (s.run budget clock source).1 ((s.run budget clock source).2.printedSince s),
      (s.run budget clock source).2) := rfl

theorem answer_print {source : String} : s.answer budget clock (.print source) =
    (.printed ((compile source s.ids).1.map Program.source),
      { s with ids := (compile source s.ids).2 }) := rfl

theorem answer_tree {source : String} : s.answer budget clock (.tree source) =
    (.tree (compile source s.ids).1, { s with ids := (compile source s.ids).2 }) := rfl

theorem ids_execute {p : Program} {new : Resolution} :
    (s.execute budget clock new p).2.ids = s.ids := by
  unfold execute
  dsimp only
  cases Lox.runProgram _ _ _ _ <;> rfl

theorem ids_run {source : String} :
    (s.run budget clock source).2.ids = (compile source s.ids).2 := by
  cases hc : (compile source s.ids).1 with
  | error errors => rw [run_of_error hc]
  | ok p =>
    cases hr : resolve p with
    | error errors => rw [run_of_unresolved hc hr]
    | ok new => rw [run_of_resolved hc hr, ids_execute]

/-! ### Answers that leave no trace -/

/-- A later moment of a session, before anything else is executed. -/
structure Idles (s t : Session) : Prop where
  ids : s.ids.handed ≤ t.ids.handed
  resolution : t.resolution = s.resolution
  state : t.state = s.state

/-- Answering uses up at most as many ids as are demanded. -/
theorem handed_answer (budget : Nat) (clock : Nat → Float) (s : Session) (request : Request) :
    s.ids.handed ≤ (s.answer budget clock request).2.ids.handed ∧
      (s.answer budget clock request).2.ids.handed ≤ s.ids.handed + demand request.tokens := by
  cases request with
  | run source =>
    obtain ⟨hle, hge, -⟩ := numbers_of_parse (scan source).tokens s.ids
    rw [answer_run, ids_run]
    exact ⟨hge, hle⟩
  | print source | tree source =>
    obtain ⟨hle, hge, -⟩ := numbers_of_parse (scan source).tokens s.ids
    exact ⟨hge, hle⟩
  | reset => exact ⟨Nat.le_refl _, Nat.le_refl _⟩

theorem handed_answer_alike (budget : Nat) (clock : Nat → Float) (s t : Session) (request : Request) :
    (s.answer budget clock request).2.ids.handed + t.ids.handed =
      (t.answer budget clock request).2.ids.handed + s.ids.handed := by
  cases request with
  | run source =>
    rw [answer_run, answer_run, ids_run, ids_run]
    exact handed_compile_alike source s.ids t.ids
  | print source | tree source => exact handed_compile_alike source s.ids t.ids
  | reset => exact Nat.add_comm _ _

theorem handed_after_le (budget : Nat) (clock : Nat → Float) (s : Session) (requests : List Request) :
    s.ids.handed ≤ (s.after budget clock requests).ids.handed := by
  induction requests generalizing s with
  | nil => exact Nat.le_refl _
  | cons request requests ih => exact Nat.le_trans (handed_answer budget clock s request).1 (ih _)

/-- An answer that executes nothing uses up ids at most. -/
theorem idles_of_answer (budget : Nat) (clock : Nat → Float) {request : Request}
    (h : (s.answer budget clock request).1.executed = false) :
    s.Idles (s.answer budget clock request).2 := by
  have hids := (handed_answer budget clock s request).1
  cases request with
  | run source =>
    change Answer.executed (.ran (s.run budget clock source).1 _) = false at h
    change s.Idles (s.run budget clock source).2
    cases ho : (s.run budget clock source).1 with
    | refused errors =>
      exact ⟨hids, by rw [state_of_refused ho], by rw [state_of_refused ho]⟩
    | ok | failed | unfinished =>
      rw [ho] at h
      cases h
  | print source | tree source | reset => exact ⟨hids, rfl, rfl⟩

/-! ### Sessions that answer alike -/

/-- Sessions that answer alike from here on: their functions are twins, and what they still hand out
has no entries in their tables. -/
structure Linked (s t : Session) : Prop where
  related : ∃ origin, (s.side.pairing t.side False fun _ => Eq).Related ⟨s.state, origin, none⟩ t.state
  left : s.Fresh
  right : t.Fresh

theorem lawfulTokens_eq : LawfulTokens fun _ => Eq where
  kind _ _ _ h := congrArg Token.kind h.symm
  lexeme _ _ _ h := congrArg Token.lexeme h.symm

theorem linked_initial (sink : Sink) : Linked (.initial sink) (.initial sink) where
  related := ⟨fun _ => 0, related_initial _ sink _⟩
  left := fresh_initial sink
  right := fresh_initial sink

variable {s' t' : Session}

theorem Idles.grows (h : s.Idles s') : s.side.Extends s'.side where
  table id _ := by rw [side, side, h.resolution]
  known _ hid := Nat.lt_of_lt_of_le hid h.ids

theorem Idles.fresh (h : s.Idles s') (hs : s.Fresh) : s'.Fresh := by
  intro id hid
  rw [h.resolution]
  exact hs id fun hid' => hid (Nat.lt_of_lt_of_le hid' h.ids)

/-- Linked sessions stay linked while nothing is executed. -/
theorem Linked.idle (h : Linked s t) (hs : s.Idles s') (ht : t.Idles t') : Linked s' t' where
  related := by
    obtain ⟨origin, hrel⟩ := h.related
    rw [hs.state, ht.state]
    exact ⟨origin, hrel.extend hs.grows ht.grows id fun _ _ _ h => h⟩
  left := hs.fresh h.left
  right := ht.fresh h.right

theorem Linked.sink_eq (h : Linked s t) : s.state.sink = t.state.sink := by
  obtain ⟨_, hrel⟩ := h.related
  exact hrel.sink

theorem Linked.execute (h : Linked s t) {p p' : Program} {new new' : Resolution} {ids ids' : IdSupply}
    (hs : s.Accepts p new ids) (ht : t.Accepts p' new' ids')
    (htwin : Stmt.AllTwin ⟨False, Eq, fun _ _ => True⟩ p p') :
    let x := { s with ids }.execute budget clock new p
    let y := { t with ids := ids' }.execute budget clock new' p'
    x.1 = y.1 ∧ Linked x.2 y.2 := by
  obtain ⟨origin, hrel⟩ := h.related
  obtain ⟨u, herase, hend⟩ :=
    hs.runs_alike ht h.left h.right lawfulTokens_eq hrel 0 htwin budget clock
  intro x y
  have hx : x = s.ended ids (s.resolution.extend new) (u.map Observed.state) := by
    rw [herase]
    exact execute_eq
  rw [hx, show y = _ from execute_eq]
  constructor
  · exact (u.outcome_map Observed.state).trans (hend.outcome_eq rfl)
  · refine ⟨⟨u.state.origin, ?_⟩, hs.fresh h.left, ht.fresh h.right⟩
    rw [ended, u.state_map]
    exact hend.related_state.innocent

theorem Linked.run (h : Linked s t) (budget : Nat) (clock : Nat → Float) {source : String}
    (hs : (compile source s.ids).2.handed ≤ UInt32.size)
    (ht : (compile source t.ids).2.handed ≤ UInt32.size) :
    (s.run budget clock source).1 = (t.run budget clock source).1 ∧
      Linked (s.run budget clock source).2 (t.run budget clock source).2 := by
  have hids := (numbers_of_parse (scan source).tokens s.ids).2.1
  have hids' := (numbers_of_parse (scan source).tokens t.ids).2.1
  rcases compile_alike source s.ids t.ids with ⟨errors, hc, hc'⟩ | ⟨p, p', hc, hc', htwin⟩
  · rw [run_of_error hc, run_of_error hc']
    exact ⟨rfl, h.idle ⟨hids, rfl, rfl⟩ ⟨hids', rfl, rfl⟩⟩
  · have hresolve := resolve_alike (lawfulTokens_eq.likeness 0) htwin
    generalize hr : resolve p = x, hr' : resolve p' = x' at hresolve
    cases hresolve with
    | ok new new' =>
      rw [run_of_resolved hc hr, run_of_resolved hc' hr']
      exact h.execute (.of_compile (Prod.ext hc rfl) hs hr) (.of_compile (Prod.ext hc' rfl) ht hr')
        htwin
    | error alike =>
      rw [run_of_unresolved hc hr, run_of_unresolved hc' hr', SyntaxError.Alike.all_eq alike]
      exact ⟨rfl, h.idle ⟨hids, rfl, rfl⟩ ⟨hids', rfl, rfl⟩⟩

theorem map_anonymous_compile (source : String) (ids ids' : IdSupply) :
    (compile source ids).1.map Program.anonymous = (compile source ids').1.map Program.anonymous := by
  rcases compile_alike source ids ids' with ⟨errors, hc, hc'⟩ | ⟨p, p', hc, hc', -⟩
  · rw [hc, hc']
  · rw [hc, hc', Except.map, Except.map, anonymous_eq_of_compile hc hc']

theorem map_source_compile (source : String) (ids ids' : IdSupply) :
    (compile source ids).1.map Program.source = (compile source ids').1.map Program.source := by
  have hmap (x : Except (List SyntaxError) Program) :
      x.map Program.source = (x.map Program.anonymous).map Program.source := by
    cases x with
    | error errors => rfl
    | ok p => exact congrArg Except.ok p.source_anonymous.symm
  rw [hmap, map_anonymous_compile source ids ids', ← hmap]

/-- Linked sessions answer alike, and stay linked. -/
theorem Linked.answer (h : Linked s t) (budget : Nat) (clock : Nat → Float) {request : Request}
    (hs : (s.answer budget clock request).2.ids.handed ≤ UInt32.size)
    (ht : (t.answer budget clock request).2.ids.handed ≤ UInt32.size) :
    (s.answer budget clock request).1.anonymous = (t.answer budget clock request).1.anonymous ∧
      Linked (s.answer budget clock request).2 (t.answer budget clock request).2 := by
  cases request with
  | run source =>
    rw [answer_run] at hs ht ⊢
    rw [answer_run]
    rw [ids_run] at hs ht
    have hrun := h.run budget clock hs ht
    generalize s.run budget clock source = x, t.run budget clock source = y at hrun ⊢
    obtain ⟨houtcome, hlinked⟩ := hrun
    rw [houtcome, printedSince, printedSince, hlinked.sink_eq, h.sink_eq]
    exact ⟨rfl, hlinked⟩
  | print source =>
    refine ⟨?_, h.idle (idles_of_answer budget clock rfl) (idles_of_answer budget clock rfl)⟩
    rw [answer_print, answer_print, map_source_compile source s.ids t.ids]
  | tree source =>
    refine ⟨?_, h.idle (idles_of_answer budget clock rfl) (idles_of_answer budget clock rfl)⟩
    rw [answer_tree, answer_tree]
    exact congrArg Answer.tree (map_anonymous_compile source s.ids t.ids)
  | reset => exact ⟨rfl, h.idle (idles_of_answer budget clock rfl) (idles_of_answer budget clock rfl)⟩

theorem answers_cons (request : Request) (requests : List Request) :
    s.answers budget clock (request :: requests) =
      (s.answer budget clock request).1 ::
        (s.answer budget clock request).2.answers budget clock requests := rfl

theorem kept_cons {α : Type} (a : α) (keep : Bool) (marked : List (α × Bool)) :
    kept ((a, keep) :: marked) = if keep then a :: kept marked else kept marked := by
  cases keep <;> rfl

/-- Linked sessions answer the requests that are kept alike, where what is left out executes nothing. The
second session never uses up more ids than the first. -/
theorem Linked.answers (marked : List (Request × Bool)) (h : Linked s t)
    (hle : t.ids.handed ≤ s.ids.handed)
    (hids : (s.after budget clock (marked.map Prod.fst)).ids.handed ≤ UInt32.size)
    (hidle : ∀ x ∈ (s.answers budget clock (marked.map Prod.fst)).zip (marked.map Prod.snd),
      x.1.executed → x.2) :
    (t.answers budget clock (kept marked)).map Answer.anonymous =
      (kept ((s.answers budget clock (marked.map Prod.fst)).zip (marked.map Prod.snd))).map
        Answer.anonymous := by
  induction marked generalizing s t with
  | nil => rfl
  | cons x marked ih =>
    obtain ⟨request, keep⟩ := x
    rw [List.map_cons, List.map_cons, answers_cons, List.zip_cons_cons] at hidle ⊢
    have hids : ((s.answer budget clock request).2.after budget clock
      (marked.map Prod.fst)).ids.handed ≤ UInt32.size := hids
    dsimp only at hidle ⊢
    obtain ⟨hhead, htail⟩ := List.forall_mem_cons.1 hidle
    have hs := Nat.le_trans (handed_after_le budget clock _ _) hids
    cases keep with
    | true =>
      have halike := handed_answer_alike budget clock s t request
      obtain ⟨hanswer, hlinked⟩ := h.answer budget clock hs (by omega)
      rw [kept_cons, if_pos rfl, answers_cons, List.map_cons, ← hanswer, kept_cons, if_pos rfl,
        List.map_cons, ih hlinked (by omega) hids htail]
    | false =>
      rw [kept_cons, if_neg Bool.false_ne_true, kept_cons, if_neg Bool.false_ne_true]
      have hidles := idles_of_answer budget clock (by simpa using hhead)
      exact ih (h.idle hidles ⟨Nat.le_refl _, rfl, rfl⟩) (Nat.le_trans hle hidles.ids) hids htail

/-! ### Errors -/

theorem flags_answer (budget : Nat) (clock : Nat → Float) (s : Session) (request : Request) :
    let a := (s.answer budget clock request).1
    (s.answer budget clock request).2.hadError = (!a.isReset && (a.refused || s.hadError)) ∧
      (s.answer budget clock request).2.hadRuntimeError =
        (!a.isReset && (a.failed || s.hadRuntimeError)) := by
  cases request with
  | run source =>
    rw [answer_run]
    cases hc : (compile source s.ids).1 with
    | error errors =>
      rw [run_of_error hc]
      exact ⟨rfl, rfl⟩
    | ok p =>
      cases hr : resolve p with
      | error errors =>
        rw [run_of_unresolved hc hr]
        exact ⟨rfl, rfl⟩
      | ok new =>
        rw [run_of_resolved hc hr]
        unfold execute
        dsimp only
        cases Lox.runProgram _ _ _ _ <;> exact ⟨rfl, rfl⟩
  | print source | tree source | reset => exact ⟨rfl, rfl⟩

theorem after_concat (s : Session) (requests : List Request) (request : Request) :
    s.after budget clock (requests ++ [request]) =
      ((s.after budget clock requests).answer budget clock request).2 := by
  rw [after, List.foldl_append]
  rfl

theorem answers_concat (s : Session) (requests : List Request) (request : Request) :
    s.answers budget clock (requests ++ [request]) = s.answers budget clock requests ++
      [((s.after budget clock requests).answer budget clock request).1] := by
  induction requests generalizing s with
  | nil => rfl
  | cons first requests ih =>
    rw [List.cons_append, answers_cons, ih, answers_cons]
    rfl

theorem any_sinceReset_concat (p : Answer → Bool) (as : List Answer) (a : Answer) :
    (sinceReset (as ++ [a])).any p = (!a.isReset && (p a || (sinceReset as).any p)) := by
  unfold sinceReset
  rw [List.reverse_append, List.reverse_singleton, List.singleton_append, List.takeWhile_cons]
  cases a.isReset <;> rfl

/-- A session knows whether a run since the last reset was refused, and whether one failed. -/
theorem flags_after (budget : Nat) (clock : Nat → Float) (sink : Sink) (requests : List Request) :
    let answers := (initial sink).answers budget clock requests
    ((initial sink).after budget clock requests).hadError =
        (sinceReset answers).any Answer.refused ∧
      ((initial sink).after budget clock requests).hadRuntimeError =
        (sinceReset answers).any Answer.failed := by
  induction requests using List.reverseRecOn with
  | nil => exact ⟨rfl, rfl⟩
  | append_singleton requests request ih =>
    obtain ⟨herror, hruntime⟩ := ih
    dsimp only
    rw [after_concat, answers_concat, any_sinceReset_concat, any_sinceReset_concat, ← herror,
      ← hruntime]
    exact flags_answer budget clock _ request

theorem text_of_refused (s : Session) (requests : List Request) {errors : List SyntaxError}
    {text : String} (h : .ran (.refused errors) text ∈ s.answers budget clock requests) : text = "" := by
  induction requests generalizing s with
  | nil => cases h
  | cons request requests ih =>
    rw [answers_cons] at h
    rcases List.mem_cons.1 h with h | h
    · cases request with
      | run source =>
        rw [answer_run] at h
        injection h with houtcome htext
        rw [htext, state_of_refused houtcome.symm]
        exact since_self _
      | print source | tree source | reset => cases h
    · exact ih _ h

/-- Requests that execute nothing leave no trace. As long as not all ids are used up, the requests that
are kept have the same answers, up to ids in trees, whichever requests are left out that execute nothing.
A session knows whether a run since the last reset was refused and whether one failed, and a run that is
refused prints nothing. -/
theorem answers_kept (budget : Nat) (clock : Nat → Float) (sink : Sink)
    (marked : List (Request × Bool))
    (hids : ((initial sink).after budget clock (marked.map Prod.fst)).ids.handed < UInt32.size)
    (hidle : ∀ x ∈ ((initial sink).answers budget clock (marked.map Prod.fst)).zip
      (marked.map Prod.snd), x.1.executed → x.2) :
    ((initial sink).answers budget clock (kept marked)).map Answer.anonymous =
        (kept (((initial sink).answers budget clock (marked.map Prod.fst)).zip
          (marked.map Prod.snd))).map Answer.anonymous ∧
      ∀ requests : List Request,
        let answers := (initial sink).answers budget clock requests
        ((initial sink).after budget clock requests).hadError =
            (sinceReset answers).any Answer.refused ∧
          ((initial sink).after budget clock requests).hadRuntimeError =
            (sinceReset answers).any Answer.failed ∧
          ∀ errors text, .ran (.refused errors) text ∈ answers → text = "" := by
  constructor
  · exact (linked_initial sink).answers marked (Nat.le_refl _) (Nat.le_of_lt hids) hidle
  · intro requests
    obtain ⟨herror, hruntime⟩ := flags_after budget clock sink requests
    exact ⟨herror, hruntime, fun errors text h => text_of_refused _ requests h⟩

/-- A function that is called after other sources have used up ids. -/
def callRequests : List (Request × Bool) :=
  [(.run "fun f() \x7b print f; \x7d", true), (.run "f(f", false), (.tree "f();", false), (.reset, false),
   (.run "f();", true)]

set_option maxRecDepth 8000 in
theorem answers_kept_call :
    ((initial .unlimited).answers 100 (fun _ => 0) (kept callRequests)).map Answer.anonymous =
      (kept (((initial .unlimited).answers 100 (fun _ => 0) (callRequests.map Prod.fst)).zip
        (callRequests.map Prod.snd))).map Answer.anonymous := by
  have hids : ((initial .unlimited).after 100 (fun _ => 0)
      (callRequests.map Prod.fst)).ids.handed < UInt32.size := by cbv
  have hidle : (((initial .unlimited).answers 100 (fun _ => 0) (callRequests.map Prod.fst)).zip
      (callRequests.map Prod.snd)).all fun x => !x.1.executed || x.2 := by cbv
  refine (answers_kept 100 (fun _ => 0) .unlimited callRequests hids fun x hx hexecuted => ?_).1
  have hx := List.all_eq_true.1 hidle x hx
  rwa [hexecuted] at hx

end Session
end Lox
