import Lox.Proofs.Watch.Script

/-! Sinks that refuse.
A sink that becomes full only truncates: up to the first text that is refused, a run does what it does
with a sink that takes everything, and then it ends with an error (`execute_truncates`). -/
namespace Lox

open Watch (Watched)

namespace Session

def limited (s : Session) (full : String → Bool) : Session :=
  { s with state := s.state.limited full }

def unlimited (s : Session) : Session := s.limited fun _ => false

def received (s : Session) : String := s.state.sink.text

variable (budget : Nat) (clock : Nat → Float)

/-- Execute a resolved program, and note what is entered. Nothing is known about the walks around the
functions that there are already. -/
def watch (s : Session) (resolution : Resolution) (p : Program) : Result Watched Unit :=
  Watch.runProgram ⟨s.resolution.extend resolution, clock⟩ budget .initial p
    ⟨s.state, fun _ => .initial, []⟩

variable {budget clock} {s : Session} {resolution : Resolution} {p : Program}

/-- Executing does what the watched run does. -/
theorem execute_eq_watch : s.execute budget clock resolution p =
    match s.watch budget clock resolution p with
    | .done _ t => (.ok, { s with resolution := s.resolution.extend resolution, state := t.state })
    | .failed e t => (.failed e, { s with
        resolution := s.resolution.extend resolution, state := t.state, hadRuntimeError := true })
    | .unfinished t => (.unfinished, { s with
        resolution := s.resolution.extend resolution, state := t.state }) := by
  have herases : (s.watch budget clock resolution p).map Observed.state =
      Lox.runProgram ⟨s.resolution.extend resolution, clock⟩ budget p s.state :=
    Observer.runProgram_erases _ _ budget p _ _
  unfold execute
  dsimp only
  rw [← herases]
  cases s.watch budget clock resolution p <;> rfl

theorem state_execute : (s.execute budget clock resolution p).2.state =
    (s.watch budget clock resolution p).state.state := by
  rw [execute_eq_watch]
  cases s.watch budget clock resolution p <;> rfl

/-- Whatever is noted, a program leaves the ids, the errors in sources and the table alike. -/
theorem execute_unlimited_with (full : String → Bool) {state : State} :
    { (s.unlimited.execute budget clock resolution p).2 with state, hadRuntimeError := true } =
      { s.limited full with
        resolution := s.resolution.extend resolution, state, hadRuntimeError := true } := by
  rw [execute_eq_watch]
  cases s.unlimited.watch budget clock resolution p <;> rfl

theorem execute_of_taken {full : String → Bool} {result : Result Watched Unit}
    (hfree : s.unlimited.watch budget clock resolution p = result.map Watched.unlimited)
    (hlimited : (s.limited full).watch budget clock resolution p = result.map (·.limited full)) :
    (s.limited full).execute budget clock resolution p =
      ((s.unlimited.execute budget clock resolution p).1,
        (s.unlimited.execute budget clock resolution p).2.limited full) := by
  rw [execute_eq_watch, execute_eq_watch, hfree, hlimited]
  cases result <;> rfl

theorem execute_of_refused {full : String → Bool} {e : RuntimeError} {t : Watched}
    (hlimited : (s.limited full).watch budget clock resolution p = .failed e t) :
    (s.limited full).execute budget clock resolution p =
      (.failed e, { (s.unlimited.execute budget clock resolution p).2 with
        state := t.state, hadRuntimeError := true }) := by
  rw [execute_unlimited_with full, execute_eq_watch, hlimited]
  rfl

/-- A sink that becomes full only truncates. If a program ends with a sink that takes everything, its
`print`s make requests, which together are what it prints. With a sink that is full after some texts,
whichever these are, it ends as well, and has printed an initial part of that. Either no request is
refused, and the outcome and the session are the same. Or one is refused: then the outcome is the error of
the sink, the sink has received the texts before that request, and the store, the clock and all that has
been entered are as when the request is made. -/
theorem execute_truncates
    (hfree : (s.unlimited.execute budget clock resolution p).1 ≠ .unfinished) :
    let free := s.unlimited.execute budget clock resolution p
    ∃ requests : List Watch.Request,
      (∀ q ∈ requests, Watch.Printed ⟨s.resolution.extend resolution, clock⟩ q) ∧
      free.2.received = s.received ++ String.join (requests.map Watch.Request.text) ∧
      ∀ full,
        let limited := (s.limited full).execute budget clock resolution p
        let noted := ((s.limited full).watch budget clock resolution p).state
        noted.state = limited.2.state ∧ limited.1 ≠ .unfinished ∧
        (∃ rest, free.2.received = limited.2.received ++ rest) ∧
        ((∀ q ∈ requests, q.refusedBy full = false) ∧ limited = (free.1, free.2.limited full) ∨
        ∃ before q after, requests = before ++ q :: after ∧
          (∀ r ∈ before, r.refusedBy full = false) ∧ q.refusedBy full = true ∧
          limited = (.failed s.state.sink.error, { free.2 with
            state := q.moment.state.limited full, hadRuntimeError := true }) ∧
          limited.2.received = s.received ++ String.join (before.map Watch.Request.text) ∧
          noted = q.moment.limited full ∧
          q.moment.visits <:+ (s.unlimited.watch budget clock resolution p).state.visits) := by
  obtain ⟨requests, result, hprinted, hleads, hplay⟩ := Watch.runProgram_scripted
    ⟨s.resolution.extend resolution, clock⟩ budget p .initial ⟨s.state, fun _ => .initial, []⟩
  have hwatch : ∀ full, (s.limited full).watch budget clock resolution p =
    Watch.play full requests result := hplay
  have hunlimited : s.unlimited.watch budget clock resolution p =
    result.map Watched.unlimited := (hwatch fun _ => false).trans (Watch.play_never requests result)
  intro free
  have hreceived : free.2.received = result.state.text := by
    unfold received
    rw [state_execute, hunlimited, Result.state_map]
    rfl
  refine ⟨requests, hprinted, hreceived.trans hleads.text, fun full => ?_⟩
  intro limited noted
  refine ⟨state_execute.symm, ?_⟩
  rcases Watch.play_cases full requests result with
    ⟨htaken, hend⟩ | ⟨before, q, after, hsplit, hbefore, hq, hend⟩
  · have hlimited : limited = (free.1, free.2.limited full) :=
      execute_of_taken hunlimited ((hwatch full).trans hend)
    refine ⟨?_, ⟨"", ?_⟩, .inl ⟨htaken, hlimited⟩⟩
    · rw [hlimited]
      exact hfree
    · rw [hlimited, String.append_empty]
      rfl
  · rw [hleads.error q (hsplit ▸ List.mem_append_right _ List.mem_cons_self)] at hend
    have hlimited : limited = (.failed s.state.sink.error, { free.2 with
        state := q.moment.state.limited full, hadRuntimeError := true }) :=
      execute_of_refused ((hwatch full).trans hend)
    have hnoted : noted = q.moment.limited full :=
      congrArg Result.state ((hwatch full).trans hend)
    rw [hsplit] at hleads
    obtain ⟨huntil, hfrom⟩ := hleads.split
    have hmoment : limited.2.received = q.moment.text := by
      rw [hlimited]
      rfl
    refine ⟨?_, ⟨q.text ++ String.join (after.map Watch.Request.text), ?_⟩,
      .inr ⟨before, q, after, hsplit, hbefore, hq, hlimited, hmoment.trans huntil.text, hnoted, ?_⟩⟩
    · rw [hlimited]
      exact nofun
    · rw [hreceived, hmoment, hfrom.text, Watch.Request.accepted_text, String.append_assoc]
    · rw [hunlimited, Result.state_map]
      exact hfrom.visits

/-- A function that prints its argument, called twice in an expression that is printed too. -/
def sayingProgram : Program :=
  let word (text : String) : Token := ⟨.identifier, text, none, 1⟩
  let say (id : UseId) (text : String) : Expr :=
    .call (.use id (word "say")) [.literal (.string text)] ⟨.rightParen, ")", none, 1⟩
  [.function (word "say") [word "s"]
      [.print (.use 0 (word "s")), .ret ⟨.returnWord, "return", none, 1⟩ (some (.use 1 (word "s")))],
    .print (.binary (say 2 "a") ⟨.plus, "+", none, 1⟩ (say 3 "b\nc"))]

/-- The text `b c` over two lines is taken whole, and the line end after it is refused. -/
theorem execute_truncates_saying :
    let s := initial (.ofLineLimit 2)
    let resolution := (Walk.initial.statements false sayingProgram).depths
    (s.unlimited.execute 9 (fun _ => 0) resolution sayingProgram).1 ≠ .unfinished ∧
      (s.execute 9 (fun _ => 0) resolution sayingProgram).1 =
        .failed (@RuntimeError.output "sink full") ∧
      (s.execute 9 (fun _ => 0) resolution sayingProgram).2.received = "a\nb\nc" ∧
      ∃ rest, (s.unlimited.execute 9 (fun _ => 0) resolution sayingProgram).2.received =
        (s.execute 9 (fun _ => 0) resolution sayingProgram).2.received ++ rest := by
  intro s resolution
  have hfree : (s.unlimited.execute 9 (fun _ => 0) resolution sayingProgram).1 ≠ .unfinished := by
    decide +kernel
  obtain ⟨requests, -, -, h⟩ := execute_truncates hfree
  exact ⟨hfree, by decide +kernel, by decide +kernel, (h s.state.sink.full).2.2.1⟩

end Session
end Lox
