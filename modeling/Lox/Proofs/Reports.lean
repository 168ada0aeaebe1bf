import Lox.CommandLine
import Lox.Proofs.Diagnosis
import Lox.Proofs.Output
import Lox.Proofs.Requests

/-! What the command line reports.
A script is reported by its outcome: what was printed, all that was found wrong, and the status that tells
what that was. The prompt reports what one session answers to the lines that are typed (`run_reports`). -/
namespace Lox

theorem joinLines_ended {texts : List String} (h : texts ≠ []) :
    joinLines texts ++ "\n" = String.join (texts.map (· ++ "\n")) := by
  unfold joinLines
  induction texts with
  | nil => exact absurd rfl h
  | cons text texts ih =>
    rw [List.map_cons, String.join_cons]
    cases texts with
    | nil => rw [String.intercalate_singleton, List.map_nil, String.join_nil, String.append_empty]
    | cons next texts =>
      rw [String.intercalate_cons_cons, String.append_assoc, ih nofun, String.append_assoc]

namespace CommandLine

def rendered (errors : List SyntaxError) : String := String.join (errors.map (·.text ++ "\n"))

def statusOf : Outcome → UInt32
  | .refused _ => refusedStatus
  | .failed _ => failedStatus
  | .ok | .unfinished => 0

def told : Outcome → String
  | .ok => ""
  | .refused errors => rendered errors
  | .failed e => e.text ++ "\n"
  | .unfinished => "budget used up\n"

variable {budget : Nat} {clock : Nat → Float} {s : Session} {source : String}

/-! ### Scripts -/

theorem messageLines_report : messageLines (s.run budget clock source).1.report? =
    told (s.run budget clock source).1 := by
  cases ho : (s.run budget clock source).1 with
  | refused errors =>
    have hne := (Session.run_eq_refused_iff.1 ho).2
    show joinLines (errors.map SyntaxError.text) ++ "\n" = rendered errors
    rw [joinLines_ended (by simpa using hne), List.map_map]
    rfl
  | ok | failed | unfinished => rfl

/-- In a session without errors, the status tells how the run ends. -/
theorem runText_eq (herror : s.hadError = false) (hruntime : s.hadRuntimeError = false) :
    (runText budget clock s source).1 = ⟨statusOf (s.run budget clock source).1,
      (s.run budget clock source).2.printedSince s, told (s.run budget clock source).1⟩ := by
  obtain ⟨herror', hruntime'⟩ := Session.flags_answer budget clock s (.run source)
  rw [Session.answer_run, herror] at herror'
  rw [Session.answer_run, hruntime] at hruntime'
  rw [runText, ← messageLines_report]
  dsimp only at herror' hruntime' ⊢
  rw [herror', hruntime']
  cases (s.run budget clock source).1 <;> rfl

theorem runScript_eq : runScript budget clock false source =
    ⟨statusOf ((Session.initial .unlimited).run budget clock source).1,
      ((Session.initial .unlimited).run budget clock source).2.state.sink.text,
      told ((Session.initial .unlimited).run budget clock source).1⟩ := by
  have hprinted (t : Session) : t.printedSince (.initial .unlimited) = t.state.sink.text :=
    Sink.since_eq String.empty_append.symm
  exact (runText_eq rfl rfl).trans (by rw [hprinted])

/-- A script that is run is reported by how the run ends: refused, failed or else done. -/
structure ReportsRun (source : String) (ended : Outcome × Session) (report : Report) : Prop where
  printed : report.stdout = ended.2.state.sink.text
  refused_iff : report.status = 65 ↔ refusals source .initial ≠ []
  refused : report.status = 65 → report.stdout = "" ∧ report.stderr = rendered (refusals source .initial)
  failed_iff : report.status = 70 ↔ ∃ e, ended.1 = .failed e
  failed : ∀ e, ended.1 = .failed e → report.stderr = e.text ++ "\n"
  done : ended.1 ≠ .unfinished → report.status ≠ 65 → report.status ≠ 70 →
    report.status = 0 ∧ report.stderr = ""

theorem statusOf_eq_refused {o : Outcome} : statusOf o = 65 ↔ ∃ errors, o = .refused errors := by
  cases o <;> simp [statusOf, refusedStatus, failedStatus]

theorem statusOf_eq_failed {o : Outcome} : statusOf o = 70 ↔ ∃ e, o = .failed e := by
  cases o <;> simp [statusOf, refusedStatus, failedStatus]

theorem runScript_reports : ReportsRun source ((Session.initial .unlimited).run budget clock source)
    (runScript budget clock false source) := by
  rw [runScript_eq]
  -- Of the fresh session it matters only which ids are free and that nothing is printed yet.
  generalize hs : Session.initial .unlimited = s
  have hids : s.ids = .initial := by rw [← hs]; rfl
  have htext : s.state.sink.text = "" := by rw [← hs]; rfl
  have hrefused {errors : List SyntaxError} :
      (s.run budget clock source).1 = .refused errors ↔ refusals source .initial = errors ∧ errors ≠ [] :=
    hids ▸ Session.run_eq_refused_iff
  refine ⟨rfl, ?_, fun hstatus => ?_, statusOf_eq_failed, fun e he => by rw [he]; rfl, ?_⟩
  · rw [statusOf_eq_refused]
    simp only [hrefused]
    exact ⟨fun ⟨_, heq, hne⟩ => heq ▸ hne, fun hne => ⟨_, rfl, hne⟩⟩
  · obtain ⟨errors, ho⟩ := statusOf_eq_refused.1 hstatus
    have hstate := congrArg (·.2.state.sink.text) (Session.state_of_refused ho)
    exact ⟨hstate.trans htext, by rw [ho, (hrefused.1 ho).1]; rfl⟩
  · intro hunfinished hnotRefused hnotFailed
    cases ho : (s.run budget clock source).1 with
    | ok => exact ⟨rfl, rfl⟩
    | refused errors => exact absurd (statusOf_eq_refused.2 ⟨errors, ho⟩) hnotRefused
    | failed e => exact absurd (statusOf_eq_failed.2 ⟨e, ho⟩) hnotFailed
    | unfinished => exact absurd ho hunfinished

theorem runScript_listing : runScript budget clock true source =
    match (compile source .initial).1 with
    | .ok p => ⟨0, p.source, ""⟩
    | .error errors => ⟨65, "", rendered errors⟩ := by
  show (listTree (.initial .unlimited) source).1 = _
  unfold listTree Session.parse Session.initial
  dsimp only
  cases (compile source .initial).1 <;> rfl

/-- A listing is refused for what scanning and parsing find wrong. -/
theorem listing_cases :
    compileErrors source .initial ≠ [] ∧
        runScript budget clock true source = ⟨65, "", rendered (compileErrors source .initial)⟩ ∨
      ∃ p, (compile source .initial).1 = .ok p ∧ runScript budget clock true source = ⟨0, p.source, ""⟩ := by
  rw [runScript_listing]
  cases hc : (compile source .initial).1 with
  | ok p => exact .inr ⟨p, rfl, rfl⟩
  | error errors =>
    obtain ⟨herrors, hne⟩ := compile_eq_error_iff.1 hc
    exact .inl ⟨herrors ▸ hne, by rw [herrors]⟩

/-! ### The prompt -/

/-- The lines that a text is read as, each with its line end, which the last may lack. -/
inductive ReadLines : List Char → List (List Char) → Prop
  | nothing : ReadLines [] []
  | unended {line : List Char} (whole : '\n' ∉ line) (some : line ≠ []) : ReadLines line [line]
  | ended {line rest : List Char} {lines : List (List Char)} (whole : '\n' ∉ line)
    (later : ReadLines rest lines) : ReadLines (line ++ '\n' :: rest) ((line ++ ['\n']) :: lines)

theorem splitLines_ended {line : List Char} (h : '\n' ∉ line) (rest : List Char) :
    splitLines (line ++ '\n' :: rest) = (line ++ ['\n']) :: splitLines rest := by
  induction line with
  | nil => simp [splitLines]
  | cons c line ih =>
    obtain ⟨hc, hline⟩ := List.ne_and_not_mem_of_not_mem_cons h
    rw [List.cons_append, splitLines, if_neg hc.symm, ih hline]
    rfl

theorem splitLines_unended {line : List Char} (h : '\n' ∉ line) (hne : line ≠ []) :
    splitLines line = [line] := by
  induction line with
  | nil => exact absurd rfl hne
  | cons c line ih =>
    obtain ⟨hc, hline⟩ := List.ne_and_not_mem_of_not_mem_cons h
    rw [splitLines, if_neg hc.symm]
    cases line with
    | nil => rfl
    | cons d line => rw [ih hline nofun]

theorem ReadLines.cons {c : Char} {cs : List Char} {lines : List (List Char)} (hc : '\n' ≠ c) :
    ReadLines cs lines → ReadLines (c :: cs)
      (match lines with
      | [] => [[c]]
      | line :: lines => (c :: line) :: lines) := by
  intro h
  cases h with
  | nothing => exact .unended (List.not_mem_cons_of_ne_of_not_mem hc List.not_mem_nil) nofun
  | unended whole _ => exact .unended (List.not_mem_cons_of_ne_of_not_mem hc whole) nofun
  | ended whole later => exact .ended (List.not_mem_cons_of_ne_of_not_mem hc whole) later

theorem readLines_iff {cs : List Char} {lines : List (List Char)} :
    ReadLines cs lines ↔ splitLines cs = lines := by
  constructor
  · intro h
    induction h with
    | nothing => rfl
    | unended whole some => exact splitLines_unended whole some
    | ended whole _ ih => rw [splitLines_ended whole, ih]
  · rintro rfl
    induction cs with
    | nil => exact .nothing
    | cons c cs ih =>
      unfold splitLines
      split
      · next hc => exact hc ▸ .ended List.not_mem_nil ih
      · next hc => exact ih.cons (Ne.symm hc)

def requests (lines : List String) : List Session.Request := lines.flatMap fun line => [.run line, .reset]

def shown : Session.Answer → String
  | .ran _ text => "> " ++ text
  | _ => ""

def toldAbout : Session.Answer → String
  | .ran outcome _ => told outcome
  | _ => ""

theorem answerLines_cons (line : String) (lines : List String) :
    answerLines budget clock false s (line :: lines) =
      let later := answerLines budget clock false (s.run budget clock line).2.resetErrors lines
      ⟨0, "> " ++ (s.run budget clock line).2.printedSince s ++ later.stdout,
        told (s.run budget clock line).1 ++ later.stderr⟩ := by
  rw [← messageLines_report]
  rfl

theorem answerLines_eq (lines : List String) : answerLines budget clock false s lines =
    ⟨0, String.join ((s.answers budget clock (requests lines)).map shown) ++ "> ",
      String.join ((s.answers budget clock (requests lines)).map toldAbout)⟩ := by
  induction lines generalizing s with
  | nil => rfl
  | cons line lines ih =>
    have hanswers : s.answers budget clock (requests (line :: lines)) =
        .ran (s.run budget clock line).1 ((s.run budget clock line).2.printedSince s) :: .reset ::
          (s.run budget clock line).2.resetErrors.answers budget clock (requests lines) := rfl
    rw [hanswers, answerLines_cons, ih]
    simp only [List.map_cons, String.join_cons, shown, toldAbout, String.empty_append, String.append_assoc]

/-- Whatever reads the arguments, a script is reported by how it ends on a fresh session, and a listing by what
scanning and parsing find; only a source that is refused when it is run can be refused when it is listed. The
prompt ends well, and shows and tells what one session answers to the lines. -/
theorem run_reports (front : Frontend) (budget : Nat) (clock : Nat → Float) (args : List String)
    (file? : String → Option String) (typed : String) :
    (∀ path source, front.read args = .script path false → file? path = some source →
      ReportsRun source ((Session.initial .unlimited).run budget clock source)
        (respond budget clock front args file? typed)) ∧
    (∀ path source, front.read args = .script path true → file? path = some source →
      let report := respond budget clock front args file? typed
      (compileErrors source .initial ≠ [] ∧ report = ⟨65, "", rendered (compileErrors source .initial)⟩ ∨
        ∃ p, (compile source .initial).1 = .ok p ∧ report = ⟨0, p.source, ""⟩) ∧
      ∀ plain, front.read plain = .script path false →
        (respond budget clock front plain file? typed).status ≠ 65 → report.status ≠ 65) ∧
    (front.read args = .prompt false →
      ∃ lines : List String, ReadLines typed.toList (lines.map String.toList) ∧
        let answers := (Session.initial .unlimited).answers budget clock (requests lines)
        respond budget clock front args file? typed =
          ⟨0, String.join (answers.map shown) ++ "> ", String.join (answers.map toldAbout)⟩) := by
  have hscript {args : List String} {path source : String} {printTree : Bool}
      (hargs : front.read args = .script path printTree) (hfile : file? path = some source) :
      respond budget clock front args file? typed = runScript budget clock printTree source := by
    simp only [respond, hargs, hfile]
  refine ⟨fun path source hargs hfile => ?_, fun path source hargs hfile => ?_, fun hargs => ?_⟩
  · rw [hscript hargs hfile]
    exact runScript_reports
  · dsimp only
    rw [hscript hargs hfile]
    refine ⟨listing_cases, fun plain hplain hstatus => ?_⟩
    rw [hscript hplain hfile] at hstatus
    -- What refuses a listing is among what refuses a run.
    have hrefusals := not_not.1 (mt runScript_reports.refused_iff.2 hstatus)
    obtain ⟨hne, -⟩ | ⟨p, -, hreport⟩ := @listing_cases budget clock source
    · exact absurd (List.append_eq_nil_iff.1 hrefusals).1 hne
    · rw [hreport]
      exact (by decide : (0 : UInt32) ≠ 65)
  · refine ⟨(splitLines typed.toList).map String.ofList, ?_, ?_⟩
    · rw [List.map_map, readLines_iff]
      simp
    · dsimp only
      simp only [respond, hargs]
      exact answerLines_eq _

def failing : String := "print \"a\"; print \"a\" - \"b\";"

theorem run_reports_failing :
    (run 100 (fun _ => 0) ["a.lox"] (fun _ => some failing) "").status = 70 ∧
    (run 100 (fun _ => 0) ["a.lox"] (fun _ => some failing) "").stderr =
      "Oprands must be numbers.\n[line 1]\n" ∧
    (run 100 (fun _ => 0) ["--print-ast", "a.lox"] (fun _ => some failing) "").status ≠ 65 ∧
    (run 100 (fun _ => 0) [] (fun _ => none) failing).status = 0 := by
  have hplain : frontend.read ["a.lox"] = .script "a.lox" false := by decide +kernel
  have hlisted : frontend.read ["--print-ast", "a.lox"] = .script "a.lox" true := by decide +kernel
  have hfailed : ((Session.initial .unlimited).run 100 (fun _ => 0) failing).1 =
      .failed (.fault 1 .numberOperands) := by cbv
  have hreport := (run_reports frontend 100 (fun _ => 0) ["a.lox"] (fun _ => some failing) "").1 _ _ hplain rfl
  have hlisting := (run_reports frontend 100 (fun _ => 0) ["--print-ast", "a.lox"] (fun _ => some failing)
    "").2.1 _ _ hlisted rfl
  obtain ⟨lines, -, hprompt⟩ := (run_reports frontend 100 (fun _ => 0) [] (fun _ => none) failing).2.2 rfl
  have hstatus := hreport.failed_iff.2 ⟨_, hfailed⟩
  refine ⟨hstatus, hreport.failed _ hfailed, hlisting.2 _ hplain ?_, congrArg Report.status hprompt⟩
  rw [hstatus]
  decide

end CommandLine
end Lox
