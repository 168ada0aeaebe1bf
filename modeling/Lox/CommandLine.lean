import Lox.Session

/-! The command line: arguments, scripts and the prompt.
Everything is decided here, without input or output: a program run gets the contents of its script
or the lines that are typed, and answers the texts to show and the exit status. -/
namespace Lox
namespace CommandLine

structure Report where
  status : UInt32
  stdout : String
  stderr : String
  deriving DecidableEq, Repr

/-- What the arguments ask for: a script, the prompt, or no more than a report. -/
inductive Request
  | script (path : String) (printTree : Bool)
  | prompt (printTree : Bool)
  | report (report : Report)
  deriving DecidableEq, Repr

/-- What stands around the interpreter: how arguments are read, and the report on a script that
cannot be read. -/
structure Frontend where
  read : List String → Request
  unread : String → Report

/-- Exit statuses of scripts: refused programs, runs that fail, misuse. -/
def refusedStatus : UInt32 := 65

def failedStatus : UInt32 := 70

def misuseStatus : UInt32 := 64

def messageLines : Option String → String
  | some text => text ++ "\n"
  | none => ""

def listTree (s : Session) (source : String) : Report × Session :=
  let (parsed, s) := s.parse source
  match parsed with
  | .ok p => (⟨0, p.source, ""⟩, s)
  | .error errors =>
    (⟨refusedStatus, "", String.join (errors.map (·.text ++ "\n"))⟩, s)

variable (budget : Nat) (clock : Nat → Float)

def runText (s : Session) (source : String) : Report × Session :=
  let (outcome, t) := s.run budget clock source
  let status := if t.hadError then refusedStatus else if t.hadRuntimeError then failedStatus else 0
  (⟨status, t.printedSince s, messageLines outcome.report?⟩, t)

def perform (printTree : Bool) (s : Session) (source : String) : Report × Session :=
  if printTree then listTree s source else runText budget clock s source

def runScript (printTree : Bool) (source : String) : Report :=
  (perform budget clock printTree (.initial .unlimited) source).1

/-- A line at the prompt. Earlier failures are forgotten. -/
def answerLine (printTree : Bool) (s : Session) (line : String) : Report × Session :=
  let (report, s) := perform budget clock printTree s line
  (report, s.resetErrors)

def promptText : String := "> "

/-- The lines of a text, each with its line end; the last may lack one. -/
def splitLines : List Char → List (List Char)
  | [] => []
  | c :: cs =>
    if c = '\n' then [c] :: splitLines cs
    else match splitLines cs with
      | [] => [[c]]
      | line :: lines => (c :: line) :: lines

/-- The answers to lines typed one after another, and the last prompt, which nothing answers. -/
def answerLines (printTree : Bool) (s : Session) : List String → Report
  | [] => ⟨0, promptText, ""⟩
  | line :: lines =>
    let (report, s) := answerLine budget clock printTree s line
    let later := answerLines printTree s lines
    ⟨0, promptText ++ report.stdout ++ later.stdout, report.stderr ++ later.stderr⟩

def runPrompt (printTree : Bool) (typed : String) : Report :=
  answerLines budget clock printTree (.initial .unlimited)
    ((splitLines typed.toList).map String.ofList)

/-- The whole command line, on the files that can be read. -/
def respond (front : Frontend) (args : List String) (file? : String → Option String)
    (typed : String) : Report :=
  match front.read args with
  | .report report => report
  | .prompt printTree => runPrompt budget clock printTree typed
  | .script path printTree =>
    match file? path with
    | some source => runScript budget clock printTree source
    | none => front.unread path

/-! ### The program's own frontend -/

def versionText : String := "treelox 0.1.0\n"

def helpText : String :=
  "Run a Lox script, or start a prompt when no script is given\n\n" ++
  "Usage: treelox [OPTIONS] [SCRIPT]\n\n" ++
  "Arguments:\n" ++
  "  [SCRIPT]  Script to run\n\n" ++
  "Options:\n" ++
  "      --print-ast  Print the parsed program as fully parenthesized source " ++
  "instead of running it\n" ++
  "  -h, --help       Print help\n" ++
  "  -V, --version    Print version\n"

def version : Request := .report ⟨0, versionText, ""⟩

def help : Request := .report ⟨0, helpText, ""⟩

def misuse : Request := .report ⟨misuseStatus, "", "error: bad usage\n"⟩

structure Options where
  script : Option String
  printTree : Bool

namespace Options

def none : Options := ⟨.none, false⟩

def request (o : Options) : Request :=
  match o.script with
  | some path => .script path o.printTree
  | .none => .prompt o.printTree

def withScript? (o : Options) (path : String) : Option Options :=
  if path.isEmpty || o.script.isSome then .none else some { o with script := some path }

def readPlain (o : Options) : List String → Request
  | [] => o.request
  | arg :: args =>
    match o.withScript? arg with
    | some o => o.readPlain args
    | .none => misuse

/-- Read arguments in order; the first that asks for a text or is wrong decides. A single dash is
not an option, and nothing behind a double dash is. -/
def read (o : Options) : List String → Request
  | [] => o.request
  | arg :: args =>
    match arg.toList with
    | ['-', '-'] => o.readPlain args
    | '-' :: '-' :: name =>
      if name = "print-ast".toList && !o.printTree then read { o with printTree := true } args
      else if name = "version".toList then version
      else if name = "help".toList then help
      else misuse
    | '-' :: 'V' :: _ => version
    | '-' :: 'h' :: _ => help
    | '-' :: _ :: _ => misuse
    | _ =>
      match o.withScript? arg with
      | some o => read o args
      | .none => misuse

end Options

def request (args : List String) : Request := Options.none.read args

def unreadable (path cause : String) : Report :=
  ⟨1, "", "Error: failed to read " ++ path ++ "\n\nCaused by:\n    " ++ cause ++ "\n"⟩

def missingFile : String := "No such file or directory (os error 2)"

def frontend : Frontend := ⟨request, fun path => unreadable path missingFile⟩

def run (args : List String) (file? : String → Option String) (typed : String) : Report :=
  respond budget clock frontend args file? typed

end CommandLine
end Lox
