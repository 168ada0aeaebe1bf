import Std.Time.DateTime.Timestamp
import Lox.CommandLine

/-! The program: arguments, files, the terminal and the clock around `CommandLine`. -/
namespace Lox
namespace CommandLine

/-- Readings of a clock that starts now and gains a microsecond at each reading. -/
def startClock : IO (Nat → Float) := do
  let now ← Std.Time.Timestamp.now
  let start := now.toNanosecondsSinceUnixEpoch.val.toNat
  pure fun n => Float.ofScientific (start + 1000 * n) true 9

def emit (report : Report) : IO Unit := do
  (← IO.getStdout).putStr report.stdout
  (← IO.getStdout).flush
  (← IO.getStderr).putStr report.stderr

partial def promptLoop (printTree : Bool) (s : Session) : IO Unit := do
  (← IO.getStdout).putStr promptText
  (← IO.getStdout).flush
  let line ← (← IO.getStdin).getLine
  unless line.isEmpty do
    let (report, s) := answerLine Session.ample (← startClock) printTree s line
    emit report
    promptLoop printTree s

def scriptReport (printTree : Bool) (path : String) : IO Report := do
  try
    let source ← IO.FS.readFile path
    pure (runScript Session.ample (← startClock) printTree source)
  catch
    | .noFileOrDirectory .. => pure (unreadable path missingFile)
    | e => pure (unreadable path (toString e))

end CommandLine
end Lox

open Lox CommandLine in
def main (args : List String) : IO UInt32 := do
  match request args with
  | .prompt printTree =>
    promptLoop printTree (.initial .unlimited)
    pure 0
  | .script path printTree =>
    let report ← scriptReport printTree path
    emit report
    pure report.status
  | .report report =>
    emit report
    pure report.status
