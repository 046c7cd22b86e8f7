import PolyCalc.CommandLine.Run

/-!
# The command

Reads arguments and standard input and prints what the pure layer answers. A session is answered
line by line, so that it can be used at a terminal.
-/

namespace PolyCalc.CommandLine

/-- Reads up to and including a newline, or up to the end of the input. -/
partial def readLine (stdin : IO.FS.Stream) (held : List UInt8) : IO (List UInt8) := do
  match (← stdin.read 1).toList with
  | [] => return held.reverse
  | b :: _ =>
      if b = Session.newline then return (b :: held).reverse
      else readLine stdin (b :: held)

/-- Answers lines until the input ends. -/
partial def converse (stdin stdout : IO.FS.Stream) : IO Unit := do
  stdout.putStr Session.prompt
  stdout.flush
  match ← readLine stdin [] with
  | [] => stdout.putStr "\n"
  | line =>
      stdout.putStr (Session.response line)
      converse stdin stdout

/-- Runs the command and gives its exit code. -/
def perform (arguments : List String) : IO UInt32 := do
  let stdout ← IO.getStdout
  match Request.ofArguments arguments with
  | some .interact =>
      stdout.putStr Session.greeting
      converse (← IO.getStdin) stdout
      return 0
  | _ =>
      let outcome := run arguments []
      stdout.putStr outcome.stdout
      (← IO.getStderr).putStr outcome.stderr
      return outcome.exitCode.toUInt32

end PolyCalc.CommandLine

def main (arguments : List String) : IO UInt32 :=
  PolyCalc.CommandLine.perform arguments
