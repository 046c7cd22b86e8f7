import PolyCalc.CommandLine.Request
import PolyCalc.CommandLine.Session

/-!
# Running the command

The outcome of the command as a function of its arguments and of all of its input.

Not modelled:

* the log. Its lines go to the error output and hold the time of day; `-v` asks for them, and
  without it only failures of the system are logged;
* failures of the system, as in reading and writing;
* an interrupt from the keyboard, which ends a session with the exit code zero;
* of the message on wrong usage, the lines that name the argument at fault (`usageText`).
-/

namespace PolyCalc.CommandLine

/-- What a run of the command leaves behind. The log is no part of `stderr`. -/
structure Outcome where
  exitCode : UInt8
  stdout : String
  stderr : String
  deriving DecidableEq, Inhabited

def versionText : String := "ndc 0.1.0\n"

/-- The answer to a request for help, as the library that reads the arguments lays it out. -/
def helpText : String :=
  "No-division calculator: expands expressions over +, -, * and ^ into canonical polynomials.\n" ++
  "\n" ++
  "Usage: ndc [OPTIONS]\n" ++
  "\n" ++
  "Options:\n" ++
  "  -c [<EXPRESSION>]  Evaluate the expression and print the result. " ++
    "Starts an interactive session if omitted or empty.\n" ++
  "  -v, --verbose...   Print log messages (-v: info, -vv: debug, -vvv: trace).\n" ++
  "  -h, --help         Print help\n" ++
  "  -V, --version      Print version\n"

/-- The last line of the message on wrong usage. -/
def usageText : String := "For more information, try '--help'.\n"

/-- Evaluates one expression: a value goes to the output, a message to the error output. -/
def runOnce (expression : String) : Outcome :=
  match answer expression with
  | .ok text => ⟨0, text ++ "\n", ""⟩
  | .error message => ⟨1, "", message ++ "\n"⟩

def run (arguments : List String) (input : List UInt8) : Outcome :=
  match Request.ofArguments arguments with
  | none => ⟨2, "", usageText⟩
  | some .help => ⟨0, helpText, ""⟩
  | some .version => ⟨0, versionText, ""⟩
  | some (.evaluate expression) => runOnce expression
  | some .interact => ⟨0, Session.transcript input, ""⟩

end PolyCalc.CommandLine
