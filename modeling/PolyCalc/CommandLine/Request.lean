/-!
# Requests

What the arguments of the command ask for. They are read from the left, and a request for help
or for the version is granted as soon as it is reached. An expression may be joined to `-c`, also
by `=`, or follow it as an argument of its own; then it must not look like an option. Without an
expression the command is interactive.

The command leaves the reading of its arguments to a library. These are the documented rules of that
library for the options of this command: one that counts (`-v`), one with at most one value (`-c`),
and the two that the library adds (`-h`, `-V`). How often `-v` is given only chooses how much is
logged, so the count is not kept.
-/

namespace PolyCalc.CommandLine

/-- What the command is asked to do. -/
inductive Request where
  | help
  | version
  | evaluate (expression : String)
  | interact
  deriving DecidableEq, Inhabited

/-- What a cluster of short options asks for. -/
inductive Cluster where
  /-- Nothing but a level of logging. -/
  | plain
  | help
  | version
  /-- An expression, if it is joined to its option. -/
  | expression (joined : Option String)
  | unknown
  deriving DecidableEq, Inhabited

namespace Cluster

/-- Reads the letters after the dash. -/
def read : List Char → Cluster
  | [] => plain
  | 'v' :: rest => read rest
  | 'h' :: _ => help
  | 'V' :: _ => version
  | ['c'] => expression none
  | 'c' :: '=' :: text => expression (some (String.ofList text))
  | 'c' :: text => expression (some (String.ofList text))
  | _ :: _ => unknown

end Cluster

namespace Request

/-- Whether an argument can only be an option. A lone dash is none. -/
def looksLikeOption (argument : String) : Bool :=
  match argument.toList with
  | '-' :: _ :: _ => true
  | _ => false

/-- Reads the arguments; `found` is what `-c` has asked for so far. Nothing comes out of
arguments that are no usage of the command. -/
def readFrom (found : Option Request) : List String → Option Request
  | [] => some (found.getD interact)
  | argument :: rest =>
      if argument = "--" then
        if rest.isEmpty then some (found.getD interact) else none
      else if argument = "--help" then some help
      else if argument = "--version" then some version
      else if argument = "--verbose" then readFrom found rest
      else match argument.toList with
        | '-' :: letter :: letters =>
            match Cluster.read (letter :: letters) with
            | .plain => readFrom found rest
            | .help => some help
            | .version => some version
            | .unknown => none
            | .expression (some text) =>
                if found.isSome then none else readFrom (some (evaluate text)) rest
            | .expression none =>
                if found.isSome then none
                else match rest with
                  | next :: others =>
                      if looksLikeOption next then readFrom (some interact) (next :: others)
                      else readFrom (some (evaluate next)) others
                  | [] => some interact
        | _ => none

/-- What the arguments ask for, if they are a usage of the command. -/
def ofArguments (arguments : List String) : Option Request := readFrom none arguments

end Request

end PolyCalc.CommandLine
