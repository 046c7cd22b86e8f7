import PolyCalc.Evaluation
import PolyCalc.Text.Blank

/-!
# Sessions

An interactive session prompts for a line, prints the response to it and goes on until the input
ends. It takes its input byte by byte and holds nothing but the line that is being read, so the
response to a line is a function of that line alone.
-/

namespace PolyCalc.CommandLine.Session

def greeting : String := "Welcome to the no-division calculator!\n"

def prompt : String := ">"

/-- The byte that ends a line. -/
def newline : UInt8 := 10

/-- What is printed for an expression, on either outcome. -/
def reply (expression : String) : String :=
  match answer expression with
  | .ok text => text ++ "\n"
  | .error message => message ++ "\n"

/-- What is printed for a line: nothing if it is blank, a complaint if it is not UTF-8. -/
def response (line : List UInt8) : String :=
  match String.fromUTF8? ⟨line.toArray⟩ with
  | none => "stream did not contain valid UTF-8\n"
  | some text =>
      match Text.trim text.toList with
      | [] => ""
      | c :: cs => reply (String.ofList (c :: cs))

/-- What is printed after a prompt: the responses to the lines that are still to come, each with
the next prompt, and a line end when the input is over. `held` has the bytes of the present line
so far, the last one first; the last line may lack its newline. -/
def conversation : (held : List UInt8) → List UInt8 → String
  | [], [] => "\n"
  | b :: held, [] => response (b :: held).reverse ++ prompt ++ "\n"
  | held, b :: bs =>
      if b = newline then response (b :: held).reverse ++ prompt ++ conversation [] bs
      else conversation (b :: held) bs

/-- Everything that a session prints. -/
def transcript (input : List UInt8) : String :=
  greeting ++ prompt ++ conversation [] input

end PolyCalc.CommandLine.Session
