import Braces.Compile
import Braces.Dump
import Braces.Text.Space

/-!
# The command

What the command line prints for a source text: its tokens, its program or the emitted program. The
text is scanned in any case, so a text that cannot be scanned fails the same way whatever is asked
for.
-/

namespace Braces

/-- What is printed. -/
inductive Stage where
  | tokens | tree | cpp
  deriving DecidableEq, Repr

namespace Stage

def ofName? : String → Option Stage
  | "tokens" => some .tokens
  | "ast" => some .tree
  | "cpp" => some .cpp
  | _ => none

/-- The text to print, or why there is none. A failed compilation is told with its cause. -/
def render (stage : Stage) (source : String) : Except String String := do
  let tokens ← (scan source).mapError (·.message)
  match stage with
  | .tokens => return String.join (tokens.map Token.dump)
  | .tree => (parse tokens).map (fun p => (Program.dump p).text) |>.mapError (·.message)
  | .cpp => (compile source).mapError fun e => e.message ++ ": " ++ e.cause

end Stage

/-- What a run of the command leaves behind. -/
structure Outcome where
  exitCode : Nat
  stdout : String := ""
  stderr : String := ""
  /-- The text written to the output file. -/
  file? : Option String := none
  deriving DecidableEq, Repr

/-- Runs the command on what it has read. White space at the end of the input is not part of the
source text. The result goes to a file if one is asked for. -/
def runCommand (stage : Stage) (toFile : Bool) (input : String) : Outcome :=
  match stage.render (Text.trimEnd input) with
  | .ok text =>
    if toFile then { exitCode := 0, file? := some text } else { exitCode := 0, stdout := text }
  | .error message => { exitCode := 1, stderr := "error: " ++ message ++ "\n" }

end Braces
