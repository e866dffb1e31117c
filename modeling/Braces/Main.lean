import Braces.Command

/-!
# The command line

Reads a source text from a file, or from standard input for `-`, and prints or writes what
`runCommand` makes of it.
-/

namespace Braces

/-- What the command line asks for. -/
structure Options where
  input? : Option String := none
  output? : Option String := none
  stage : Stage := .cpp

namespace Options

def usage : String := "usage: braces [--emit tokens|ast|cpp] [--output FILE] FILE|-"

/-- Reads the arguments, or says why they make no sense. -/
def ofArgs (o : Options) : List String → Except String Options
  | [] => if o.input?.isSome then .ok o else .error usage
  | "--emit" :: name :: rest =>
    match Stage.ofName? name with
    | some stage => ofArgs { o with stage } rest
    | none => .error usage
  | "--output" :: path :: rest | "-o" :: path :: rest => ofArgs { o with output? := some path } rest
  | "--verbose" :: rest | "-v" :: rest => ofArgs o rest
  | path :: rest =>
    if o.input?.isNone && (path = "-" || !path.startsWith "-") then
      ofArgs { o with input? := some path } rest
    else .error usage

end Options

partial def readAll (input : IO.FS.Stream) (text : String) : IO String := do
  let line ← input.getLine
  if line.isEmpty then return text else readAll input (text ++ line)

def readInput (path : String) : IO String := do
  if path = "-" then readAll (← IO.getStdin) "" else IO.FS.readFile path

def runOptions (o : Options) : IO UInt32 := do
  let text ← readInput (o.input?.getD "-")
  let out := runCommand o.stage o.output?.isSome text
  (← IO.getStdout).putStr out.stdout
  (← IO.getStderr).putStr out.stderr
  if let (some path, some written) := (o.output?, out.file?) then IO.FS.writeFile path written
  return out.exitCode.toUInt32

end Braces

def main (args : List String) : IO UInt32 := do
  match Braces.Options.ofArgs {} args with
  | .ok o => Braces.runOptions o
  | .error message =>
    (← IO.getStderr).putStrLn message
    return 2
